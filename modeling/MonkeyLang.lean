import MonkeyLang.Syntax.Equality
import MonkeyLang.Main
import MonkeyLang.Proofs.Token.Written
import MonkeyLang.Proofs.Token.Longest
import MonkeyLang.Proofs.Token.Junction
import MonkeyLang.Proofs.Grammar.Success
import MonkeyLang.Proofs.Grammar.Reads
import MonkeyLang.Proofs.Grammar.Derivation
import MonkeyLang.Proofs.Grammar.Acceptance
import MonkeyLang.Proofs.Grammar.Spelling
import MonkeyLang.Proofs.Syntax.Reread
import MonkeyLang.Proofs.Grammar.Reread
import MonkeyLang.Proofs.Grammar.RoundTrip
import MonkeyLang.Proofs.Grammar.Kept
import MonkeyLang.Proofs.Grammar.Content
import MonkeyLang.Proofs.Grammar.Recovery
import MonkeyLang.Proofs.Scope.Heap
import MonkeyLang.Proofs.Evaluation.Outcome
import MonkeyLang.Proofs.Syntax.Fragment
import MonkeyLang.Proofs.Evaluation.Invariant
import MonkeyLang.Proofs.Evaluation.Extent
import MonkeyLang.Proofs.Evaluation.Register
import MonkeyLang.Proofs.Value.Operators
import MonkeyLang.Proofs.Evaluation.Discipline
import MonkeyLang.Proofs.Evaluation.Escape
import MonkeyLang.Proofs.Evaluation.Part
import MonkeyLang.Proofs.Evaluation.Returned
import MonkeyLang.Proofs.Syntax.Renaming
import MonkeyLang.Proofs.Value.Related
import MonkeyLang.Proofs.Scope.Renaming
import MonkeyLang.Proofs.Evaluation.Renaming
import MonkeyLang.Proofs.Evaluation.Failure
import MonkeyLang.Proofs.Evaluation.Correspondence
import MonkeyLang.Proofs.Grammar.Closing
import MonkeyLang.Proofs.Grammar.Log
import MonkeyLang.Proofs.Grammar.Accounting
import MonkeyLang.Proofs.Scope.History
import MonkeyLang.Proofs.Evaluation.History
import MonkeyLang.Proofs.Host
import MonkeyLang.Proofs.Syntax.Printed
import MonkeyLang.Proofs.Dialogue.Input
import MonkeyLang.Proofs.Evaluation.Sequence
import MonkeyLang.Proofs.Dialogue.Batch
import MonkeyLang.Proofs.Evaluation.Arithmetic
import MonkeyLang.Proofs.Scope.Recode
import MonkeyLang.Proofs.Evaluation.Reread
import MonkeyLang.Proofs.Scope.Lookup
import MonkeyLang.Proofs.Dialogue.Rejected
import MonkeyLang.Proofs.Evaluation.Exchange
import MonkeyLang.Proofs.Syntax.Spliced
import MonkeyLang.Proofs.Evaluation.Spliced
import MonkeyLang.Proofs.Grammar.Listing
import MonkeyLang.Proofs.Token.Cursor
import MonkeyLang.Proofs.Grammar.Termination
