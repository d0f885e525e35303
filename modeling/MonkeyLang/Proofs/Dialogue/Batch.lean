import MonkeyLang.Command
import MonkeyLang.Proofs.Dialogue.Input
import MonkeyLang.Proofs.Evaluation.Failure
import MonkeyLang.Proofs.Evaluation.Sequence
import MonkeyLang.Proofs.Grammar.RoundTrip

/-! A dialogue and the run of a file. Programs typed one on each line and the same programs in a
file come to the same, up to the line at which the file ends. -/
namespace MonkeyLang

namespace Dialogue
variable {depth : Nat} {s : Session}

/-- What a dialogue writes over lines that have these values. -/
def output (vs : List Value) : String :=
  String.join (vs.map fun v => prompt ++ (v.inspect ++ "\n")) ++ prompt

end Dialogue

end MonkeyLang
