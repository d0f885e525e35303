import MonkeyLang.Grammar.Diagnostic
import MonkeyLang.Token.Scan

/-! Rules that read with one token of lookahead. A rule starts on a token, ends on a later one or on
the same, and may give no value. What it did is kept as a tree of the rules that it called. -/
namespace MonkeyLang

/-- A reader stands on a token, knows the next one, and has the text behind that. Where there is no
token it is at the end of the input. -/
structure Reader where
  current : Option Token
  next : Option Token
  text : List Char
  errors : List SyntaxError

namespace Reader

def start (source : String) : Reader :=
  let first := Token.pull source.toList
  let second := Token.pull first.2
  ⟨first.1, second.1, second.2, []⟩

def advance (r : Reader) : Reader :=
  let later := Token.pull r.text
  { r with current := r.next, next := later.1, text := later.2 }

def record (r : Reader) (e : SyntaxError) : Reader := { r with errors := r.errors ++ [e] }

/-- The tokens that are left, the current one included. -/
def unread (r : Reader) : List Token :=
  r.current.toList ++ (r.next.toList ++ Token.scanChars r.text)

end Reader

/-- The kind of a token, or the end of the input where there is none. -/
def Kind.ofToken? (t : Option Token) : Kind := (t.map Token.kind).getD .endOfInput

/-- The rules. Those that repeat something are `statements`, `operators`, `moreParameters` and
`moreArguments`: they call themselves to go on. -/
inductive RuleName
  | statements | block | statement | letStatement | returnStatement | expressionStatement
  | expression | operators | name | int | bool | prefixOperation | group | conditional | function
  | parameters | moreParameters | binary | call | moreArguments
  deriving DecidableEq

/-- A call of a rule: the tokens that were left when it started and when it ended, and the calls
that it made itself. -/
structure RuleCall where
  rule : RuleName
  before : List Token
  after : List Token
  inside : List RuleCall

/-- Why a rule does not end. -/
inductive Halt
  | outOfFuel
  /-- A branch was taken that no input should lead to. -/
  | unreachable
  deriving DecidableEq

/-- The end of a rule: its value unless it failed, the reader, and the calls it made. -/
structure Ending (α : Type) where
  value : Option α
  reader : Reader
  calls : List RuleCall

def Rule (α : Type) := Reader → Except Halt (Ending α)

namespace Rule
variable {α β : Type}

/-- Goes on where a rule ended, unless that failed. -/
def andThen (m : Rule α) (f : α → Rule β) : Rule β := fun r =>
  match m r with
  | .error h => .error h
  | .ok ⟨none, r, calls⟩ => .ok ⟨none, r, calls⟩
  | .ok ⟨some a, r, calls⟩ => (f a r).map fun e => { e with calls := calls ++ e.calls }

instance : Monad Rule where
  pure a := fun r => .ok ⟨some a, r, []⟩
  bind := andThen

def halt (h : Halt) : Rule α := fun _ => .error h

def fail (e : SyntaxError) : Rule α := fun r => .ok ⟨none, r.record e, []⟩

def currentKind : Rule Kind := fun r => .ok ⟨some (.ofToken? r.current), r, []⟩

def nextKind : Rule Kind := fun r => .ok ⟨some (.ofToken? r.next), r, []⟩

/-- The text of the current token. -/
def lexeme : Rule String := fun r => .ok ⟨some ((r.current.map Token.lexeme).getD ""), r, []⟩

def advance : Rule Unit := fun r => .ok ⟨some (), r.advance, []⟩

/-- Goes on to the next token if it is of this kind, and otherwise fails where it is. -/
def consume (k : Kind) : Rule Unit := do
  let found ← nextKind
  if found = k then advance else fail (.expected k found)

def skipSemicolon : Rule Unit := do
  let found ← nextKind
  if found = .symbol .semicolon then advance else pure ()

/-- Goes on whether a rule fails or not. -/
def attempt (m : Rule α) : Rule (Option α) := fun r =>
  (m r).map fun e => { e with value := some e.value }

/-- Keeps what a rule did as one call. -/
def within (rule : RuleName) (m : Rule α) : Rule α := fun r =>
  (m r).map fun e => { e with calls := [⟨rule, r.unread, e.reader.unread, e.calls⟩] }

end Rule
end MonkeyLang
