import MonkeyLang.Token.Basic

/-! What a reader of programs reports. -/
namespace MonkeyLang

/-- Why a statement was abandoned. -/
inductive SyntaxError
  /-- Another kind of token was required. -/
  | expected (wanted found : Kind)
  /-- No operand starts with this kind of token. -/
  | noOperand (found : Kind)
  /-- The numeral exceeds the largest integer. -/
  | tooLarge (digits : String)
  deriving DecidableEq

def SyntaxError.message : SyntaxError → String
  | expected wanted found =>
    "expected next token to be " ++ wanted.label ++ ", got " ++ found.label ++ " instead"
  | noOperand found => "no prefix parse function for " ++ found.label ++ " found"
  | tooLarge digits => "could not parse \"" ++ digits ++ "\" as integer"

/-- An error and its place: the number of tokens from the blamed one to the end of the input. -/
structure Diagnostic where
  error : SyntaxError
  unread : Nat
  deriving DecidableEq

/-- What happened on the way: the diagnostics of abandoned statements, in order, and the number
of blocks that the end of the input closed. -/
structure Report where
  diagnostics : List Diagnostic
  unclosed : Nat
  deriving DecidableEq

namespace Report

/-- Nothing happened. -/
def empty : Report := ⟨[], 0⟩

def append (a b : Report) : Report :=
  ⟨a.diagnostics ++ b.diagnostics, a.unclosed + b.unclosed⟩

instance : Append Report := ⟨append⟩

/-- One statement was abandoned. -/
def abandoned (d : Diagnostic) : Report := ⟨[d], 0⟩

/-- One block ran into the end of the input. -/
def cut : Report := ⟨[], 1⟩

@[simp] theorem diagnostics_empty : empty.diagnostics = [] := rfl
@[simp] theorem unclosed_empty : empty.unclosed = 0 := rfl

@[simp] theorem diagnostics_append (a b : Report) :
    (a ++ b).diagnostics = a.diagnostics ++ b.diagnostics := rfl

@[simp] theorem unclosed_append (a b : Report) : (a ++ b).unclosed = a.unclosed + b.unclosed := rfl

@[simp] theorem empty_append (a : Report) : empty ++ a = a := by
  change append empty a = a
  simp [append, empty]

@[simp] theorem append_empty (a : Report) : a ++ empty = a := by
  change append a empty = a
  simp [append, empty]

theorem append_assoc (a b c : Report) : a ++ b ++ c = a ++ (b ++ c) := by
  change append (append a b) c = append a (append b c)
  simp [append, Nat.add_assoc]

end Report
end MonkeyLang
