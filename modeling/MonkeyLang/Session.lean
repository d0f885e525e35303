import MonkeyLang.Evaluation.Eval

/-! Sessions: programs run one after another in one scope. -/
namespace MonkeyLang

/-- The frames made so far, and the one in which programs run. -/
structure Session where
  heap : Heap
  scope : FrameId

namespace Session

/-- A session with a single frame, in which nothing is bound. -/
def start : Session :=
  let (scope, heap) := Heap.empty.newFrame none
  ⟨heap, scope⟩

/-- Runs a program. An error becomes the value of the program, and what it did before the error
stays done. There is no answer if calls nest deeper than `depth`. -/
def run? (depth : Nat) (s : Session) (p : Program) : Option (Value × Session) :=
  match Stmt.runBody (Closure.call depth) s.scope p s.heap with
  | .done v heap => some (v, { s with heap })
  | .failed e heap => some (.error e, { s with heap })
  | .exhausted => none

/-- The value of a name between programs. -/
def get? (s : Session) (x : String) : Option Value := s.heap.get? s.scope x

end Session
end MonkeyLang
