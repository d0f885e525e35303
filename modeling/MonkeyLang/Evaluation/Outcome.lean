import MonkeyLang.Scope.Heap

/-! Outcomes of an evaluation. Every outcome but exhaustion carries the heap it leaves behind. -/
namespace MonkeyLang

/-- The outcome of evaluating with a bound on the depth of calls. -/
inductive Outcome (α : Type)
  | done (a : α) (heap : Heap)
  | failed (e : EvalError) (heap : Heap)
  /-- The bound was too small to tell. -/
  | exhausted

namespace Outcome
variable {α β γ : Type}

/-- Goes on with a result; errors and exhaustion stop the evaluation. -/
def andThen (o : Outcome α) (f : α → Heap → Outcome β) : Outcome β :=
  match o with
  | done a heap => f a heap
  | failed e heap => failed e heap
  | exhausted => exhausted

def map (f : α → β) (o : Outcome α) : Outcome β := o.andThen fun a heap => done (f a) heap

/-- The outcome of a computation that does not touch the heap. -/
def lift (r : Except EvalError α) (heap : Heap) : Outcome α :=
  match r with
  | .ok a => done a heap
  | .error e => failed e heap

@[simp] theorem andThen_done (a : α) (heap : Heap) (f : α → Heap → Outcome β) :
    (done a heap).andThen f = f a heap := rfl

@[simp] theorem andThen_failed (e : EvalError) (heap : Heap) (f : α → Heap → Outcome β) :
    (failed e heap).andThen f = failed e heap := rfl

@[simp] theorem andThen_exhausted (f : α → Heap → Outcome β) :
    (exhausted : Outcome α).andThen f = exhausted := rfl

theorem andThen_assoc (o : Outcome α) (f : α → Heap → Outcome β) (g : β → Heap → Outcome γ) :
    (o.andThen f).andThen g = o.andThen fun a heap => (f a heap).andThen g := by
  cases o <;> rfl

end Outcome
end MonkeyLang
