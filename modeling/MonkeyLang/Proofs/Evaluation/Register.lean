import MonkeyLang.Session

/-! Evaluation with the current scope in a register. A call puts its own frame there and puts the
frame of its caller back when it ends. This is evaluation in a given scope, after which the
register holds that scope again. -/
namespace MonkeyLang

/-- The outcome of an evaluation that may change the scope of a session. -/
inductive Turn (α : Type)
  | done (a : α) (s : Session)
  | failed (e : EvalError) (s : Session)
  /-- The bound was too small to tell. -/
  | exhausted

namespace Turn
variable {α β : Type}

/-- Goes on with a result; errors and exhaustion stop the evaluation. -/
def andThen (o : Turn α) (f : α → Session → Turn β) : Turn β :=
  match o with
  | done a s => f a s
  | failed e s => failed e s
  | exhausted => exhausted

def map (f : α → β) (o : Turn α) : Turn β := o.andThen fun a s => done (f a) s

/-- The outcome of a computation that does not touch the session. -/
def lift (r : Except EvalError α) (s : Session) : Turn α :=
  match r with
  | .ok a => done a s
  | .error e => failed e s

/-- Puts a frame into the register, whatever the outcome. -/
def restore (scope : FrameId) : Turn α → Turn α
  | done a s => done a { s with scope }
  | failed e s => failed e { s with scope }
  | exhausted => exhausted

end Turn

/-- Applies any value to arguments: it must be a function, and of their number. -/
def Session.apply (call : Closure → List Value → Session → Turn Value) (callee : Value)
    (args : List Value) (s : Session) : Turn Value :=
  match callee with
  | .function c =>
    if args.length = c.arity then call c args s
    else .failed (.wrongArity c.arity args.length) s
  | v => .failed (.notAFunction v.type) s

mutual
def Expr.turn (call : Closure → List Value → Session → Turn Value) : Expr → Session → Turn Value
  | .name x, s =>
    match s.get? x with
    | some v => .done v s
    | none => .failed (.unbound x) s
  | .int n, s => .done (.int n) s
  | .bool b, s => .done (.bool b) s
  | .unary op e, s => (e.turn call s).andThen fun v s => .lift (op.apply v) s
  | .binary l op r, s =>
    (l.turn call s).andThen fun v s =>
    (r.turn call s).andThen fun w s => .lift (op.apply v w) s
  | .ifThen c body, s =>
    (c.turn call s).andThen fun v s =>
    if v.truthy then Stmt.turnEach call body .null s else .done .null s
  | .ifElse c body other, s =>
    (c.turn call s).andThen fun v s =>
    if v.truthy then Stmt.turnEach call body .null s else Stmt.turnEach call other .null s
  | .function xs body, s =>
    let (c, heap) := s.heap.newClosure s.scope xs body
    .done (.function c) { s with heap }
  | .call f as, s =>
    (f.turn call s).andThen fun callee s =>
    (Expr.turnEach call as s).andThen fun args s => s.apply call callee args

def Stmt.turn (call : Closure → List Value → Session → Turn Value) : Stmt → Session → Turn Value
  | .define x e, s =>
    (e.turn call s).andThen fun v s => .done .null { s with heap := s.heap.set s.scope x v }
  | .ret e, s => (e.turn call s).map .returned
  | .retBare, s => .done (.returned .null) s
  | .expr e, s => e.turn call s

def Expr.turnEach (call : Closure → List Value → Session → Turn Value) :
    List Expr → Session → Turn (List Value)
  | [], s => .done [] s
  | e :: es, s =>
    (e.turn call s).andThen fun v s => (Expr.turnEach call es s).map (v :: ·)

def Stmt.turnEach (call : Closure → List Value → Session → Turn Value) :
    List Stmt → Value → Session → Turn Value
  | [], last, s => .done last s
  | st :: ss, _, s =>
    (st.turn call s).andThen fun v s =>
    if v.isReturned then .done v s else Stmt.turnEach call ss v s
end

/-- Calls a closure with the register on a new frame inside its home frame. -/
def Closure.turn : Nat → Closure → List Value → Session → Turn Value
  | 0, _, _, _ => .exhausted
  | depth + 1, c, args, s =>
    let frame := (Frame.empty (some c.home)).setEach (c.parameters.zip args)
    ((Stmt.turnEach (Closure.turn depth) c.body .null
      ⟨s.heap.push frame, s.heap.frames.size⟩).map Value.arrive).restore s.scope

/-- An outcome with a scope in the register. -/
def Outcome.inScope {α : Type} (scope : FrameId) : Outcome α → Turn α
  | done a heap => .done a ⟨heap, scope⟩
  | failed e heap => .failed e ⟨heap, scope⟩
  | exhausted => .exhausted

theorem Outcome.inScope_eq_done {α : Type} {scope : FrameId} {o : Outcome α} {a : α} {s : Session} :
    o.inScope scope = .done a s ↔ ∃ heap, o = .done a heap ∧ s = ⟨heap, scope⟩ := by
  constructor
  · intro h
    cases o with
    | done b heap =>
      cases h
      exact ⟨heap, rfl, rfl⟩
    | _ => cases h
  · rintro ⟨heap, rfl, rfl⟩
    rfl

theorem Outcome.inScope_eq_failed {α : Type} {scope : FrameId} {o : Outcome α} {e : EvalError}
    {s : Session} :
    o.inScope scope = .failed e s ↔ ∃ heap, o = .failed e heap ∧ s = ⟨heap, scope⟩ := by
  constructor
  · intro h
    cases o with
    | failed e' heap =>
      cases h
      exact ⟨heap, rfl, rfl⟩
    | _ => cases h
  · rintro ⟨heap, rfl, rfl⟩
    rfl

namespace Turn
variable {α β : Type} {scope : FrameId}

theorem andThen_inScope {o : Outcome α} {f : α → Heap → Outcome β} {g : α → Session → Turn β}
    (h : ∀ a heap, g a ⟨heap, scope⟩ = (f a heap).inScope scope) :
    (o.inScope scope).andThen g = (o.andThen f).inScope scope := by
  cases o with
  | done a heap => exact h a heap
  | failed e heap => rfl
  | exhausted => rfl

theorem map_inScope (f : α → β) (o : Outcome α) :
    (o.inScope scope).map f = (o.map f).inScope scope :=
  andThen_inScope fun _ _ => rfl

theorem lift_inScope (r : Except EvalError α) (heap : Heap) :
    lift r ⟨heap, scope⟩ = (Outcome.lift r heap).inScope scope := by
  cases r <;> rfl

theorem restore_inScope (caller : FrameId) (o : Outcome α) :
    (o.inScope scope).restore caller = o.inScope caller := by
  cases o <;> rfl

end Turn

/-- Calls with the register and calls in a scope are the same. -/
def Call.Turns (call : Call) (turn : Closure → List Value → Session → Turn Value) : Prop :=
  ∀ c args heap scope, turn c args ⟨heap, scope⟩ = (call c args heap).inScope scope

section Evaluation
variable {call : Call} {turn : Closure → List Value → Session → Turn Value}

theorem Session.apply_eq (hcall : call.Turns turn)
    (callee : Value) (args : List Value) (heap : Heap) (scope : FrameId) :
    Session.apply turn callee args ⟨heap, scope⟩ =
      (call.check callee args heap).inScope scope := by
  cases callee with
  | function c =>
    rw [Session.apply, Call.check]
    split
    · exact hcall c args heap scope
    · rfl
  | _ => rfl

mutual
theorem Expr.turn_eq (hcall : call.Turns turn) (scope : FrameId) : (e : Expr) → (heap : Heap) →
    e.turn turn ⟨heap, scope⟩ = (e.eval call scope heap).inScope scope
  | .name x, heap => by
    rw [Expr.turn, Expr.eval, Session.get?]
    cases heap.get? scope x <;> rfl
  | .int _, _ => rfl
  | .bool _, _ => rfl
  | .unary op e, heap => by
    rw [Expr.turn, e.turn_eq hcall]
    exact Turn.andThen_inScope fun v heap => Turn.lift_inScope _ heap
  | .binary l op r, heap => by
    rw [Expr.turn, l.turn_eq hcall]
    refine Turn.andThen_inScope fun v heap => ?_
    rw [r.turn_eq hcall]
    exact Turn.andThen_inScope fun w heap => Turn.lift_inScope _ heap
  | .ifThen c body, heap => by
    rw [Expr.turn, c.turn_eq hcall]
    refine Turn.andThen_inScope fun v heap => ?_
    split
    · exact Stmt.turnEach_eq hcall scope body .null heap
    · rfl
  | .ifElse c body other, heap => by
    rw [Expr.turn, c.turn_eq hcall]
    refine Turn.andThen_inScope fun v heap => ?_
    split
    · exact Stmt.turnEach_eq hcall scope body .null heap
    · exact Stmt.turnEach_eq hcall scope other .null heap
  | .function _ _, _ => rfl
  | .call f as, heap => by
    rw [Expr.turn, f.turn_eq hcall]
    refine Turn.andThen_inScope fun callee heap => ?_
    rw [Expr.turnEach_eq hcall]
    exact Turn.andThen_inScope fun args heap => Session.apply_eq hcall callee args heap scope

theorem Stmt.turn_eq (hcall : call.Turns turn) (scope : FrameId) : (s : Stmt) → (heap : Heap) →
    s.turn turn ⟨heap, scope⟩ = (s.exec call scope heap).inScope scope
  | .define x e, heap => by
    rw [Stmt.turn, e.turn_eq hcall]
    exact Turn.andThen_inScope fun _ _ => rfl
  | .ret e, heap => by
    rw [Stmt.turn, e.turn_eq hcall]
    exact Turn.map_inScope _ _
  | .retBare, _ => rfl
  | .expr e, heap => e.turn_eq hcall scope heap

theorem Expr.turnEach_eq (hcall : call.Turns turn) (scope : FrameId) :
    (es : List Expr) → (heap : Heap) →
    Expr.turnEach turn es ⟨heap, scope⟩ = (Expr.evalEach call scope es heap).inScope scope
  | [], _ => rfl
  | e :: es, heap => by
    rw [Expr.turnEach, e.turn_eq hcall]
    refine Turn.andThen_inScope fun v heap => ?_
    rw [Expr.turnEach_eq hcall]
    exact Turn.map_inScope _ _

theorem Stmt.turnEach_eq (hcall : call.Turns turn) (scope : FrameId) :
    (ss : List Stmt) → (last : Value) → (heap : Heap) →
    Stmt.turnEach turn ss last ⟨heap, scope⟩ =
      (Stmt.execEach call scope ss last heap).inScope scope
  | [], _, _ => rfl
  | s :: ss, _, heap => by
    rw [Stmt.turnEach, s.turn_eq hcall]
    refine Turn.andThen_inScope fun v heap => ?_
    split
    · rfl
    · exact Stmt.turnEach_eq hcall scope ss v heap
end

end Evaluation

/-- A call puts the frame of its caller back into the register, also when it fails. -/
theorem Closure.turn_eq (depth : Nat) : (Closure.call depth).Turns (Closure.turn depth) := by
  induction depth with
  | zero => exact fun _ _ _ _ => rfl
  | succ depth ih =>
    intro c args heap scope
    rw [Closure.turn, Stmt.turnEach_eq ih, Turn.map_inScope, Turn.restore_inScope]
    rfl

end MonkeyLang
