import MonkeyLang.Proofs.Evaluation.Invariant
import MonkeyLang.Proofs.Evaluation.Register
import MonkeyLang.Proofs.Scope.Heap

/-! Errors of evaluation. An error ends everything around the place where it is raised, in the heap
of that place, and no value that is bound, passed or given is an error. -/
namespace MonkeyLang

namespace Outcome
variable {α β : Type} {o : Outcome α} {e : EvalError} {heap : Heap}

@[simp] theorem map_eq_failed {f : α → β} : o.map f = .failed e heap ↔ o = .failed e heap := by
  cases o <;> simp [map]

theorem andThen_eq_failed {f : α → Heap → Outcome β} :
    o.andThen f = .failed e heap ↔
      o = .failed e heap ∨ ∃ a k, o = .done a k ∧ f a k = .failed e heap := by
  cases o <;> simp [and_assoc]

theorem lift_eq_failed {r : Except EvalError α} {k : Heap} :
    lift r k = .failed e heap ↔ r = .error e ∧ k = heap := by
  cases r <;> simp [lift]

end Outcome

namespace Run
open Outcome

/-- A run fails by itself, after its parts have succeeded. -/
inductive Raises : Run → EvalError → Heap → Prop
  | name {n s x h} : h.get? s x = none → Raises ⟨n, .expr s (.name x), h⟩ (.unbound x) h
  | unary {n s op a h v k e} : a.eval (Closure.call n) s h = .done v k → op.apply v = .error e →
      Raises ⟨n, .expr s (.unary op a), h⟩ e k
  | binary {n s l op r h v k w m e} : l.eval (Closure.call n) s h = .done v k →
      r.eval (Closure.call n) s k = .done w m → op.apply v w = .error e →
      Raises ⟨n, .expr s (.binary l op r), h⟩ e m
  | notAFunction {n s f as h v k args m} : f.eval (Closure.call n) s h = .done v k →
      Expr.evalEach (Closure.call n) s as k = .done args m → (∀ c, v ≠ .function c) →
      Raises ⟨n, .expr s (.call f as), h⟩ (.notAFunction v.type) m
  | wrongArity {n s f as h c k args m} : f.eval (Closure.call n) s h = .done (.function c) k →
      Expr.evalEach (Closure.call n) s as k = .done args m → args.length ≠ c.arity →
      Raises ⟨n, .expr s (.call f as), h⟩ (.wrongArity c.arity args.length) m

theorem Raises.failed {r : Run} {e : EvalError} {heap : Heap} (h : r.Raises e heap) :
    r.outcome = .failed e heap := by
  cases h with
  | name hx => simp only [outcome, map_eq_failed, Expr.eval, hx]
  | unary hv hop => simp only [outcome, map_eq_failed, Expr.eval, hv, andThen_done, hop, lift]
  | binary hv hw hop =>
    simp only [outcome, map_eq_failed, Expr.eval, hv, hw, andThen_done, hop, lift]
  | @notAFunction n s f as h v k args m hf has hv =>
    simp only [outcome, map_eq_failed, Expr.eval, hf, has, andThen_done]
    cases v with
    | function c => exact (hv c rfl).elim
    | _ => rfl
  | wrongArity hf has hn =>
    simp only [outcome, map_eq_failed, Expr.eval, hf, has, andThen_done, Call.check, if_neg hn]

/-- A run fails as soon as a part of it does. -/
theorem Part.failed {q r : Run} {e : EvalError} {heap : Heap} (h : Part q r)
    (hq : q.outcome = .failed e heap) : r.outcome = .failed e heap := by
  cases h with
  -- Parts that come first.
  | operand | left | ifCondition | elseCondition | callee | firstExpr | defined | firstStmt =>
    simp only [outcome, map_eq_failed, Expr.eval, Stmt.exec, Expr.evalEach, Stmt.execEach,
      andThen_eq_failed] at hq ⊢
    exact .inl hq
  | returned | alone =>
    simp only [outcome, map_eq_failed, Stmt.exec] at hq ⊢
    exact hq
  -- Parts that come after others.
  | right hv | arguments hv =>
    simp only [outcome, map_eq_failed, Expr.eval, andThen_eq_failed] at hq ⊢
    exact .inr ⟨_, _, hv, .inl hq⟩
  | nextExprs hv =>
    simp only [outcome, map_eq_failed, Expr.evalEach, andThen_eq_failed] at hq ⊢
    exact .inr ⟨_, _, hv, hq⟩
  | ifBody hv ht | elseBody hv ht =>
    simp only [outcome, map_eq_failed, Expr.eval, andThen_eq_failed] at hq ⊢
    exact .inr ⟨_, _, hv, by rw [if_pos ht, hq]⟩
  | elseOther hv ht =>
    simp only [outcome, map_eq_failed, Expr.eval, andThen_eq_failed] at hq ⊢
    exact .inr ⟨_, _, hv, by rw [if_neg (by simp [ht]), hq]⟩
  | call hf has hn =>
    simp only [outcome, map_eq_failed, Expr.eval, andThen_eq_failed] at hq ⊢
    exact .inr ⟨_, _, hf, .inr ⟨_, _, has, by rw [Call.check, if_pos hn, hq]⟩⟩
  | nextStmts hv ht =>
    simp only [outcome, map_eq_failed, Stmt.execEach, andThen_eq_failed] at hq ⊢
    exact .inr ⟨_, _, hv, by rw [if_neg (by simp [ht]), hq]⟩
  | body =>
    simp only [outcome, map_eq_failed, Closure.call, Stmt.runBody] at hq ⊢
    exact hq

theorem Within.failed {q r : Run} {e : EvalError} {heap : Heap} (h : Within q r)
    (hq : q.outcome = .failed e heap) : r.outcome = .failed e heap := by
  induction h with
  | refl => exact hq
  | tail _ hp ih => exact hp.failed ih

/-- An expression that fails does so by itself, or a part of it fails. -/
theorem raises_or_part_failed_expr {n : Nat} {s : FrameId} {a : Expr} {k : Heap} {e : EvalError}
    {heap : Heap} (h : outcome ⟨n, .expr s a, k⟩ = .failed e heap) :
    Raises ⟨n, .expr s a, k⟩ e heap ∨
      ∃ q, Part q ⟨n, .expr s a, k⟩ ∧ q.outcome = .failed e heap := by
  simp only [outcome, map_eq_failed] at h
  cases a with
  | name x =>
    rw [Expr.eval] at h
    split at h
    · cases h
    · cases h
      exact .inl (.name ‹_›)
  | int | bool | function => cases h
  | unary op a =>
    simp only [Expr.eval, andThen_eq_failed, lift_eq_failed] at h
    obtain h | ⟨v, k', hv, hop, rfl⟩ := h
    · exact .inr ⟨_, .operand, by simpa [outcome] using h⟩
    · exact .inl (.unary hv hop)
  | binary l op r =>
    simp only [Expr.eval, andThen_eq_failed, lift_eq_failed] at h
    obtain h | ⟨v, k', hv, h | ⟨w, m, hw, hop, rfl⟩⟩ := h
    · exact .inr ⟨_, .left, by simpa [outcome] using h⟩
    · exact .inr ⟨_, .right hv, by simpa [outcome] using h⟩
    · exact .inl (.binary hv hw hop)
  | ifThen c body =>
    simp only [Expr.eval, andThen_eq_failed] at h
    obtain h | ⟨v, k', hv, h⟩ := h
    · exact .inr ⟨_, .ifCondition, by simpa [outcome] using h⟩
    · split at h
      · exact .inr ⟨_, .ifBody hv ‹_›, by simpa [outcome] using h⟩
      · cases h
  | ifElse c body other =>
    simp only [Expr.eval, andThen_eq_failed] at h
    obtain h | ⟨v, k', hv, h⟩ := h
    · exact .inr ⟨_, .elseCondition, by simpa [outcome] using h⟩
    · split at h
      · exact .inr ⟨_, .elseBody hv ‹_›, by simpa [outcome] using h⟩
      · exact .inr ⟨_, .elseOther hv (Bool.eq_false_iff.mpr ‹_›), by simpa [outcome] using h⟩
  | call f as =>
    simp only [Expr.eval, andThen_eq_failed] at h
    obtain h | ⟨v, k', hv, h | ⟨args, m, has, h⟩⟩ := h
    · exact .inr ⟨_, .callee, by simpa [outcome] using h⟩
    · exact .inr ⟨_, .arguments hv, by simpa [outcome] using h⟩
    · unfold Call.check at h
      split at h
      · split at h
        · exact .inr ⟨_, .call hv has ‹_›, by simpa [outcome] using h⟩
        · cases h
          exact .inl (.wrongArity hv has ‹_›)
      · cases h
        exact .inl (.notAFunction hv has ‹_›)

/-- A run that fails does so by itself, or a part of it fails. -/
theorem raises_or_part_failed {r : Run} {e : EvalError} {heap : Heap}
    (h : r.outcome = .failed e heap) :
    r.Raises e heap ∨ ∃ q, Part q r ∧ q.outcome = .failed e heap := by
  obtain ⟨n, activity, k⟩ := r
  cases activity with
  | expr s a => exact raises_or_part_failed_expr h
  | exprs s es =>
    cases es with
    | nil => cases h
    | cons a es =>
      simp only [outcome, Expr.evalEach, andThen_eq_failed, map_eq_failed] at h
      obtain h | ⟨v, k', hv, h⟩ := h
      · exact .inr ⟨_, .firstExpr, by simpa [outcome] using h⟩
      · exact .inr ⟨_, .nextExprs hv, h⟩
  | stmt s st =>
    simp only [outcome, map_eq_failed] at h
    cases st with
    | define x a =>
      simp only [Stmt.exec, andThen_eq_failed] at h
      obtain h | ⟨_, _, _, h⟩ := h
      · exact .inr ⟨_, .defined, by simpa [outcome] using h⟩
      · cases h
    | ret a =>
      simp only [Stmt.exec, map_eq_failed] at h
      exact .inr ⟨_, .returned, by simpa [outcome] using h⟩
    | retBare => cases h
    | expr a => exact .inr ⟨_, .alone, by simpa [outcome, Stmt.exec] using h⟩
  | stmts s ss last =>
    simp only [outcome, map_eq_failed] at h
    cases ss with
    | nil => cases h
    | cons st ss =>
      simp only [Stmt.execEach, andThen_eq_failed] at h
      obtain h | ⟨v, k', hv, h⟩ := h
      · exact .inr ⟨_, .firstStmt, by simpa [outcome] using h⟩
      · split at h
        · cases h
        · exact .inr ⟨_, .nextStmts hv (Bool.eq_false_iff.mpr ‹_›), by simpa [outcome] using h⟩
  | call c args =>
    simp only [outcome, map_eq_failed] at h
    cases n with
    | zero => cases h
    | succ n =>
      simp only [Closure.call, Stmt.runBody, map_eq_failed] at h
      exact .inr ⟨_, .body, by simpa [outcome] using h⟩

/-- The size of the syntax that an activity goes through. -/
noncomputable def size : Activity → Nat
  | .expr _ e => sizeOf e
  | .exprs _ es => sizeOf es
  | .stmt _ s => sizeOf s
  | .stmts _ ss _ => sizeOf ss
  | .call _ _ => 0

/-- A part of a run has less syntax to go through, or fewer calls that may be opened. -/
theorem Part.lt {q r : Run} (h : Part q r) :
    q.depth < r.depth ∨ q.depth = r.depth ∧ size q.activity < size r.activity := by
  cases h with
  | body => exact .inl (Nat.lt_succ_self _)
  | _ =>
    refine .inr ⟨rfl, ?_⟩
    simp [size]
    try omega

/-- Every error is raised somewhere. -/
theorem exists_raises (r : Run) {e : EvalError} {heap : Heap} (h : r.outcome = .failed e heap) :
    ∃ q, Within q r ∧ q.Raises e heap := by
  obtain hr | ⟨q, hq, hf⟩ := raises_or_part_failed h
  · exact ⟨r, .refl, hr⟩
  · have hlt := hq.lt
    obtain ⟨p, hp, hr⟩ := exists_raises q hf
    exact ⟨p, hp.tail hq, hr⟩
termination_by (r.depth, size r.activity)
decreasing_by grind

end Run

namespace Value

/-- A value that is no error and returns none. -/
def ErrorFree : Value → Prop
  | error _ => False
  | returned v => v.ErrorFree
  | _ => True

theorem IsScalar.errorFree {v : Value} (h : v.IsScalar) : v.ErrorFree := by
  cases v <;> trivial

theorem ErrorFree.arrive {v : Value} (h : v.ErrorFree) : v.arrive.ErrorFree := by
  cases v <;> exact h

end Value

/-- No value is an error. -/
def Invariant.errorFree : Invariant Unit where
  heap _ := (·.All Value.ErrorFree)
  inside _ _ := True
  value _ _ := Value.ErrorFree
  admits _ _ := True
  part _ _ := trivial
  inside_mono _ _ := trivial
  value_mono _ hv := hv
  weaken hv := hv
  arrive hv := hv.arrive
  null := trivial
  scalar hv := hv.errorFree
  get? hh hv := hh.get? hv
  set _ hh _ hv := hh.set _ _ hv
  newClosure _ hh _ := ⟨(), le_rfl, hh.newClosure _ _ _, trivial⟩
  ret _ hv := hv
  retBare _ := trivial

theorem Invariant.enters_errorFree : errorFree.Enters := by
  intro _ h c args hh _ ha
  exact ⟨trivial, (), le_rfl, trivial, hh.enter c ha⟩

namespace Session
variable {s t : Session} {depth : Nat} {p : Program} {v : Value} {e : EvalError} {heap : Heap}

theorem run?_of_failed (h : (Run.ofProgram depth s p).outcome = .failed e heap) :
    s.run? depth p = some (.error e, ⟨heap, s.scope⟩) := by
  simp only [Run.outcome, Run.ofProgram, Outcome.map_eq_failed] at h
  rw [run?, Stmt.runBody, h]
  rfl

/-- Programs leave no errors in frames. They have an error as their value only by failing. -/
theorem clears_run? (hs : s.heap.All Value.ErrorFree) (h : s.run? depth p = some (v, t)) :
    t.scope = s.scope ∧ t.heap.All Value.ErrorFree ∧
      (v.ErrorFree ∨ ∃ e, v = .error e ∧ (Run.ofProgram depth s p).outcome = .failed e t.heap) := by
  have hcall := Invariant.enters_errorFree.calls depth
  obtain ⟨hscope, _, -, hh, hv⟩ := Invariant.errorFree.run? (w := ()) hcall trivial trivial hs h
  refine ⟨hscope, hh, hv.imp id ?_⟩
  rintro ⟨e, he, hf⟩
  rw [Stmt.runBody, Outcome.map_eq_failed] at hf
  exact ⟨e, he, Outcome.map_eq_failed.mpr hf⟩

theorem Reached.errorFree {P : Program → Prop} (hs : s.Reached P) :
    s.scope = Session.start.scope ∧ s.heap.All Value.ErrorFree := by
  induction hs with
  | start => exact ⟨rfl, .first _⟩
  | next _ _ hr ih =>
    obtain ⟨hscope, hheap, -⟩ := clears_run? ih.2 hr
    exact ⟨hscope.trans ih.1, hheap⟩

end Session

/-- The first error in a program of a session ends it, as its value and in the heap in which it was
raised, and later programs run in the first frame as before. A program has an error as its value
only if it was raised in it, and no error is bound, passed to a function or given by a part. -/
theorem Session.Reached.ends_at_error {P : Program → Prop} {s : Session} (hs : s.Reached P)
    (depth : Nat) (p : Program) :
    s.scope = Session.start.scope ∧
    (∀ r, Run.Within r (.ofProgram depth s p) → ∀ e heap, r.outcome = .failed e heap →
      s.run? depth p = some (.error e, ⟨heap, s.scope⟩) ∧
      Stmt.turnEach (Closure.turn depth) p .null s = .failed e ⟨heap, s.scope⟩) ∧
    (∀ e t, s.run? depth p = some (.error e, t) →
      ∃ r, Run.Within r (.ofProgram depth s p) ∧ r.Raises e t.heap ∧
        r.outcome = .failed e t.heap) ∧
    ∀ r, Run.Within r (.ofProgram depth s p) →
      r.heap.All Value.ErrorFree ∧
      (∀ heap, r.outcome.heap? = some heap → heap.All Value.ErrorFree) ∧
      (∀ vs heap, r.outcome = .done vs heap → ∀ v ∈ vs, v.ErrorFree) ∧
      ∀ c args, r.activity = .call c args → ∀ v ∈ args, v.ErrorFree := by
  obtain ⟨hscope, hheap⟩ := hs.errorFree
  refine ⟨hscope, ?_, ?_, ?_⟩
  · intro r hr e heap hf
    have hp := hr.failed hf
    refine ⟨run?_of_failed hp, ?_⟩
    simp only [Run.outcome, Run.ofProgram, Outcome.map_eq_failed] at hp
    have hturn := Stmt.turnEach_eq (Closure.turn_eq depth) s.scope p .null s.heap
    rw [hp] at hturn
    exact hturn
  · intro e t h
    obtain ⟨-, -, hv | ⟨e', he, hf⟩⟩ := clears_run? hheap h
    · exact hv.elim
    · cases he
      obtain ⟨r, hr, hraise⟩ := Run.exists_raises _ hf
      exact ⟨r, hr, hraise, hraise.failed⟩
  · intro r hr
    have henter := Invariant.enters_errorFree
    have hstart : Invariant.errorFree.Holds () (.ofProgram depth s p) :=
      .ofProgram depth trivial trivial hheap
    obtain ⟨w, -, hr⟩ := hstart.within henter hr
    refine ⟨hr.2, ?_, ?_, ?_⟩
    · intro heap h
      obtain ⟨_, -, hh⟩ := (hr.outcome henter).of_heap? h
      exact hh
    · intro vs heap h v hv
      obtain ⟨_, -, -, hvs⟩ := (hr.outcome henter).of_done h
      obtain ⟨_, hv⟩ := hvs v hv
      exact hv
    · intro c args hc
      have ha := hr.1
      rw [hc] at ha
      exact ha.2

/-- A function that fails on integers. -/
def addsTrue : Closure := ⟨0, ["a"], [.expr (.binary (.name "a") .plus (.bool true))], 0⟩

/-- The heap in which `f` is that function. -/
def heapWithAddsTrue : Heap := ⟨#[⟨[("f", .function addsTrue)], none⟩], 1⟩

/-- The heap in which the function fails when it is called with one. -/
def heapAtMismatch : Heap := heapWithAddsTrue.push ⟨[("a", .int 1)], some 0⟩

/-- The value of a `let` fails, and so does the program, before it comes to another `let`. -/
def letOfFailure : Program := [.define "x" (.call (.name "f") [.int 1]), .define "y" (.int 2)]

theorem Session.Reached.ends_at_error_letOfFailure :
    Reached (fun _ => True) ⟨heapWithAddsTrue, 0⟩ ∧
    Run.Within ⟨1, .call addsTrue [.int 1], heapWithAddsTrue⟩
      (.ofProgram 1 ⟨heapWithAddsTrue, 0⟩ letOfFailure) ∧
    Run.outcome ⟨1, .call addsTrue [.int 1], heapWithAddsTrue⟩ =
      .failed (.mismatch .integer .plus .boolean) heapAtMismatch ∧
    run? 1 ⟨heapWithAddsTrue, 0⟩ letOfFailure =
      some (.error (.mismatch .integer .plus .boolean), ⟨heapAtMismatch, 0⟩) ∧
    Stmt.turnEach (Closure.turn 1) letOfFailure .null ⟨heapWithAddsTrue, 0⟩ =
      .failed (.mismatch .integer .plus .boolean) ⟨heapAtMismatch, 0⟩ ∧
    (∃ r, Run.Within r (.ofProgram 1 ⟨heapWithAddsTrue, 0⟩ letOfFailure) ∧
      r.Raises (.mismatch .integer .plus .boolean) heapAtMismatch) ∧
    Run.Within ⟨1, .expr 0 (.name "f"), heapWithAddsTrue⟩
      (.ofProgram 1 ⟨heapWithAddsTrue, 0⟩ letOfFailure) ∧
    Run.outcome ⟨1, .expr 0 (.name "f"), heapWithAddsTrue⟩ =
      .done [.function addsTrue] heapWithAddsTrue ∧
    (Value.function addsTrue).ErrorFree ∧ (Value.int 1).ErrorFree ∧
    heapWithAddsTrue.All Value.ErrorFree ∧ heapAtMismatch.All Value.ErrorFree := by
  have hdefine : run? 0 .start [.define "f" (.function ["a"]
      [.expr (.binary (.name "a") .plus (.bool true))])] =
      some (.null, ⟨heapWithAddsTrue, 0⟩) := by with_unfolding_all rfl
  have hs : Reached (fun _ => True) ⟨heapWithAddsTrue, 0⟩ := .next .start trivial hdefine
  have hcall : Run.Part ⟨1, .call addsTrue [.int 1], heapWithAddsTrue⟩
      ⟨1, .expr 0 (.call (.name "f") [.int 1]), heapWithAddsTrue⟩ := by
    refine .call (k := heapWithAddsTrue) ?_ rfl rfl
    with_unfolding_all rfl
  have hlet : Run.Within ⟨1, .expr 0 (.call (.name "f") [.int 1]), heapWithAddsTrue⟩
      (.ofProgram 1 ⟨heapWithAddsTrue, 0⟩ letOfFailure) := .head .defined (.single .firstStmt)
  have hr := Relation.ReflTransGen.head hcall hlet
  have hname : Run.Within ⟨1, .expr 0 (.name "f"), heapWithAddsTrue⟩
      (.ofProgram 1 ⟨heapWithAddsTrue, 0⟩ letOfFailure) := .head .callee hlet
  have hf : Run.outcome ⟨1, .call addsTrue [.int 1], heapWithAddsTrue⟩ =
      .failed (.mismatch .integer .plus .boolean) heapAtMismatch := by with_unfolding_all rfl
  have hv : Run.outcome ⟨1, .expr 0 (.name "f"), heapWithAddsTrue⟩ =
      .done [.function addsTrue] heapWithAddsTrue := by with_unfolding_all rfl
  obtain ⟨-, hfail, herror, hfree⟩ := hs.ends_at_error 1 letOfFailure
  obtain ⟨hp, hturn⟩ := hfail _ hr _ _ hf
  obtain ⟨r, hrr, hraise, -⟩ := herror _ _ hp
  obtain ⟨hheap, hend, -, hargs⟩ := hfree _ hr
  obtain ⟨-, -, hvs, -⟩ := hfree _ hname
  exact ⟨hs, hr, hf, hp, hturn, ⟨r, hrr, hraise⟩, hname, hv, hvs _ _ hv _ List.mem_cons_self,
    hargs _ _ rfl _ List.mem_cons_self, hheap, hend _ (by rw [hf]; rfl)⟩

end MonkeyLang
