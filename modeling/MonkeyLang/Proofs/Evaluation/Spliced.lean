import MonkeyLang.Proofs.Evaluation.Register
import MonkeyLang.Proofs.Evaluation.Sequence
import MonkeyLang.Proofs.Scope.Recode
import MonkeyLang.Proofs.Syntax.Spliced

/-! A block that runs in any case can be replaced by its statements. It runs in the scope around it,
and a returned value leaves it as it leaves the statements. -/
namespace MonkeyLang

/-- The outcome with a result of its own and with the bodies of all functions replaced. -/
def Outcome.recode {α β : Type} (φ : List Stmt → List Stmt) (r : α → β) : Outcome α → Outcome β
  | done a heap => done (r a) (heap.recode φ)
  | failed e heap => failed e (heap.recode φ)
  | exhausted => exhausted

namespace Outcome
variable {α β γ δ : Type} {φ : List Stmt → List Stmt} {r : α → β} {r' : γ → δ}

theorem andThen_recode {f : α → Heap → Outcome γ} {g : β → Heap → Outcome δ}
    (h : ∀ a heap, g (r a) (heap.recode φ) = (f a heap).recode φ r') (o : Outcome α) :
    (o.recode φ r).andThen g = (o.andThen f).recode φ r' := by
  cases o with
  | done a heap => exact h a heap
  | failed e heap => rfl
  | exhausted => rfl

theorem map_recode {f : α → γ} {g : β → δ} (h : ∀ a, g (r a) = r' (f a)) (o : Outcome α) :
    (o.recode φ r).map g = (o.map f).recode φ r' := by
  refine andThen_recode ?_ o
  intro a heap
  rw [h]
  rfl

/-- Operators give integers and booleans, in which no body is replaced. -/
theorem lift_recode {x : Except EvalError Value} (hx : ∀ v, x = .ok v → v.IsScalar) (heap : Heap) :
    lift x (heap.recode φ) = (lift x heap).recode φ (Value.recode φ) := by
  cases x with
  | ok v =>
    have hv : v.recode φ = v := (hx v rfl).recode_eq
    rw [lift, lift, Outcome.recode, hv]
  | error e => rfl

end Outcome

abbrev Value.spliced : Value → Value := Value.recode Stmt.splicedEach

abbrev Heap.spliced : Heap → Heap := Heap.recode Stmt.splicedEach

abbrev Outcome.spliced : Outcome Value → Outcome Value := Outcome.recode Stmt.splicedEach Value.spliced

/-- A function with a spliced body gives a spliced value for spliced arguments. -/
def Call.Splices (call : Call) : Prop :=
  ∀ (c : Closure) (args : List Value) (heap : Heap),
    call (c.recode Stmt.splicedEach) (args.map Value.spliced) heap.spliced =
      (call c args heap).spliced

section Evaluation
variable {call : Call} {scope : FrameId}

theorem Stmt.execEach_singleton (s : Stmt) (last : Value) (heap : Heap) :
    Stmt.execEach call scope [s] last heap = s.exec call scope heap := by
  rw [Stmt.execEach]
  cases s.exec call scope heap with
  | done v heap => exact ite_self _
  | failed e heap => rfl
  | exhausted => rfl

/-- A block as a statement of its own does what its statements do. -/
theorem Expr.execEach_alone (e : Expr) (last : Value) (heap : Heap) :
    Stmt.execEach call scope e.alone last heap = e.eval call scope heap := by
  unfold Expr.alone
  split
  · rfl
  · exact Stmt.execEach_singleton _ last heap

theorem Call.Splices.check (hcall : call.Splices) (callee : Value) (args : List Value)
    (heap : Heap) : call.check callee.spliced (args.map Value.spliced) heap.spliced =
      (call.check callee args heap).spliced := by
  cases callee with
  | function c =>
    rw [Value.spliced, Value.recode, Call.check, Call.check, List.length_map, Closure.arity_recode]
    split
    · exact hcall c args heap
    · rfl
  | _ => rfl

mutual
theorem Expr.eval_spliced (hcall : call.Splices) : (e : Expr) → ∀ heap,
    e.spliced.eval call scope heap.spliced = (e.eval call scope heap).spliced
  | .name x, heap => by
    rw [Expr.spliced, Expr.eval, Expr.eval, Heap.get?_recode]
    cases heap.get? scope x <;> rfl
  | .int _, _ => rfl
  | .bool _, _ => rfl
  | .unary op e, heap => by
    rw [Expr.spliced, Expr.eval, Expr.eval_spliced hcall e]
    refine Outcome.andThen_recode ?_ _
    intro v heap
    rw [v.rel_recode.unary_apply_eq]
    exact Outcome.lift_recode (fun _ => op.isScalar_of_apply) heap
  | .binary l op r, heap => by
    rw [Expr.spliced, Expr.eval, Expr.eval_spliced hcall l]
    refine Outcome.andThen_recode ?_ _
    intro v heap
    rw [Expr.eval_spliced hcall r]
    refine Outcome.andThen_recode ?_ _
    intro w heap
    rw [Value.binary_apply_recode]
    exact Outcome.lift_recode (fun _ => op.isScalar_of_apply) heap
  | .ifThen c body, heap => by
    rw [Expr.spliced, Expr.eval, Expr.eval_spliced hcall c]
    refine Outcome.andThen_recode ?_ _
    intro v heap
    rw [v.rel_recode.truthy_eq]
    split
    · exact Stmt.execEach_splicedEach hcall body .null rfl heap
    · rfl
  | .ifElse c body other, heap => by
    rw [Expr.spliced, Expr.eval, Expr.eval_spliced hcall c]
    refine Outcome.andThen_recode ?_ _
    intro v heap
    rw [v.rel_recode.truthy_eq]
    split
    · exact Stmt.execEach_splicedEach hcall body .null rfl heap
    · exact Stmt.execEach_splicedEach hcall other .null rfl heap
  | .function _ _, _ => rfl
  | .call f as, heap => by
    rw [Expr.spliced, Expr.eval, Expr.eval_spliced hcall f]
    refine Outcome.andThen_recode ?_ _
    intro callee heap
    rw [Expr.evalEach_splicedEach hcall as]
    refine Outcome.andThen_recode ?_ _
    intro args heap
    exact hcall.check callee args heap

theorem Stmt.execEach_spliced (hcall : call.Splices) : (s : Stmt) → ∀ last heap,
    Stmt.execEach call scope s.spliced last heap.spliced = (s.exec call scope heap).spliced
  | .define x e, last, heap => by
    rw [Stmt.spliced, Stmt.execEach_singleton, Stmt.exec, Expr.eval_spliced hcall e]
    refine Outcome.andThen_recode ?_ _
    intro v heap
    rw [Heap.set_recode]
    rfl
  | .ret e, last, heap => by
    rw [Stmt.spliced, Stmt.execEach_singleton, Stmt.exec, Expr.eval_spliced hcall e]
    refine Outcome.map_recode ?_ _
    intro v
    rfl
  | .retBare, _, _ => rfl
  | .expr e, last, heap => by
    rw [Stmt.spliced, Expr.execEach_alone]
    exact Expr.eval_spliced hcall e heap

theorem Expr.evalEach_splicedEach (hcall : call.Splices) : (es : List Expr) → ∀ heap,
    Expr.evalEach call scope (Expr.splicedEach es) heap.spliced =
      (Expr.evalEach call scope es heap).recode Stmt.splicedEach (List.map Value.spliced)
  | [], _ => rfl
  | e :: es, heap => by
    rw [Expr.splicedEach, Expr.evalEach, Expr.eval_spliced hcall e]
    refine Outcome.andThen_recode ?_ _
    intro v heap
    rw [Expr.evalEach_splicedEach hcall es]
    refine Outcome.map_recode ?_ _
    intro vs
    rfl

/-- What goes before must not be a returned value, which would stop the second part of an append. -/
theorem Stmt.execEach_splicedEach (hcall : call.Splices) : (ss : List Stmt) → ∀ last,
    last.isReturned = false → ∀ heap,
    Stmt.execEach call scope (Stmt.splicedEach ss) last.spliced heap.spliced =
      (Stmt.execEach call scope ss last heap).spliced
  | [], _, _, _ => rfl
  | s :: ss, last, hlast, heap => by
    rw [← last.rel_recode.isReturned_eq] at hlast
    rw [Stmt.splicedEach, Stmt.execEach_append hlast, Stmt.execEach_spliced hcall s, Stmt.execEach]
    refine Outcome.andThen_recode ?_ _
    intro v heap
    rw [v.rel_recode.isReturned_eq]
    cases hv : v.isReturned with
    | true => rfl
    | false => exact Stmt.execEach_splicedEach hcall ss v hv heap
end

theorem Stmt.runBody_splicedEach (hcall : call.Splices) (body : List Stmt) (heap : Heap) :
    Stmt.runBody call scope (Stmt.splicedEach body) heap.spliced =
      (Stmt.runBody call scope body heap).spliced := by
  have hbody : Stmt.execEach call scope (Stmt.splicedEach body) .null heap.spliced = _ :=
    Stmt.execEach_splicedEach hcall body .null rfl heap
  rw [Stmt.runBody, hbody]
  exact Outcome.map_recode (fun v => v.recode_arrive.symm) _

end Evaluation

theorem Closure.splices_call (depth : Nat) : (Closure.call depth).Splices := by
  induction depth with
  | zero => exact fun _ _ _ => rfl
  | succ depth ih =>
    intro c args heap
    rw [Closure.call, Closure.call, Heap.size_frames_recode, Heap.enter_recode]
    exact Stmt.runBody_splicedEach ih c.body _

/-- A block as a statement among others does what its statements do there. -/
theorem Stmt.execEach_block {call : Call} {scope : FrameId} {last : Value} {block : List Stmt}
    (hblock : block ≠ []) (hlast : last.isReturned = false) (before after : List Stmt)
    (heap : Heap) :
    Stmt.execEach call scope (before ++ .expr (.ifThen (.bool true) block) :: after) last heap =
      Stmt.execEach call scope (before ++ (block ++ after)) last heap := by
  obtain ⟨s, ss, rfl⟩ := List.exists_cons_of_ne_nil hblock
  rw [Stmt.execEach_append hlast, Stmt.execEach_append hlast]
  congr 1
  funext v heap
  cases hv : v.isReturned with
  | true => rfl
  | false =>
    rw [if_neg Bool.false_ne_true, if_neg Bool.false_ne_true, Stmt.execEach_append hv]
    rfl

theorem Stmt.runBody_block {call : Call} {scope : FrameId} {block : List Stmt}
    (hblock : block ≠ []) (before after : List Stmt) (heap : Heap) :
    Stmt.runBody call scope (before ++ .expr (.ifThen (.bool true) block) :: after) heap =
      Stmt.runBody call scope (before ++ (block ++ after)) heap := by
  rw [Stmt.runBody, Stmt.runBody, Stmt.execEach_block hblock rfl]

theorem Closure.call_block {block : List Stmt} (hblock : block ≠ []) (before after : List Stmt)
    (depth id : Nat) (xs : List String) (home : FrameId) :
    Closure.call depth
        ⟨id, xs, before ++ .expr (.ifThen (.bool true) block) :: after, home⟩ =
      Closure.call depth ⟨id, xs, before ++ (block ++ after), home⟩ := by
  funext args heap
  cases depth with
  | zero => rfl
  | succ depth => exact Stmt.runBody_block hblock before after _

namespace Session

abbrev spliced (s : Session) : Session := { s with heap := s.heap.spliced }

theorem run?_spliced (depth : Nat) (s : Session) (p : Program) :
    s.spliced.run? depth (Stmt.splicedEach p) =
      (s.run? depth p).map (Prod.map Value.spliced Session.spliced) := by
  have hbody : Stmt.runBody (Closure.call depth) s.scope (Stmt.splicedEach p) s.heap.spliced = _ :=
    Stmt.runBody_splicedEach (Closure.splices_call depth) p s.heap
  rw [run?, run?, hbody]
  cases Stmt.runBody (Closure.call depth) s.scope p s.heap <;> rfl

/-- Runs the statements of a program with the scope in the register, where `last` is the value of
the one before. A returned value ends the program, and so does an error, as its value. -/
def runEach? (depth : Nat) : Program → Value → Session → Option (Value × Session)
  | [], last, s => some (last, s)
  | st :: p, _, s =>
    match st.turn (Closure.turn depth) s with
    | .done (.returned v) s => some (v, s)
    | .done v s => runEach? depth p v s
    | .failed e s => some (.error e, s)
    | .exhausted => none

theorem runEach?_eq {depth : Nat} {last : Value} (hlast : last.isReturned = false) (p : Program)
    (s : Session) : runEach? depth p last s =
      match (Stmt.execEach (Closure.call depth) s.scope p last s.heap).map Value.arrive with
      | .done v heap => some (v, { s with heap })
      | .failed e heap => some (.error e, { s with heap })
      | .exhausted => none := by
  induction p generalizing last s with
  | nil =>
    cases last with
    | returned v => cases hlast
    | _ => rfl
  | cons st p ih =>
    rw [runEach?, Stmt.execEach, Stmt.turn_eq (Closure.turn_eq depth)]
    cases st.exec (Closure.call depth) s.scope s.heap with
    | done v heap =>
      cases v with
      | returned v => rfl
      | _ => exact ih rfl ⟨heap, s.scope⟩
    | failed e heap => rfl
    | exhausted => rfl

/-- The statements of a program do what they do as the body of a function. -/
theorem runEach?_null (depth : Nat) (s : Session) (p : Program) :
    runEach? depth p .null s = s.run? depth p := runEach?_eq rfl p s

/-- A block that runs in any case can be replaced by its statements, if it has any. In a program and
in the body of a function this gives the same value or error and leaves the same session behind: the
block binds names in the scope around it, and what ends it early ends what is around it. The
statements of a program are run as those of a body are. Programs that become the same when all such
blocks are replaced, in function literals too, have outcomes that become the same as well. -/
theorem runEach?_block {block : Program} (hblock : block ≠ []) (before after : Program) :
    (∀ depth s,
      runEach? depth (before ++ .expr (.ifThen (.bool true) block) :: after) .null s =
        runEach? depth (before ++ (block ++ after)) .null s) ∧
    (∀ depth id xs home args s,
      apply (Closure.turn depth)
          (.function ⟨id, xs, before ++ .expr (.ifThen (.bool true) block) :: after, home⟩) args s =
        apply (Closure.turn depth) (.function ⟨id, xs, before ++ (block ++ after), home⟩) args s) ∧
    (∀ depth p s, runEach? depth p .null s = s.run? depth p) ∧
    (∀ xs, (Expr.function xs (before ++ .expr (.ifThen (.bool true) block) :: after)).spliced =
      (Expr.function xs (before ++ (block ++ after))).spliced) ∧
    ∀ depth p q s t, Stmt.splicedEach p = Stmt.splicedEach q → s.spliced = t.spliced →
      (runEach? depth p .null s).map (Prod.map Value.spliced Session.spliced) =
        (runEach? depth q .null t).map (Prod.map Value.spliced Session.spliced) := by
  refine ⟨?_, ?_, fun depth p s => runEach?_null depth s p, ?_, ?_⟩
  · intro depth s
    rw [runEach?_null, runEach?_null, run?, run?, Stmt.runBody_block hblock]
  · intro depth id xs home args s
    rw [apply_eq (Closure.turn_eq depth) _ args s.heap s.scope,
      apply_eq (Closure.turn_eq depth) _ args s.heap s.scope, Call.check, Call.check,
      Closure.call_block hblock]
    rfl
  · intro xs
    rw [Expr.spliced, Expr.spliced, Stmt.splicedEach_block hblock]
  · intro depth p q s t hpq hst
    rw [runEach?_null, runEach?_null, ← run?_spliced, ← run?_spliced, hpq, hst]

/-- Binds a name, and then returns the value of another in a block inside. -/
def returning : Program :=
  [.define "b" (.bool true), .expr (.ifThen (.name "b") [.ret (.name "a")])]

/-- The returning statements in a block, before a statement that fails. -/
def returningBlock : Program :=
  [.define "a" (.bool false), .expr (.ifThen (.bool true) returning), .expr (.name "c")]

/-- The same without the block. -/
def returningFlat : Program :=
  [.define "a" (.bool false)] ++ (returning ++ [.expr (.name "c")])

/-- Calls a function with this body. -/
def asFunction (body : Program) : Program :=
  [.define "f" (.function [] body), .expr (.call (.name "f") [])]

/-- The session in which `f` is a function with this body. -/
def withFunction (body : Program) : Session :=
  ⟨⟨#[⟨[("f", .function ⟨0, [], body, 0⟩)], none⟩], 1⟩, 0⟩

theorem runEach?_block_returning :
    returning ≠ [] ∧
    runEach? 0 returningFlat .null start = some (.bool false,
      ⟨⟨#[⟨[("b", .bool true), ("a", .bool false)], none⟩], 0⟩, 0⟩) ∧
    runEach? 0 returningBlock .null start = some (.bool false,
      ⟨⟨#[⟨[("b", .bool true), ("a", .bool false)], none⟩], 0⟩, 0⟩) ∧
    Stmt.splicedEach (asFunction returningBlock) = Stmt.splicedEach (asFunction returningFlat) ∧
    (runEach? 1 (asFunction returningBlock) .null start).map (Prod.map Value.spliced Session.spliced) =
      (runEach? 1 (asFunction returningFlat) .null start).map
        (Prod.map Value.spliced Session.spliced) ∧
    returningBlock ≠ returningFlat ∧
    (withFunction returningBlock).spliced = (withFunction returningFlat).spliced ∧
    (runEach? 1 [.expr (.call (.name "f") [])] .null (withFunction returningBlock)).map Prod.fst =
      some (.bool false) ∧
    (runEach? 1 [.expr (.call (.name "f") [])] .null (withFunction returningBlock)).map
        (Prod.map Value.spliced Session.spliced) =
      (runEach? 1 [.expr (.call (.name "f") [])] .null (withFunction returningFlat)).map
        (Prod.map Value.spliced Session.spliced) := by
  have hne : returning ≠ [] := List.cons_ne_nil _ _
  obtain ⟨hrun, -, -, -, hspliced⟩ := runEach?_block hne [.define "a" (.bool false)]
    [.expr (.name "c")]
  have hflat : runEach? 0 returningFlat .null start = some (.bool false,
      ⟨⟨#[⟨[("b", .bool true), ("a", .bool false)], none⟩], 0⟩, 0⟩) := by with_unfolding_all rfl
  have hprograms : Stmt.splicedEach (asFunction returningBlock) =
      Stmt.splicedEach (asFunction returningFlat) := rfl
  have hsessions : (withFunction returningBlock).spliced =
      (withFunction returningFlat).spliced := by with_unfolding_all rfl
  refine ⟨hne, hflat, (hrun 0 start).trans hflat, hprograms, hspliced 1 _ _ _ _ hprograms rfl, ?_,
    hsessions, by with_unfolding_all rfl, hspliced 1 _ _ _ _ rfl hsessions⟩
  intro h
  have hlength : returningBlock.length = returningFlat.length := by rw [h]
  cases hlength

end Session
end MonkeyLang
