import Mathlib.Order.CompleteBooleanAlgebra
import Mathlib.Order.CompletePartialOrder
import MonkeyLang.Proofs.Evaluation.Part
import MonkeyLang.Proofs.Syntax.Fragment
import MonkeyLang.Proofs.Value.Operators

/-! Invariants of evaluation. What every single step keeps is kept by evaluation, by calls of any
depth, by programs and by all parts of their runs. The evaluator is gone through once, for all
invariants: a form of expression is one case of this. -/
namespace MonkeyLang

/-- What every step of an evaluation keeps, in worlds that only grow. -/
structure Invariant (W : Type) [Preorder W] where
  /-- What the heap is like. -/
  heap : W → Heap → Prop
  /-- In which frames evaluation takes place. -/
  inside : W → FrameId → Prop
  /-- What a value is like, where it may be a returned one and where it may not. -/
  value : Bool → W → Value → Prop
  /-- What is evaluated, where a returned value may leave it and where it may not. -/
  admits : Bool → Fragment → Prop
  part {leaving b φ ψ} : admits leaving φ → ψ.Part leaving b φ → admits b ψ
  inside_mono {w w' s} : w ≤ w' → inside w s → inside w' s
  value_mono {w w' v} : w ≤ w' → value false w v → value false w' v
  weaken {leaving w v} : value false w v → value leaving w v
  arrive {w v} : value true w v → value false w v.arrive
  null {leaving w} : value leaving w .null
  scalar {leaving w v} : v.IsScalar → value leaving w v
  get? {w h s x v} : heap w h → h.get? s x = some v → value false w v
  set {leaving w h s x e v} : admits leaving (.stmt (.define x e)) → heap w h → inside w s →
    value false w v → heap w (h.set s x v)
  newClosure {leaving w h s xs body} : admits leaving (.expr (.function xs body)) → heap w h →
    inside w s → ∃ w', w ≤ w' ∧ heap w' (h.newClosure s xs body).2 ∧
      value false w' (.function (h.newClosure s xs body).1)
  ret {leaving w e v} : admits leaving (.stmt (.ret e)) → value false w v →
    value leaving w (.returned v)
  retBare {leaving w} : admits leaving (.stmt .retBare) → value leaving w (.returned .null)

namespace Invariant
variable {W : Type} [Preorder W] (I : Invariant W) {call : Call} {scope : FrameId} {w : W}
  {h : Heap}

/-- Calls keep the invariant, whatever is evaluated in them. -/
def Calls (call : Call) : Prop :=
  ∀ ⦃w h c args⦄, I.heap w h → I.value false w (.function c) → (∀ v ∈ args, I.value false w v) →
    (call c args h).EndsBeyond (· ≤ ·) I.heap w (I.value false)

variable {I} in
theorem Calls.check (hcall : I.Calls call) {callee : Value} {args : List Value} (hh : I.heap w h)
    (hc : I.value false w callee) (ha : ∀ v ∈ args, I.value false w v) :
    (call.check callee args h).EndsBeyond (· ≤ ·) I.heap w (I.value false) := by
  unfold Call.check
  split
  · split
    · exact hcall hh hc ha
    · exact .failed _ hh
  · exact .failed _ hh

mutual
theorem eval (hcall : I.Calls call) : (e : Expr) → ∀ leaving {w h}, I.admits leaving (.expr e) →
    I.inside w scope → I.heap w h →
    (e.eval call scope h).EndsBeyond (· ≤ ·) I.heap w (I.value leaving)
  | .name x, _, _, h, _, _, hh => by
    rw [Expr.eval]
    split
    · exact .done hh (I.weaken (I.get? hh ‹_›))
    · exact .failed _ hh
  | .int _, _, _, _, _, _, hh => .done hh (I.scalar trivial)
  | .bool _, _, _, _, _, _, hh => .done hh (I.scalar trivial)
  | .unary op e, _, _, _, hφ, hs, hh => by
    refine (eval hcall e _ (I.part hφ .operand) hs hh).andThen ?_
    intro w _ v h _ hh
    exact .lift hh fun _ hu => I.scalar (op.isScalar_of_apply hu)
  | .binary l op r, _, _, _, hφ, hs, hh => by
    refine (eval hcall l _ (I.part hφ .left) hs hh).andThen ?_
    intro w hw v h _ hh
    refine (eval hcall r _ (I.part hφ .right) (I.inside_mono hw hs) hh).andThen ?_
    intro w _ u h _ hh
    exact .lift hh fun _ hu => I.scalar (op.isScalar_of_apply hu)
  | .ifThen c body, _, _, _, hφ, hs, hh => by
    refine (eval hcall c _ (I.part hφ .ifCondition) hs hh).andThen ?_
    intro w hw v h _ hh
    split
    · exact execEach hcall body _ (I.part hφ .ifBody) I.null (I.inside_mono hw hs) hh
    · exact .done hh I.null
  | .ifElse c body other, _, _, _, hφ, hs, hh => by
    refine (eval hcall c _ (I.part hφ .elseCondition) hs hh).andThen ?_
    intro w hw v h _ hh
    have hs := I.inside_mono hw hs
    split
    · exact execEach hcall body _ (I.part hφ .elseBody) I.null hs hh
    · exact execEach hcall other _ (I.part hφ .elseOther) I.null hs hh
  | .function _ _, _, _, _, hφ, hs, hh => by
    obtain ⟨w', hw, hh, hc⟩ := I.newClosure hφ hh hs
    exact Outcome.EndsBeyond.extend hw (.done hh (I.weaken hc))
  | .call f as, _, _, _, hφ, hs, hh => by
    refine (eval hcall f _ (I.part hφ .callee) hs hh).andThen ?_
    intro w hw callee h hc hh
    refine (evalEach hcall as _ (I.part hφ .arguments) (I.inside_mono hw hs) hh).andThen ?_
    intro w hw args h ha hh
    exact Outcome.EndsBeyond.imp (hcall.check hh (I.value_mono hw hc) ha) fun _ _ => I.weaken

theorem exec (hcall : I.Calls call) : (s : Stmt) → ∀ leaving {w h}, I.admits leaving (.stmt s) →
    I.inside w scope → I.heap w h →
    (s.exec call scope h).EndsBeyond (· ≤ ·) I.heap w (I.value leaving)
  | .define x e, _, _, _, hφ, hs, hh => by
    refine (eval hcall e _ (I.part hφ .defined) hs hh).andThen ?_
    intro w hw v h hv hh
    exact .done (I.set hφ hh (I.inside_mono hw hs) hv) I.null
  | .ret e, _, _, _, hφ, hs, hh =>
    (eval hcall e _ (I.part hφ .returned) hs hh).map fun _ _ _ => I.ret hφ
  | .retBare, _, _, _, hφ, _, hh => .done hh (I.retBare hφ)
  | .expr e, _, _, _, hφ, hs, hh => eval hcall e _ (I.part hφ .alone) hs hh

theorem evalEach (hcall : I.Calls call) : (es : List Expr) → ∀ leaving {w h},
    I.admits leaving (.exprs es) → I.inside w scope → I.heap w h →
    (Expr.evalEach call scope es h).EndsBeyond (· ≤ ·) I.heap w
      (fun w vs => ∀ v ∈ vs, I.value false w v)
  | [], _, _, _, _, _, hh => .done hh (List.forall_mem_nil _)
  | e :: es, _, _, _, hφ, hs, hh => by
    refine (eval hcall e _ (I.part hφ .firstExpr) hs hh).andThen ?_
    intro w hw v h hv hh
    refine (evalEach hcall es _ (I.part hφ .nextExprs) (I.inside_mono hw hs) hh).map ?_
    intro w hw vs hvs
    exact List.forall_mem_cons.mpr ⟨I.value_mono hw hv, hvs⟩

theorem execEach (hcall : I.Calls call) : (ss : List Stmt) → ∀ leaving {last w h},
    I.admits leaving (.stmts ss) → I.value leaving w last → I.inside w scope → I.heap w h →
    (Stmt.execEach call scope ss last h).EndsBeyond (· ≤ ·) I.heap w (I.value leaving)
  | [], _, _, _, _, _, hl, _, hh => .done hh hl
  | s :: ss, _, _, _, _, hφ, _, hs, hh => by
    refine (exec hcall s _ (I.part hφ .firstStmt) hs hh).andThen ?_
    intro w hw v h hv hh
    split
    · exact .done hh hv
    · exact execEach hcall ss _ (I.part hφ .nextStmts) hv (I.inside_mono hw hs) hh
end

/-- What is evaluated after an expression starts where that has led. -/
theorem eval_done (hcall : I.Calls call) {e : Expr} {leaving : Bool} {k : Heap} {v : Value}
    (hφ : I.admits leaving (.expr e)) (hs : I.inside w scope) (hh : I.heap w h)
    (he : e.eval call scope h = .done v k) :
    ∃ w', w ≤ w' ∧ I.inside w' scope ∧ I.heap w' k ∧ I.value leaving w' v := by
  obtain ⟨w', hw, hk, hv⟩ := (I.eval hcall e leaving hφ hs hh).of_done he
  exact ⟨w', hw, I.inside_mono hw hs, hk, hv⟩

theorem runBody (hcall : I.Calls call) (body : List Stmt) (hφ : I.admits true (.stmts body))
    (hs : I.inside w scope) (hh : I.heap w h) :
    (Stmt.runBody call scope body h).EndsBeyond (· ≤ ·) I.heap w (I.value false) :=
  (I.execEach hcall body true hφ I.null hs hh).map fun _ _ _ => I.arrive

/-- The body of a function can be evaluated in the frame that a call makes for it. -/
def Enters : Prop :=
  ∀ ⦃w h c args⦄, I.heap w h → I.value false w (.function c) → (∀ v ∈ args, I.value false w v) →
    I.admits true (.stmts c.body) ∧ ∃ w', w ≤ w' ∧ I.inside w' h.frames.size ∧
      I.heap w' (h.push ((Frame.empty (some c.home)).setEach (c.parameters.zip args)))

variable {I} in
theorem Enters.calls (henter : I.Enters) (depth : Nat) : I.Calls (Closure.call depth) := by
  induction depth with
  | zero => exact fun _ _ _ _ _ _ _ => trivial
  | succ depth ih =>
    intro w h c args hh hc ha
    obtain ⟨hbody, w', hw, hs, hh⟩ := henter hh hc ha
    exact (I.runBody ih c.body hbody hs hh).extend hw

/-- A program keeps the invariant, and has an error as its value only if it fails. -/
theorem run? {depth : Nat} {s t : Session} {p : Program} {v : Value}
    (hcall : I.Calls (Closure.call depth)) (hp : I.admits true (.stmts p))
    (hs : I.inside w s.scope) (hh : I.heap w s.heap) (h : s.run? depth p = some (v, t)) :
    t.scope = s.scope ∧ ∃ w', w ≤ w' ∧ I.heap w' t.heap ∧ (I.value false w' v ∨
      ∃ e, v = .error e ∧
        Stmt.runBody (Closure.call depth) s.scope p s.heap = .failed e t.heap) := by
  have ho := I.runBody hcall p hp hs hh
  unfold Session.run? at h
  split at h
  · rename_i u k hr
    cases h
    rw [hr] at ho
    obtain ⟨w', hw, hk, hu⟩ := ho
    exact ⟨rfl, w', hw, hk, .inl hu⟩
  · rename_i e k hr
    cases h
    rw [hr] at ho
    obtain ⟨w', hw, hk⟩ := ho
    exact ⟨rfl, w', hw, hk, .inr ⟨e, rfl, hr⟩⟩
  · cases h

/-- What an activity starts with. -/
def Starts (w : W) : Activity → Prop
  | .expr s e => I.inside w s ∧ ∃ leaving, I.admits leaving (.expr e)
  | .exprs s es => I.inside w s ∧ ∃ leaving, I.admits leaving (.exprs es)
  | .stmt s st => I.inside w s ∧ ∃ leaving, I.admits leaving (.stmt st)
  | .stmts s ss last =>
    I.inside w s ∧ ∃ leaving, I.admits leaving (.stmts ss) ∧ I.value leaving w last
  | .call c args => I.value false w (.function c) ∧ ∀ v ∈ args, I.value false w v

/-- A run that starts within the invariant. -/
def Holds (w : W) (r : Run) : Prop := I.Starts w r.activity ∧ I.heap w r.heap

variable {I}

theorem Holds.ofProgram {s : Session} {p : Program} (depth : Nat) (hp : I.admits true (.stmts p))
    (hs : I.inside w s.scope) (hh : I.heap w s.heap) : I.Holds w (.ofProgram depth s p) :=
  ⟨⟨hs, true, hp, I.null⟩, hh⟩

/-- What a run that starts within the invariant comes to starts within it, too. -/
theorem Holds.part (henter : I.Enters) {q r : Run} (h : Run.Part q r) (hr : I.Holds w r) :
    ∃ w', w ≤ w' ∧ I.Holds w' q := by
  have hcall := henter.calls r.depth
  obtain ⟨ha, hh⟩ := hr
  cases h with
  -- Parts that come first.
  | operand | left | ifCondition | elseCondition | callee | firstExpr | defined | returned
  | alone =>
    obtain ⟨hs, _, hφ⟩ := ha
    exact ⟨w, le_rfl, ⟨hs, _, I.part hφ (by constructor)⟩, hh⟩
  | firstStmt =>
    obtain ⟨hs, _, hφ, -⟩ := ha
    exact ⟨w, le_rfl, ⟨hs, _, I.part hφ .firstStmt⟩, hh⟩
  -- Parts that come after others.
  | right hl =>
    obtain ⟨hs, _, hφ⟩ := ha
    obtain ⟨w', hw, hs, hk, -⟩ := I.eval_done hcall (I.part hφ .left) hs hh hl
    exact ⟨w', hw, ⟨hs, _, I.part hφ .right⟩, hk⟩
  | ifBody hc =>
    obtain ⟨hs, _, hφ⟩ := ha
    obtain ⟨w', hw, hs, hk, -⟩ := I.eval_done hcall (I.part hφ .ifCondition) hs hh hc
    exact ⟨w', hw, ⟨hs, _, I.part hφ .ifBody, I.null⟩, hk⟩
  | elseBody hc =>
    obtain ⟨hs, _, hφ⟩ := ha
    obtain ⟨w', hw, hs, hk, -⟩ := I.eval_done hcall (I.part hφ .elseCondition) hs hh hc
    exact ⟨w', hw, ⟨hs, _, I.part hφ .elseBody, I.null⟩, hk⟩
  | elseOther hc =>
    obtain ⟨hs, _, hφ⟩ := ha
    obtain ⟨w', hw, hs, hk, -⟩ := I.eval_done hcall (I.part hφ .elseCondition) hs hh hc
    exact ⟨w', hw, ⟨hs, _, I.part hφ .elseOther, I.null⟩, hk⟩
  | arguments hf =>
    obtain ⟨hs, _, hφ⟩ := ha
    obtain ⟨w', hw, hs, hk, -⟩ := I.eval_done hcall (I.part hφ .callee) hs hh hf
    exact ⟨w', hw, ⟨hs, _, I.part hφ .arguments⟩, hk⟩
  | call hf has =>
    obtain ⟨hs, _, hφ⟩ := ha
    obtain ⟨w₁, h₁, hs, hk, hc⟩ := I.eval_done hcall (I.part hφ .callee) hs hh hf
    obtain ⟨w₂, h₂, hl, hargs⟩ := (I.evalEach hcall _ _ (I.part hφ .arguments) hs hk).of_done has
    exact ⟨w₂, h₁.trans h₂, ⟨I.value_mono h₂ hc, hargs⟩, hl⟩
  | nextExprs he =>
    obtain ⟨hs, _, hφ⟩ := ha
    obtain ⟨w', hw, hs, hk, -⟩ := I.eval_done hcall (I.part hφ .firstExpr) hs hh he
    exact ⟨w', hw, ⟨hs, _, I.part hφ .nextExprs⟩, hk⟩
  | nextStmts hst =>
    obtain ⟨hs, _, hφ, -⟩ := ha
    obtain ⟨w', hw, hk, hv⟩ := (I.exec hcall _ _ (I.part hφ .firstStmt) hs hh).of_done hst
    exact ⟨w', hw, ⟨I.inside_mono hw hs, _, I.part hφ .nextStmts, hv⟩, hk⟩
  | body =>
    obtain ⟨hbody, w', hw, hs, hk⟩ := henter hh ha.1 ha.2
    exact ⟨w', hw, ⟨hs, _, hbody, I.null⟩, hk⟩

theorem Holds.within (henter : I.Enters) {q r : Run} (h : Run.Within q r) (hr : I.Holds w r) :
    ∃ w', w ≤ w' ∧ I.Holds w' q := by
  refine h.induct (P := fun q => ∃ w', w ≤ w' ∧ I.Holds w' q) ?_ ⟨w, le_rfl, hr⟩
  rintro q r hp ⟨w₁, h₁, hr⟩
  obtain ⟨w₂, h₂, hq⟩ := hr.part henter hp
  exact ⟨w₂, h₁.trans h₂, hq⟩

/-- A run that starts within the invariant keeps it. -/
theorem Holds.outcome (henter : I.Enters) {r : Run} (hr : I.Holds w r) :
    r.outcome.EndsBeyond (· ≤ ·) I.heap w fun w vs => ∀ v ∈ vs, ∃ leaving, I.value leaving w v := by
  obtain ⟨depth, activity, h⟩ := r
  obtain ⟨ha, hh⟩ := hr
  have hcall := henter.calls depth
  have hone {leaving : Bool} {w : W} {v : Value} (hv : I.value leaving w v) :
      ∀ u ∈ [v], ∃ leaving, I.value leaving w u := by
    intro u hu
    obtain rfl := List.mem_singleton.mp hu
    exact ⟨leaving, hv⟩
  cases activity with
  | expr scope e =>
    obtain ⟨hs, _, hφ⟩ := ha
    exact (I.eval hcall e _ hφ hs hh).map fun _ _ _ => hone
  | exprs scope es =>
    obtain ⟨hs, _, hφ⟩ := ha
    exact (I.evalEach hcall es _ hφ hs hh).imp fun _ _ hvs v hv => ⟨false, hvs v hv⟩
  | stmt scope s =>
    obtain ⟨hs, _, hφ⟩ := ha
    exact (I.exec hcall s _ hφ hs hh).map fun _ _ _ => hone
  | stmts scope ss last =>
    obtain ⟨hs, _, hφ, hl⟩ := ha
    exact (I.execEach hcall ss _ hφ hl hs hh).map fun _ _ _ => hone
  | call c args => exact (hcall hh ha.1 ha.2).map fun _ _ _ => hone

end Invariant
end MonkeyLang
