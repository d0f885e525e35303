import MonkeyLang.Proofs.Evaluation.Extent
import MonkeyLang.Proofs.Evaluation.Part
import MonkeyLang.Proofs.Scope.Correspondence

/-! Evaluation depends only on the frames that can be reached from its scope, and not on which
places and identities frames and functions have. -/
namespace MonkeyLang

/-- Two outcomes in heaps that mirror each other on the pairs of `d` and new ones, with results that
`P` relates. -/
abbrev Outcome.Mirrored {α β : Type} (c d : Correspondence)
    (P : Correspondence → α → β → Prop) : Outcome α → Outcome β → Prop :=
  RelBeyond (· ≤ ·) (Heap.Mirrors c) d P

/-- Corresponding functions give corresponding outcomes for corresponding arguments. -/
def Call.Mirrors (call : Call) (c : Correspondence) : Prop :=
  ∀ {d : Correspondence} {f g : Closure} {args args' : List Value} {h k : Heap},
    Heap.Mirrors c d h k → f.Corresponds d g →
    List.Forall₂ (Value.Corresponds d) args args' →
    Outcome.Mirrored c d Value.Corresponds (call f args h) (call g args' k)

section Evaluation
variable {call : Call} {c d : Correspondence} {scope scope' : FrameId} {h k : Heap}

theorem Call.Mirrors.check (hcall : call.Mirrors c) {callee callee' : Value}
    {args args' : List Value} (hm : h.Mirrors c d k) (hf : callee.Corresponds d callee')
    (hargs : List.Forall₂ (Value.Corresponds d) args args') :
    Outcome.Mirrored c d Value.Corresponds (call.check callee args h)
      (call.check callee' args' k) := by
  cases hf with
  | function hf =>
    rw [Call.check, Call.check, Closure.arity, Closure.arity, hf.parameters, ← hargs.length_eq]
    split
    · exact hcall hm hf hargs
    · exact .failed _ hm
  | _ => exact .failed _ hm

mutual
theorem Expr.mirrored_eval (hcall : call.Mirrors c) : (e : Expr) → ∀ {d h k},
    d.frame scope scope' → Heap.Mirrors c d h k →
    Outcome.Mirrored c d Value.Corresponds (e.eval call scope h) (e.eval call scope' k)
  | .name x, d, h, k, hs, hm => by
    have hv := hm.get? hs x
    rw [Expr.eval, Expr.eval]
    generalize h.get? scope x = v, k.get? scope' x = v' at hv ⊢
    cases hv with
    | some hv => exact .done hm hv
    | none => exact .failed (.unbound x) hm
  | .int n, _, _, _, _, hm => .done hm (.int n)
  | .bool b, _, _, _, _, hm => .done hm (.bool b)
  | .unary op e, _, _, _, hs, hm => by
    refine (e.mirrored_eval hcall hs hm).andThen ?_
    intro d _ v v' h k hv hm
    rw [hv.unary_apply_eq]
    exact .lift hm fun _ hu => .of_isScalar (op.isScalar_of_apply hu)
  | .binary l op r, _, _, _, hs, hm => by
    refine (l.mirrored_eval hcall hs hm).andThen ?_
    intro d₁ hd₁ v v' h k hv hm
    refine (r.mirrored_eval hcall (hd₁.1 _ _ hs) hm).andThen ?_
    intro d₂ hd₂ u u' h k hu hm
    rw [(hv.mono hd₂).binary_apply_eq hm.id_iff hu]
    exact .lift hm fun _ hw => .of_isScalar (op.isScalar_of_apply hw)
  | .ifThen e body, _, _, _, hs, hm => by
    refine (e.mirrored_eval hcall hs hm).andThen ?_
    intro d hd v v' h k hv hm
    rw [hv.truthy_eq]
    split
    · exact Stmt.mirrored_execEach hcall body .null (hd.1 _ _ hs) hm
    · exact .done hm .null
  | .ifElse e body other, _, _, _, hs, hm => by
    refine (e.mirrored_eval hcall hs hm).andThen ?_
    intro d hd v v' h k hv hm
    rw [hv.truthy_eq]
    split
    · exact Stmt.mirrored_execEach hcall body .null (hd.1 _ _ hs) hm
    · exact Stmt.mirrored_execEach hcall other .null (hd.1 _ _ hs) hm
  | .function xs body, d, h, k, hs, hm => by
    obtain ⟨hm, hf⟩ := hm.newClosure hs xs body
    exact Outcome.RelBeyond.extend (d.le_withClosure _ _) (.done hm (.function hf))
  | .call f as, _, _, _, hs, hm => by
    refine (f.mirrored_eval hcall hs hm).andThen ?_
    intro d₁ hd₁ callee callee' h k hf hm
    refine (Expr.mirrored_evalEach hcall as (hd₁.1 _ _ hs) hm).andThen ?_
    intro d₂ hd₂ args args' h k hargs hm
    exact hcall.check hm (hf.mono hd₂) hargs

theorem Stmt.mirrored_exec (hcall : call.Mirrors c) : (s : Stmt) → ∀ {d h k},
    d.frame scope scope' → Heap.Mirrors c d h k →
    Outcome.Mirrored c d Value.Corresponds (s.exec call scope h) (s.exec call scope' k)
  | .define x e, _, _, _, hs, hm => by
    refine (e.mirrored_eval hcall hs hm).andThen ?_
    intro d hd v v' h k hv hm
    exact .done (hm.set (hd.1 _ _ hs) x hv) .null
  | .ret e, _, _, _, hs, hm => (e.mirrored_eval hcall hs hm).map fun _ _ _ _ hv => .returned hv
  | .retBare, _, _, _, _, hm => .done hm (.returned .null)
  | .expr e, _, _, _, hs, hm => e.mirrored_eval hcall hs hm

theorem Expr.mirrored_evalEach (hcall : call.Mirrors c) : (es : List Expr) → ∀ {d h k},
    d.frame scope scope' → Heap.Mirrors c d h k →
    Outcome.Mirrored c d (fun d => List.Forall₂ (Value.Corresponds d))
      (Expr.evalEach call scope es h) (Expr.evalEach call scope' es k)
  | [], _, _, _, _, hm => .done hm .nil
  | e :: es, _, _, _, hs, hm => by
    refine (e.mirrored_eval hcall hs hm).andThen ?_
    intro d₁ hd₁ v v' h k hv hm
    refine (Expr.mirrored_evalEach hcall es (hd₁.1 _ _ hs) hm).map ?_
    intro d₂ hd₂ vs vs' hvs
    exact .cons (hv.mono hd₂) hvs

theorem Stmt.mirrored_execEach (hcall : call.Mirrors c) : (ss : List Stmt) → ∀ {last last' d h k},
    last.Corresponds d last' → d.frame scope scope' → Heap.Mirrors c d h k →
    Outcome.Mirrored c d Value.Corresponds (Stmt.execEach call scope ss last h)
      (Stmt.execEach call scope' ss last' k)
  | [], _, _, _, _, _, hl, _, hm => .done hm hl
  | s :: ss, _, _, _, _, _, _, hs, hm => by
    refine (s.mirrored_exec hcall hs hm).andThen ?_
    intro d hd v v' h k hv hm
    rw [hv.isReturned_eq]
    split
    · exact .done hm hv
    · exact Stmt.mirrored_execEach hcall ss hv (hd.1 _ _ hs) hm
end

theorem Stmt.mirrored_runBody (hcall : call.Mirrors c) (body : List Stmt)
    (hs : d.frame scope scope') (hm : Heap.Mirrors c d h k) :
    Outcome.Mirrored c d Value.Corresponds (Stmt.runBody call scope body h)
      (Stmt.runBody call scope' body k) :=
  (Stmt.mirrored_execEach hcall body .null hs hm).map fun _ _ _ _ hv => hv.arrive

end Evaluation

theorem Closure.mirrors_call (c : Correspondence) (depth : Nat) :
    (Closure.call depth).Mirrors c := by
  induction depth with
  | zero => exact fun _ _ _ => .exhausted
  | succ depth ih =>
    intro d f g args args' h k hm hfg hargs
    rw [Closure.call, Closure.call, hfg.body]
    have hbody := Stmt.mirrored_runBody ih f.body (d.withFrame_self _ _) (hm.enter hfg hargs)
    exact hbody.extend (d.le_withFrame _ _)

/-- Two outcomes of evaluations in paired frames that agreed on what could be reached from
`scope`. They are of one kind, equal but for functions, and an extension of the correspondence pairs
these and agrees on what can be reached now from the frame and from the result. -/
def Outcome.Corresponds (c : Correspondence) (scope : FrameId) :
    Outcome Value → Outcome Value → Prop :=
  Rel (fun v h w k => ∃ d, c ≤ d ∧ d.AgreesFrom (insert scope v.homes) h k ∧ v.Corresponds d w)
    fun h k => ∃ d, c ≤ d ∧ d.AgreesFrom {scope} h k

/-- The same for programs, whose sessions go on in the frames in which they were. -/
def Session.Corresponds (c : Correspondence) (scope scope' : FrameId) (a b : Value × Session) :
    Prop :=
  a.2.scope = scope ∧ b.2.scope = scope' ∧
    ∃ d, c ≤ d ∧ d.AgreesFrom (insert scope a.1.homes) a.2.heap b.2.heap ∧ a.1.Corresponds d b.1

section Correspondence
variable {c d : Correspondence} {scope scope' : FrameId} {h k : Heap}

theorem Outcome.RelBeyond.corresponds {o o' : Outcome Value} (hs : d.frame scope scope')
    (ho : Outcome.Mirrored c d Value.Corresponds o o') : o.Corresponds c scope o' := by
  refine ho.mono ?_ ?_
  · intro v h w k ⟨e, he, hm, hvw⟩
    refine ⟨c.union e, c.le_union_left e, hm.agreesFrom ?_, hvw.mono (c.le_union_right e)⟩
    rintro r (rfl | hr)
    · exact ⟨scope', he.1 _ _ hs⟩
    · obtain ⟨b, -, hrb⟩ := hvw.exists_frame hr
      exact ⟨b, hrb⟩
  · intro h k ⟨e, he, hm⟩
    refine ⟨c.union e, c.le_union_left e, hm.agreesFrom ?_⟩
    rintro r rfl
    exact ⟨scope', he.1 _ _ hs⟩

namespace Correspondence.AgreesFrom
variable (hc : c.AgreesFrom {scope} h k) (hs : c.frame scope scope')
include hc hs

theorem corresponds_eval (depth : Nat) (e : Expr) :
    (e.eval (Closure.call depth) scope h).Corresponds c scope
      (e.eval (Closure.call depth) scope' k) := by
  have hs := frame_reached (h := h) (Set.mem_singleton scope) hs
  exact (e.mirrored_eval (Closure.mirrors_call c depth) hs hc.mirrors).corresponds hs

theorem corresponds_runBody (depth : Nat) (p : Program) :
    (Stmt.runBody (Closure.call depth) scope p h).Corresponds c scope
      (Stmt.runBody (Closure.call depth) scope' p k) := by
  have hs := frame_reached (h := h) (Set.mem_singleton scope) hs
  exact (Stmt.mirrored_runBody (Closure.mirrors_call c depth) p hs hc.mirrors).corresponds hs

theorem corresponds_run? (depth : Nat) (p : Program) :
    Option.Rel (Session.Corresponds c scope scope') (Session.run? depth ⟨h, scope⟩ p)
      (Session.run? depth ⟨k, scope'⟩ p) := by
  have ho := hc.corresponds_runBody hs depth p
  rw [Session.run?, Session.run?]
  generalize Stmt.runBody (Closure.call depth) scope p h = o,
    Stmt.runBody (Closure.call depth) scope' p k = o' at ho ⊢
  cases ho with
  | done hd => exact .some ⟨rfl, rfl, hd⟩
  | failed e hd =>
    obtain ⟨d, hcd, hd⟩ := hd
    have hroots : insert scope (Value.error e).homes = {scope} := by simp [Value.homes, Value.closure?]
    exact .some ⟨rfl, rfl, d, hcd, hroots ▸ hd, .error e⟩
  | exhausted => exact .none

end Correspondence.AgreesFrom
end Correspondence

theorem Outcome.Corresponds.heap?_isSome {c : Correspondence} {scope : FrameId}
    {o o' : Outcome Value} (h : o.Corresponds c scope o') : o.heap?.isSome = o'.heap?.isSome := by
  cases h <;> rfl

namespace Session

/-- Every session is its own counterpart. -/
theorem Reached.exists_agreesFrom {P : Program → Prop} {s : Session} (hs : s.Reached P) :
    ∃ c : Correspondence, c.AgreesFrom {s.scope} s.heap s.heap ∧ c.frame s.scope s.scope := by
  induction hs with
  | start =>
    refine ⟨.same Session.start.heap, .same le_rfl le_rfl (fun _ _ hf => hf) ?_,
      rfl, Nat.zero_lt_one⟩
    intro r _ a _ x u hu
    exact ((Heap.All.first fun _ => False).local? hu).elim
  | @next s t p depth v _ _ hr ih =>
    obtain ⟨c, hc, hscope⟩ := ih
    have hrel := hc.corresponds_run? hscope depth p
    rw [hr] at hrel
    cases hrel with
    | some ht =>
      obtain ⟨ht, -, d, hcd, hd, -⟩ := ht
      rw [ht]
      exact ⟨d, ⟨hd.between, fun r hr => hd.agrees r (.inl hr)⟩, hcd.1 _ _ hscope⟩

/-- The heap of a session holds the values of its programs. -/
theorem Reached.holds {P : Program → Prop} {s t : Session} {depth : Nat} {p : Program} {v : Value}
    (hs : s.Reached P) (h : s.run? depth p = some (v, t)) : t.heap.Holds v := by
  obtain ⟨c, hc, hscope⟩ := hs.exists_agreesFrom
  have hrel := hc.corresponds_run? hscope depth p
  rw [h] at hrel
  cases hrel with
  | some ht =>
    obtain ⟨-, -, d, -, hd, hv⟩ := ht
    exact hd.holds hv (Set.subset_insert _ _)

end Session

/-- A call leaves every frame as it was, also when the number of arguments is wrong. -/
theorem Call.Keeps.check_function {call : Call} (hcall : call.Keeps) (f : Closure)
    (args : List Value) (heap : Heap) :
    (call.check (.function f) args heap).Ends (fun _ => heap.Keeps) heap.Keeps := by
  rw [Call.check]
  split
  · exact hcall f args heap
  · exact fun _ _ hg => hg

/-- A function that has been called gives the same again in the heap after the call, up to the
identities of new frames and functions. -/
theorem Closure.mirrored_again {depth : Nat} {f : Closure} {args : List Value} {h h' : Heap}
    (hheld : ∀ v ∈ Value.function f :: args, h.Holds v)
    (hfirst : ((call depth).check (.function f) args h).heap? = some h') :
    ∃ d : Correspondence, Outcome.Mirrored (.same h) d Value.Corresponds
      ((call depth).check (.function f) args h) ((call depth).check (.function f) args h') := by
  let roots : Set FrameId := {r | ∃ v ∈ Value.function f :: args, r ∈ v.homes}
  have hmade : ∀ r ∈ roots, ∀ a, h.Reaches r a → ∀ x u, h.local? a x = some u → u.MadeIn h := by
    rintro r ⟨v, hv, hr⟩
    exact (hheld v hv).2 r hr
  have hself (v : Value) (hv : v ∈ Value.function f :: args) :
      v.Corresponds ((Correspondence.same h).reached h roots) v :=
    Correspondence.corresponds_reached (fun r hr => ⟨v, hv, hr⟩) (hheld v hv).1.corresponds
  obtain ⟨hf, hargs⟩ := List.forall_mem_cons.mp hself
  have hcall : (call depth).Mirrors (.same h) := mirrors_call (.same h) depth
  -- Next to itself the call shows that the heap has only grown.
  have hgrown : h.frames.size ≤ h'.frames.size ∧ h.closures ≤ h'.closures := by
    have hsame : (Correspondence.same h).AgreesFrom roots h h :=
      .same le_rfl le_rfl (fun _ _ hg => hg) hmade
    obtain ⟨d, k, -, hm⟩ :=
      (hcall.check hsame.mirrors hf (List.forall₂_same.mpr hargs)).exists_world hfirst
    exact hm.between.le_of_same_le (Correspondence.le_union_left _ d)
  have hkeep : h.Keeps h' := ((keeps_call depth).check_function f args h).of_heap? hfirst
  have hc : (Correspondence.same h).AgreesFrom roots h h' :=
    .same hgrown.1 hgrown.2 hkeep hmade
  exact ⟨_, hcall.check hc.mirrors hf (List.forall₂_same.mpr hargs)⟩

/-- Evaluation depends only on what can be reached from its scope. In paired frames of heaps that
agree on what can be reached from them, an expression and a program have corresponding outcomes, and
end if and only if they end in the other heap. So a function called again on the same arguments, in
the heap after the first call and from any frame, gives the same value or error, a new function
apart, which differs in its identity and home; and every value of a program can be called so. -/
theorem evaluation_of_correspondence :
    (∀ (c : Correspondence) (h k : Heap) (scope scope' : FrameId),
      c.AgreesFrom {scope} h k → c.frame scope scope' →
      (∀ depth (e : Expr), (e.eval (Closure.call depth) scope h).Corresponds c scope
        (e.eval (Closure.call depth) scope' k)) ∧
      (∀ e : Expr, (∃ depth, (e.eval (Closure.call depth) scope h).heap?.isSome) ↔
        ∃ depth, (e.eval (Closure.call depth) scope' k).heap?.isSome) ∧
      (∀ depth p, Option.Rel (Session.Corresponds c scope scope')
        (Session.run? depth ⟨h, scope⟩ p) (Session.run? depth ⟨k, scope'⟩ p)) ∧
      ∀ p, (∃ depth, (Session.run? depth ⟨h, scope⟩ p).isSome) ↔
        ∃ depth, (Session.run? depth ⟨k, scope'⟩ p).isSome) ∧
    (∀ (f : Closure) (args : List Value) (s s' : FrameId) (h : Heap) (depth : Nat),
      (∀ v ∈ Value.function f :: args, h.Holds v) →
      (∀ v t, Session.apply (Closure.turn depth) (.function f) args ⟨h, s⟩ = .done v t →
        ∃ w u d, Session.apply (Closure.turn depth) (.function f) args ⟨t.heap, s'⟩ = .done w u ∧
          Correspondence.same h ≤ d ∧ d.Between t.heap u.heap ∧ v.Corresponds d w) ∧
      ∀ e t, Session.apply (Closure.turn depth) (.function f) args ⟨h, s⟩ = .failed e t →
        ∃ u, Session.apply (Closure.turn depth) (.function f) args ⟨t.heap, s'⟩ = .failed e u) ∧
    ∀ (P : Program → Prop) (s t : Session) (depth : Nat) (p : Program) (v : Value),
      s.Reached P → s.run? depth p = some (v, t) → t.heap.Holds v := by
  refine ⟨?_, ?_, fun P s t depth p v => Session.Reached.holds⟩
  · intro c h k scope scope' hc hs
    refine ⟨hc.corresponds_eval hs, ?_, hc.corresponds_run? hs, ?_⟩
    · intro e
      refine exists_congr fun depth => ?_
      rw [(hc.corresponds_eval hs depth e).heap?_isSome]
    · intro p
      refine exists_congr fun depth => ?_
      rw [isSome_eq_of_rel (hc.corresponds_run? hs depth p)]
  · intro f args s s' h depth hheld
    have happly (scope : FrameId) (k : Heap) :
        Session.apply (Closure.turn depth) (.function f) args ⟨k, scope⟩ =
          ((Closure.call depth).check (.function f) args k).inScope scope :=
      Session.apply_eq (Closure.turn_eq depth) (.function f) args k scope
    have hagain (k : Heap)
        (hk : ((Closure.call depth).check (.function f) args h).heap? = some k) :=
      Closure.mirrored_again hheld hk
    simp only [happly, Outcome.inScope_eq_done, Outcome.inScope_eq_failed]
    constructor
    · rintro v t ⟨k, hfirst, rfl⟩
      obtain ⟨d, hd⟩ := hagain k (by rw [hfirst]; rfl)
      rw [hfirst] at hd
      obtain ⟨w, l, hsecond, e, -, hm, hvw⟩ := Outcome.Rel.exists_done hd
      exact ⟨w, ⟨l, s'⟩, _, ⟨l, hsecond, rfl⟩, Correspondence.le_union_left _ e, hm.between,
        hvw.mono (Correspondence.le_union_right _ e)⟩
    · rintro e t ⟨k, hfirst, rfl⟩
      obtain ⟨d, hd⟩ := hagain k (by rw [hfirst]; rfl)
      rw [hfirst] at hd
      obtain ⟨l, hsecond, -⟩ := Outcome.Rel.exists_failed hd
      exact ⟨⟨l, s'⟩, l, hsecond, rfl⟩

/-- Gives a new function that gives the argument. -/
def delaying (id : Nat) (home : FrameId) : Closure :=
  ⟨id, ["a"], [.expr (.function [] [.expr (.name "a")])], home⟩

/-- A heap of one frame, in which only `delay` is bound. -/
def heapOfDelay : Heap := ⟨#[⟨[("delay", .function (delaying 0 0))], none⟩], 1⟩

/-- A heap with one more frame, which is not seen from the other, and after more functions. -/
def heapBehind : Heap :=
  ⟨#[⟨[("x", .bool true)], none⟩, ⟨[("delay", .function (delaying 3 1))], none⟩], 5⟩

/-- The pairs of the frames in which `delay` is bound, and of what it is bound to. -/
def behind : Correspondence := ⟨fun a b => a = 0 ∧ b = 1, fun i j => i = 0 ∧ j = 3⟩

theorem behind_agreesFrom : behind.AgreesFrom {0} heapOfDelay heapBehind := by
  refine ⟨⟨⟨?_, ?_, ?_⟩, ⟨?_, ?_, ?_⟩⟩, ?_⟩
  · rintro a b ⟨rfl, rfl⟩
    decide
  · rintro a a' b ⟨rfl, -⟩ ⟨rfl, -⟩
    rfl
  · rintro a b b' ⟨-, rfl⟩ ⟨-, rfl⟩
    rfl
  · rintro a b ⟨rfl, rfl⟩
    decide
  · rintro a a' b ⟨rfl, -⟩ ⟨rfl, -⟩
    rfl
  · rintro a b b' ⟨-, rfl⟩ ⟨-, rfl⟩
    rfl
  · rintro r - a b - ⟨rfl, rfl⟩
    refine ⟨?_, .none⟩
    intro x
    by_cases hx : x = "delay"
    · subst hx
      exact .some (.function ⟨⟨rfl, rfl⟩, ⟨rfl, rfl⟩, rfl, rfl⟩)
    · have hx' : (x == "delay") = false := by simpa using hx
      simp [Heap.local?, Frame.get?, heapOfDelay, heapBehind, List.lookup_cons, hx']

/-- Delays one. -/
def delayedOne : Expr := .call (.name "delay") [.int 1]

theorem evaluation_of_correspondence_delayedOne :
    behind.AgreesFrom {0} heapOfDelay heapBehind ∧ behind.frame 0 1 ∧
    (∃ h k b d, delayedOne.eval (Closure.call 1) 0 heapOfDelay = .done (.function ⟨1, [], b, 1⟩) h ∧
      delayedOne.eval (Closure.call 1) 1 heapBehind = .done (.function ⟨5, [], b, 2⟩) k ∧
      behind ≤ d ∧ d.closure 1 5 ∧ d.frame 1 2) ∧
    (Session.run? 2 ⟨heapOfDelay, 0⟩ [.expr (.call delayedOne [])]).map Prod.fst = some (.int 1) ∧
    (∃ depth, (Session.run? depth ⟨heapBehind, 1⟩ [.expr (.call delayedOne [])]).isSome) ∧
    Session.run? 0 .start [.define "delay" (delaying 0 0).literal, .expr (.name "delay")] =
      some (.function (delaying 0 0), ⟨heapOfDelay, 0⟩) ∧
    (∀ v ∈ [Value.function (delaying 0 0), .int 1], heapOfDelay.Holds v) ∧
    ∃ v t w u d, Session.apply (Closure.turn 1) (.function (delaying 0 0)) [.int 1] ⟨heapOfDelay, 0⟩ =
        .done v t ∧
      Session.apply (Closure.turn 1) (.function (delaying 0 0)) [.int 1] ⟨t.heap, 1⟩ = .done w u ∧
      v.Corresponds d w := by
  obtain ⟨hpaired, hagain, hholds⟩ := evaluation_of_correspondence
  obtain ⟨heval, -, -, hends⟩ := hpaired behind _ _ 0 1 behind_agreesFrom ⟨rfl, rfl⟩
  have hrun : (Session.run? 2 ⟨heapOfDelay, 0⟩ [.expr (.call delayedOne [])]).map Prod.fst =
      some (.int 1) := by with_unfolding_all rfl
  have hdelay : Session.run? 0 .start
      [.define "delay" (delaying 0 0).literal, .expr (.name "delay")] =
      some (.function (delaying 0 0), ⟨heapOfDelay, 0⟩) := by with_unfolding_all rfl
  have hheld : ∀ v ∈ [Value.function (delaying 0 0), .int 1], heapOfDelay.Holds v := by
    intro v hv
    obtain rfl | hv := List.mem_cons.mp hv
    · exact hholds _ _ _ 0 _ _ (.start (P := fun _ => True)) hdelay
    · obtain rfl := List.mem_singleton.mp hv
      exact ⟨nofun, by simp [Value.homes, Value.closure?]⟩
  refine ⟨behind_agreesFrom, ⟨rfl, rfl⟩, ?_, hrun, ?_, hdelay, hheld, ?_⟩
  · have he := heval 1 delayedOne
    have hh : ∃ h, delayedOne.eval (Closure.call 1) 0 heapOfDelay =
        .done (.function ⟨1, [], [.expr (.name "a")], 1⟩) h := ⟨_, by with_unfolding_all rfl⟩
    have hk : ∃ k, delayedOne.eval (Closure.call 1) 1 heapBehind =
        .done (.function ⟨5, [], [.expr (.name "a")], 2⟩) k := ⟨_, by with_unfolding_all rfl⟩
    obtain ⟨h, hh⟩ := hh
    obtain ⟨k, hk⟩ := hk
    rw [hh, hk] at he
    cases he with
    | done hd =>
      obtain ⟨d, hle, -, hfg⟩ := hd
      cases hfg with
      | function hfg => exact ⟨h, k, _, d, hh, hk, hle, hfg.id, hfg.home⟩
  · refine (hends _).mp ⟨2, ?_⟩
    rw [← Option.isSome_map, hrun]
    rfl
  · have hfirst : ∃ v t, Session.apply (Closure.turn 1) (.function (delaying 0 0)) [.int 1]
        ⟨heapOfDelay, 0⟩ = .done v t := ⟨_, _, by with_unfolding_all rfl⟩
    obtain ⟨v, t, hfirst⟩ := hfirst
    obtain ⟨w, u, d, hsecond, -, -, hvw⟩ := (hagain _ _ 0 1 _ 1 hheld).1 v t hfirst
    exact ⟨v, t, w, u, d, hfirst, hsecond, hvw⟩

end MonkeyLang
