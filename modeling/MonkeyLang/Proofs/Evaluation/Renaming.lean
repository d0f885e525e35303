import Mathlib.Data.List.Infix
import MonkeyLang.Proofs.Evaluation.Part
import MonkeyLang.Proofs.Scope.Renaming

/-! Lexical scope: a parameter of a function literal can be renamed in the literal, and programs
with it give the same. -/
namespace MonkeyLang

/-- Two outcomes in heaps that differ by the renaming, with results that `P` relates. The frames of
`w` keep their sides, and others may have been added. -/
def Outcome.Renamed {α β : Type} (r : Rebinding) (w : List Side) (P : List Side → α → β → Prop) :
    Outcome α → Outcome β → Prop :=
  Rel (fun a h b k => ∃ w', w <+: w' ∧ Heap.Renamed r w' h k ∧ P w' a b)
    fun h k => ∃ w', w <+: w' ∧ Heap.Renamed r w' h k

namespace Outcome.Renamed
variable {α β γ δ : Type} {r : Rebinding} {w w₀ : List Side} {h k : Heap} {o : Outcome α}
  {o' : Outcome β} {P : List Side → α → β → Prop} {Q : List Side → γ → δ → Prop}

theorem iff_relBeyond :
    Renamed r w P o o' ↔ RelBeyond List.IsPrefix (Heap.Renamed r) w P o o' := Iff.rfl

theorem done {a : α} {b : β} (hh : Heap.Renamed r w h k) (hab : P w a b) :
    Renamed r w P (.done a h) (.done b k) :=
  iff_relBeyond.mpr (.done hh hab)

theorem failed (e : EvalError) (hh : Heap.Renamed r w h k) :
    Renamed r w P (.failed e h) (.failed e k) :=
  iff_relBeyond.mpr (.failed e hh)

theorem extend (hw : w₀ <+: w) (ho : Renamed r w P o o') : Renamed r w₀ P o o' :=
  (iff_relBeyond.mp ho).extend hw

theorem andThen {f : α → Heap → Outcome γ} {g : β → Heap → Outcome δ} (ho : Renamed r w P o o')
    (hfg : ∀ w', w <+: w' → ∀ a b h k, P w' a b → Heap.Renamed r w' h k →
      Renamed r w' Q (f a h) (g b k)) :
    Renamed r w Q (o.andThen f) (o'.andThen g) :=
  (iff_relBeyond.mp ho).andThen hfg

theorem map {f : α → γ} {g : β → δ} (ho : Renamed r w P o o')
    (hfg : ∀ w', w <+: w' → ∀ a b, P w' a b → Q w' (f a) (g b)) :
    Renamed r w Q (o.map f) (o'.map g) :=
  (iff_relBeyond.mp ho).map hfg

theorem lift {res : Except EvalError Value} (hh : Heap.Renamed r w h k)
    (hres : ∀ v, res = .ok v → v.IsScalar) :
    Renamed r w (Value.Renamed r) (.lift res h) (.lift res k) :=
  iff_relBeyond.mpr (.lift hh fun v hv => .of_isScalar (hres v hv))

end Outcome.Renamed

/-- Related closures give related outcomes for related arguments. -/
def Call.Renames (call : Call) (r : Rebinding) : Prop :=
  ∀ {w : List Side} {c d : Closure} {args args' : List Value} {h k : Heap},
    Heap.Renamed r w h k → c.Renamed r w d → List.Forall₂ (Value.Renamed r w) args args' →
    args.length = c.arity →
    Outcome.Renamed r w (Value.Renamed r) (call c args h) (call d args' k)

/-- Two fragments have related outcomes in two heaps. -/
def Fragment.Alike (call : Call) (scope : FrameId) (r : Rebinding) (w : List Side) (h k : Heap) :
    Fragment → Fragment → Prop
  | .expr e, .expr e' =>
    Outcome.Renamed r w (Value.Renamed r) (e.eval call scope h) (e'.eval call scope k)
  | .exprs es, .exprs es' =>
    Outcome.Renamed r w (fun w => List.Forall₂ (Value.Renamed r w))
      (Expr.evalEach call scope es h) (Expr.evalEach call scope es' k)
  | .stmt s, .stmt s' =>
    Outcome.Renamed r w (Value.Renamed r) (s.exec call scope h) (s'.exec call scope k)
  | .stmts ss, .stmts ss' =>
    ∀ last last', last.Renamed r w last' →
      Outcome.Renamed r w (Value.Renamed r) (Stmt.execEach call scope ss last h)
        (Stmt.execEach call scope ss' last' k)
  | _, _ => False

section Evaluation
variable {call : Call} {scope : FrameId} {r : Rebinding} {w : List Side} {side : Side}
  {h k : Heap}

theorem Closure.Renamed.arity_eq {c d : Closure} (hc : c.Renamed r w d) : d.arity = c.arity := by
  obtain ⟨-, -, side, -, hr⟩ := hc
  obtain ⟨inner, -, hps, -, -⟩ := hr.enter
  rw [Closure.arity, hps, List.length_map, Closure.arity]

theorem Call.Renames.check (hcall : call.Renames r) {callee callee' : Value}
    {args args' : List Value} (hh : Heap.Renamed r w h k) (hc : callee.Renamed r w callee')
    (ha : List.Forall₂ (Value.Renamed r w) args args') :
    Outcome.Renamed r w (Value.Renamed r) (call.check callee args h)
      (call.check callee' args' k) := by
  cases hc with
  | function hc =>
    rw [Call.check, Call.check, hc.arity_eq, ← ha.length_eq]
    split
    · rename_i hn
      exact hcall hh hc ha hn
    · exact .failed _ hh
  | _ => exact .failed _ hh

theorem alike_function {zs zs' : List String} {b b' : List Stmt}
    (hr : Renaming r side (.expr (.function zs b)) (.expr (.function zs' b')))
    (hs : w[scope]? = some side) (hh : Heap.Renamed r w h k) :
    Fragment.Alike call scope r w h k (.expr (.function zs b)) (.expr (.function zs' b')) := by
  obtain ⟨hc, hh⟩ := hh.newClosure hs hr
  exact .done hh (.function hc)

theorem alike_name {z : String} (hz : r.Allows side z) (hs : w[scope]? = some side)
    (hh : Heap.Renamed r w h k) :
    Fragment.Alike call scope r w h k (.expr (.name z)) (.expr (.name (r.name side z))) := by
  have hv := hh.get? hs hz
  rw [Fragment.Alike, Expr.eval, Expr.eval]
  generalize hx : h.get? scope z = v, k.get? scope (r.name side z) = v' at hv ⊢
  cases hv with
  | some hv => exact .done hh hv
  | none =>
    rw [hh.name_of_get? hs hx]
    exact .failed (.unbound z) hh

/-- Fragments that differ by the renaming are alike wherever their scope is on their side. -/
theorem Renaming.alike (hcall : call.Renames r) {φ ψ : Fragment} (hr : Renaming r side φ ψ)
    (hs : w[scope]? = some side) (hh : Heap.Renamed r w h k) :
    Fragment.Alike call scope r w h k φ ψ := by
  induction hr generalizing w h k with
  | literal => exact alike_function .literal hs hh
  | name hz => exact alike_name hz hs hh
  | int => exact .done hh (.int _)
  | bool => exact .done hh (.bool _)
  | @unary _ op _ _ _ ih =>
    refine Outcome.Renamed.andThen (ih hs hh) ?_
    intro w' _ v v' h k hv hh
    rw [hv.unary_apply_eq]
    exact .lift hh fun _ => op.isScalar_of_apply
  | @binary _ _ _ op _ _ _ _ iha ihb =>
    refine Outcome.Renamed.andThen (iha hs hh) ?_
    intro w₁ hw₁ v v' h k hv hh
    refine Outcome.Renamed.andThen (ihb (side_mono hw₁ hs) hh) ?_
    intro w₂ hw₂ u u' h k hu hh
    rw [(hv.mono hw₂).binary_apply_eq Closure.Renamed.id_iff hu]
    exact .lift hh fun _ => op.isScalar_of_apply
  | ifThen _ _ ihc ihb =>
    refine Outcome.Renamed.andThen (ihc hs hh) ?_
    intro w' hw v v' h k hv hh
    rw [hv.truthy_eq]
    split
    · exact ihb (side_mono hw hs) hh .null .null .null
    · exact .done hh .null
  | ifElse _ _ _ ihc ihb iho =>
    refine Outcome.Renamed.andThen (ihc hs hh) ?_
    intro w' hw v v' h k hv hh
    rw [hv.truthy_eq]
    split
    · exact ihb (side_mono hw hs) hh .null .null .null
    · exact iho (side_mono hw hs) hh .null .null .null
  | function hzs hl hb _ => exact alike_function (.function hzs hl hb) hs hh
  | call _ _ ihf ihas =>
    refine Outcome.Renamed.andThen (ihf hs hh) ?_
    intro w₁ hw₁ callee callee' h k hc hh
    refine Outcome.Renamed.andThen (ihas (side_mono hw₁ hs) hh) ?_
    intro w₂ hw₂ args args' h k ha hh
    exact hcall.check hh (hc.mono hw₂) ha
  | define hz _ ih =>
    refine Outcome.Renamed.andThen (ih hs hh) ?_
    intro w' hw v v' h k hv hh
    exact .done (hh.set (side_mono hw hs) hz hv) .null
  | ret _ ih => exact Outcome.Renamed.map (ih hs hh) fun _ _ _ _ hv => .returned hv
  | retBare => exact .done hh (.returned .null)
  | alone _ ih => exact ih hs hh
  | noExprs => exact .done hh .nil
  | exprs _ _ ih ihs =>
    refine Outcome.Renamed.andThen (ih hs hh) ?_
    intro w₁ hw₁ v v' h k hv hh
    refine Outcome.Renamed.map (ihs (side_mono hw₁ hs) hh) ?_
    intro w₂ hw₂ vs vs' hvs
    exact .cons (hv.mono hw₂) hvs
  | noStmts =>
    intro last last' hl
    exact .done hh hl
  | stmts _ _ ih ihs =>
    intro _ _ _
    refine Outcome.Renamed.andThen (ih hs hh) ?_
    intro w' hw v v' h k hv hh
    rw [hv.isReturned_eq]
    split
    · exact .done hh hv
    · exact ihs (side_mono hw hs) hh v v' hv

theorem renamed_runBody (hcall : call.Renames r) {b b' : List Stmt}
    (hr : Renaming r side (.stmts b) (.stmts b')) (hs : w[scope]? = some side)
    (hh : Heap.Renamed r w h k) :
    Outcome.Renamed r w (Value.Renamed r) (Stmt.runBody call scope b h)
      (Stmt.runBody call scope b' k) :=
  Outcome.Renamed.map (hr.alike hcall hs hh .null .null .null) fun _ _ _ _ hv => hv.arrive

end Evaluation

theorem Closure.renames_call (r : Rebinding) (depth : Nat) : (Closure.call depth).Renames r := by
  induction depth with
  | zero => exact fun _ _ _ _ => .exhausted
  | succ depth ih =>
    intro w c d args args' h k hh hc ha hn
    obtain ⟨side, hr, hb⟩ := hh.enter hc ha hn
    have hs : (w ++ [side])[h.frames.size]? = some side := by
      rw [hh.size, List.getElem?_concat_length]
    rw [Closure.call, Closure.call, hh.size_eq]
    exact (renamed_runBody ih hr hs hb).extend (List.prefix_append w _)

namespace Session

/-- The scope is a frame of the heap, and so is every frame in which a function was made. -/
structure Linked (s : Session) : Prop where
  scope : s.scope < s.heap.frames.size
  heap : s.heap.Linked

/-- The frames of a heap before a program runs: all of them are outside. -/
abbrev sides (s : Session) : List Side := List.replicate s.heap.frames.size .outside

theorem Linked.side {s : Session} (hs : s.Linked) : s.sides[s.scope]? = some .outside :=
  List.getElem?_replicate_of_lt hs.scope

/-- Two programs that differ by the renaming end alike, or both do not end within the depth. -/
theorem renamed_run? {r : Rebinding} {p q : Program}
    (hpq : Renaming r .outside (.stmts p) (.stmts q)) {s : Session} (hs : s.Linked) (depth : Nat) :
    Option.Rel (fun a b => a.2.scope = s.scope ∧ b.2.scope = s.scope ∧
        ∃ w, s.sides <+: w ∧ Heap.Renamed r w a.2.heap b.2.heap ∧ a.1.Renamed r w b.1)
      (s.run? depth p) (s.run? depth q) := by
  have ho := renamed_runBody (Closure.renames_call r depth) hpq hs.side (.refl hs.heap)
  rw [run?, run?]
  generalize Stmt.runBody (Closure.call depth) s.scope p s.heap = o,
    Stmt.runBody (Closure.call depth) s.scope q s.heap = o' at ho ⊢
  cases ho with
  | done h =>
    obtain ⟨w, hw, hh, hv⟩ := h
    exact .some ⟨rfl, rfl, w, hw, hh, hv⟩
  | failed e h =>
    obtain ⟨w, hw, hh⟩ := h
    exact .some ⟨rfl, rfl, w, hw, hh, .error e⟩
  | exhausted => exact .none

end Session

theorem push_ne (z : String) (c : Char) : z.push c ≠ z := by
  intro h
  have hlen := congrArg String.length h
  simp at hlen

/-- The renaming of a name to a longer one, in a function that does nothing. -/
def Rebinding.ofName (z : String) : Rebinding where
  parameters := [z]
  body := []
  old := z
  new := z.push '_'
  old_mem := List.mem_cons_self
  new_not_mem h := push_ne z '_' (List.mem_singleton.mp h)

theorem Rebinding.allows_ofName (z : String) (side : Side) : (ofName z).Allows side z :=
  fun _ => (push_ne z '_').symm

theorem Value.Renamed.linkedIn {r : Rebinding} {w : List Side} {v v' : Value}
    (h : v.Renamed r w v') : v.LinkedIn w.length := by
  induction h with
  | function hc =>
    obtain ⟨-, -, side, hs, -⟩ := hc
    exact (List.getElem?_eq_some_iff.mp hs).1
  | returned _ ih => exact ih
  | _ => trivial

namespace Session

/-- Programs leave linked sessions linked. -/
theorem Linked.run? {s t : Session} {depth : Nat} {p : Program} {v : Value} (hs : s.Linked)
    (h : s.run? depth p = some (v, t)) : t.Linked := by
  have hself (r : Rebinding) : t.scope = s.scope ∧
      ∃ w, s.sides <+: w ∧ Heap.Renamed r w t.heap t.heap := by
    have hrel := renamed_run? (r := r) (.refl_stmts p) hs depth
    rw [h] at hrel
    cases hrel with
    | some ht =>
      obtain ⟨hscope, -, w, hw, hh, -⟩ := ht
      exact ⟨hscope, w, hw, hh⟩
  constructor
  · obtain ⟨hscope, w, hw, hh⟩ := hself (.ofName "")
    have hlen : s.heap.frames.size ≤ w.length := by simpa using hw.length_le
    rw [hscope, hh.size]
    exact Nat.lt_of_lt_of_le hs.scope hlen
  · -- The renaming is chosen for the name, so that the name may occur on both sides.
    intro id z u hu
    obtain ⟨-, w, -, hh⟩ := hself (.ofName z)
    obtain ⟨f, hf, hu⟩ := Option.bind_eq_some_iff.mp hu
    have hlt : id < w.length := hh.size ▸ Heap.lt_size_of_frames hf
    have hfg := hh.frames id w[id] f f (List.getElem?_eq_getElem hlt) hf hf
    have hb := hfg.bindings z (Rebinding.allows_ofName z _)
    rw [hu] at hb
    generalize f.get? _ = u' at hb
    cases hb with
    | some hb => exact hh.size ▸ Value.Renamed.linkedIn hb

theorem linked_start : start.Linked := by
  refine ⟨Nat.zero_lt_one, ?_⟩
  intro id x v hv
  exact ((Heap.All.first fun _ => False).local? hv).elim

theorem Reached.linked {P : Program → Prop} {s : Session} (hs : s.Reached P) : s.Linked := by
  induction hs with
  | start => exact linked_start
  | next _ _ hr ih => exact ih.run? hr

end Session

/-- Two closures made in one place whose literals differ by the renaming: where the literal stands
in them or, if they stand in the literal, everywhere. -/
def Closure.Twin (r : Rebinding) (c d : Closure) : Prop :=
  d.id = c.id ∧ d.home = c.home ∧
    (Renaming r .outside (.expr c.literal) (.expr d.literal) ∨
      c.literal ∈ r.literal.literals ∧ d.literal = c.literal.rename r.old r.new)

theorem Closure.Renamed.twin {r : Rebinding} {w : List Side} {c d : Closure}
    (h : c.Renamed r w d) : c.Twin r d := by
  obtain ⟨hid, hhome, side, -, hr⟩ := h
  refine ⟨hid, hhome, ?_⟩
  cases side with
  | outside => exact .inl hr
  | inside => exact .inr ⟨hr.mem_literals, Fragment.expr.inj hr.eq_rename⟩

/-- Two results of programs, with the sessions after them: the values agree, and so do all bindings
of the scope, up to renaming the parameter in functions. -/
def Session.Agree (r : Rebinding) (scope : FrameId) (a b : Value × Session) : Prop :=
  Value.Rel (Closure.Twin r) a.1 b.1 ∧ a.2.scope = scope ∧ b.2.scope = scope ∧
    ∀ x, Option.Rel (Value.Rel (Closure.Twin r)) (a.2.heap.local? scope x)
      (b.2.heap.local? scope x)

/-- A parameter can be renamed in its function literal, wherever the literal stands in a program: in
every linked session, as all are that programs lead to, the program ends within a depth of calls if
and only if it did before, and its value and the bindings it leaves agree with those before. -/
theorem Session.run?_renaming (r : Rebinding) {p q : Program}
    (hpq : Renaming r .outside (.stmts p) (.stmts q)) {s : Session} (hs : s.Linked) :
    (∀ depth, Option.Rel (Agree r s.scope) (s.run? depth p) (s.run? depth q)) ∧
      ((∃ depth, (s.run? depth p).isSome) ↔ ∃ depth, (s.run? depth q).isSome) := by
  have htwin {w : List Side} (v v' : Value) (hv : v.Renamed r w v') :
      Value.Rel (Closure.Twin r) v v' :=
    Value.Rel.mono hv fun _ _ => Closure.Renamed.twin
  have hagree (depth : Nat) :
      Option.Rel (Agree r s.scope) (s.run? depth p) (s.run? depth q) := by
    refine rel_mono ?_ (renamed_run? hpq hs depth)
    intro a b hab
    obtain ⟨ha, hb, w, hw, hh, hv⟩ := hab
    refine ⟨htwin _ _ hv, ha, hb, ?_⟩
    intro x
    obtain ⟨f, g, hf, hg, hfg⟩ := hh.frame (side_mono hw hs.side)
    rw [Heap.local?, Heap.local?, hf, hg]
    exact rel_mono htwin (hfg.bindings x (r.allows_outside x))
  refine ⟨hagree, exists_congr ?_⟩
  intro depth
  rw [isSome_eq_of_rel (hagree depth)]

/-- A function that gives functions, and `y` for its parameter `x`. -/
def adder : Rebinding where
  parameters := ["x"]
  body := [.expr (.function ["z"] [.expr (.binary (.name "x") .plus (.name "z"))])]
  old := "x"
  new := "y"
  old_mem := List.mem_cons_self
  new_not_mem := by decide

/-- Binds a function and calls it, and then what it gives. -/
def addition (add : Expr) : Program :=
  [.define "add" add, .expr (.call (.call (.name "add") [.int 1]) [.int 2])]

/-- The session in which `add` is the function already. -/
def sessionWithAdder : Session :=
  ⟨⟨#[⟨[("add", .function ⟨0, adder.parameters, adder.body, 0⟩)], none⟩], 1⟩, 0⟩

theorem Session.run?_renaming_addition :
    Renaming adder .outside (.stmts (addition adder.literal))
      (.stmts (addition (adder.literal.rename "x" "y"))) ∧
    start.Linked ∧
    (start.run? 2 (addition adder.literal)).map Prod.fst = some (.int 3) ∧
    Option.Rel (Agree adder 0) (start.run? 2 (addition adder.literal))
      (start.run? 2 (addition (adder.literal.rename "x" "y"))) ∧
    Reached (fun _ => True) sessionWithAdder ∧
    (sessionWithAdder.run? 2 (addition adder.literal)).map Prod.fst = some (.int 3) ∧
    Option.Rel (Agree adder 0) (sessionWithAdder.run? 2 (addition adder.literal))
      (sessionWithAdder.run? 2 (addition (adder.literal.rename "x" "y"))) := by
  have hr : Renaming adder .outside (.stmts (addition adder.literal))
      (.stmts (addition (adder.literal.rename "x" "y"))) :=
    .stmts (.define (adder.allows_outside "add") .literal) (.stmts (.alone (.refl_expr _)) .noStmts)
  have hdefine : run? 0 .start [.define "add" adder.literal] = some (.null, sessionWithAdder) := by
    with_unfolding_all rfl
  have hs : Reached (fun _ => True) sessionWithAdder := .next .start trivial hdefine
  refine ⟨hr, linked_start, by with_unfolding_all rfl, ?_, hs, by with_unfolding_all rfl, ?_⟩
  · exact (run?_renaming adder hr linked_start).1 2
  · exact (run?_renaming adder hr hs.linked).1 2

end MonkeyLang
