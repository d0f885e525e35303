import Mathlib.Data.List.Forall2
import MonkeyLang.Proofs.Scope.Heap
import MonkeyLang.Proofs.Syntax.Renaming
import MonkeyLang.Proofs.Value.Related

/-! Heaps that differ by a renaming inside one function literal. The frames of calls of the
literal, and the frames inside them, bind names of the inside; all other frames agree. -/
namespace MonkeyLang

/-- Two closures that differ by the renaming, in heaps whose frames are on the sides `w`. -/
structure Closure.Renamed (r : Rebinding) (w : List Side) (c d : Closure) : Prop where
  id : d.id = c.id
  home : d.home = c.home
  literal : ∃ side, w[c.home]? = some side ∧ Renaming r side (.expr c.literal) (.expr d.literal)

/-- Two values that differ by the renaming. -/
abbrev Value.Renamed (r : Rebinding) (w : List Side) : Value → Value → Prop :=
  Value.Rel (Closure.Renamed r w)

section Worlds
variable {r : Rebinding} {w w' : List Side} {side : Side}

theorem side_mono {id : FrameId} (hw : w <+: w') (h : w[id]? = some side) :
    w'[id]? = some side := by
  obtain ⟨v, rfl⟩ := hw
  rw [List.getElem?_append_left (List.getElem?_eq_some_iff.mp h).1, h]

theorem Closure.Renamed.mono {c d : Closure} (hw : w <+: w') (h : c.Renamed r w d) :
    c.Renamed r w' d := by
  obtain ⟨hid, hhome, side, hside, hr⟩ := h
  exact ⟨hid, hhome, side, side_mono hw hside, hr⟩

theorem Value.Renamed.mono {v v' : Value} (hw : w <+: w') (h : v.Renamed r w v') :
    v.Renamed r w' v' :=
  Value.Rel.mono h fun _ _ => Closure.Renamed.mono hw

/-- A value is its own counterpart where all frames are outside. -/
theorem Value.LinkedIn.renamed {n : Nat} {v : Value} (h : v.LinkedIn n) :
    v.Renamed r (List.replicate n .outside) v := by
  induction v with
  | int n => exact .int n
  | bool b => exact .bool b
  | null => exact .null
  | function c =>
    exact .function ⟨rfl, rfl, .outside, List.getElem?_replicate_of_lt h, .refl_expr c.literal⟩
  | returned v ih => exact .returned (ih h)
  | error e => exact .error e

theorem Closure.Renamed.id_iff (c d c' d' : Closure) (h : c.Renamed r w d)
    (h' : c'.Renamed r w d') : d.id = d'.id ↔ c.id = c'.id := by
  rw [h.id, h'.id]

end Worlds

/-- A frame and its counterpart bind the same names, renamed on the inside, to related values. -/
def Frame.Matches (r : Rebinding) (w : List Side) (side : Side) (f g : Frame) : Prop :=
  ∀ z, r.Allows side z → Option.Rel (Value.Renamed r w) (f.get? z) (g.get? (r.name side z))

namespace Frame.Matches
variable {r : Rebinding} {w w' : List Side} {side : Side} {f g : Frame}

theorem empty (outer : Option FrameId) : Matches r w side (.empty outer) (.empty outer) :=
  fun _ _ => .none

theorem mono (hw : w <+: w') (h : Matches r w side f g) : Matches r w' side f g :=
  fun z hz => rel_mono (fun _ _ => Value.Renamed.mono hw) (h z hz)

/-- A name is paired to what it is renamed to. -/
theorem iff_related : Matches r w side f g ↔
    Related (fun x y => r.Allows side x ∧ y = r.name side x) (Value.Renamed r w) f g := by
  constructor
  · rintro h x y ⟨hx, rfl⟩
    exact h x hx
  · intro h z hz
    exact h z (r.name side z) ⟨hz, rfl⟩

theorem biUnique_name (r : Rebinding) (side : Side) :
    Relator.BiUnique fun x y => r.Allows side x ∧ y = r.name side x := by
  constructor
  · rintro x x' y ⟨hx, rfl⟩ ⟨hx', hy⟩
    exact (Rebinding.name_inj hx hx').mp hy
  · rintro x y y' ⟨-, rfl⟩ ⟨-, rfl⟩
    rfl

theorem set {z : String} {v v' : Value} (h : Matches r w side f g) (hz : r.Allows side z)
    (hv : v.Renamed r w v') : Matches r w side (f.set z v) (g.set (r.name side z) v') :=
  iff_related.mpr ((iff_related.mp h).set (biUnique_name r side) ⟨hz, rfl⟩ hv)

theorem setEach {zs : List String} {vs vs' : List Value} (h : Matches r w side f g)
    (hzs : ∀ z ∈ zs, r.Allows side z) (hvs : List.Forall₂ (Value.Renamed r w) vs vs') :
    Matches r w side (f.setEach (zs.zip vs)) (g.setEach ((zs.map (r.name side)).zip vs')) := by
  refine iff_related.mpr ((iff_related.mp h).setEach (biUnique_name r side) ?_ hvs)
  rw [List.forall₂_map_right_iff, List.forall₂_same]
  exact fun z hz => ⟨hzs z hz, rfl⟩

end Frame.Matches

theorem Frame.isSome_get?_setEach_of_isSome {f : Frame} {x : String} (hx : (f.get? x).isSome)
    (bs : List (String × Value)) : ((f.setEach bs).get? x).isSome := by
  induction bs generalizing f with
  | nil => exact hx
  | cons b bs ih =>
    refine ih ?_
    rw [get?_set]
    split
    · rfl
    · exact hx

theorem Frame.isSome_get?_setEach {zs : List String} {vs : List Value} {x : String} (f : Frame)
    (hlen : vs.length = zs.length) (hx : x ∈ zs) : ((f.setEach (zs.zip vs)).get? x).isSome := by
  induction zs generalizing f vs with
  | nil => cases hx
  | cons z zs ih =>
    cases vs with
    | nil => cases hlen
    | cons v vs =>
      obtain rfl | hx := List.mem_cons.mp hx
      · exact isSome_get?_setEach_of_isSome (by simp [get?_set]) (zs.zip vs)
      · exact ih (f.set z v) (Nat.succ.inj hlen) hx

/-- A frame and its counterpart in place `id` on a side. An outside frame has none of the inside
around it; from an inside frame, outward, the renamed parameter is bound before the outside
begins. -/
structure Frame.Renamed (r : Rebinding) (w : List Side) (id : FrameId) (side : Side)
    (f g : Frame) : Prop where
  outer : g.outer = f.outer
  bindings : Matches r w side f g
  outside : side = .outside → ∀ o, f.outer = some o → o < id → w[o]? = some .outside
  inside : side = .inside →
    (f.get? r.old).isSome ∨ ∃ o, f.outer = some o ∧ o < id ∧ w[o]? = some .inside

namespace Frame.Renamed
variable {r : Rebinding} {w w' : List Side} {id : FrameId} {side : Side} {f g : Frame}

theorem mono (hw : w <+: w') (h : Renamed r w id side f g) : Renamed r w' id side f g := by
  refine ⟨h.outer, h.bindings.mono hw, ?_, ?_⟩
  · intro hs o ho hlt
    exact side_mono hw (h.outside hs o ho hlt)
  · intro hs
    obtain hb | ⟨o, ho, hlt, hi⟩ := h.inside hs
    · exact .inl hb
    · exact .inr ⟨o, ho, hlt, side_mono hw hi⟩

theorem set {z : String} {v v' : Value} (h : Renamed r w id side f g) (hz : r.Allows side z)
    (hv : v.Renamed r w v') : Renamed r w id side (f.set z v) (g.set (r.name side z) v') := by
  refine ⟨h.outer, h.bindings.set hz hv, h.outside, ?_⟩
  intro hs
  obtain hb | ho := h.inside hs
  · refine .inl ?_
    rw [get?_set]
    split
    · rfl
    · exact hb
  · exact .inr ho

/-- The frame of a call, whose code is on the side of the frame around it or begins the inside. -/
theorem enter {inner : Side} {zs : List String} {vs vs' : List Value} {home : FrameId}
    (hs : w[home]? = some side) (hlt : home < id) (hzs : ∀ z ∈ zs, r.Allows inner z)
    (hvs : List.Forall₂ (Value.Renamed r w) vs vs') (hlen : vs.length = zs.length)
    (hi : inner = side ∨ side = .outside ∧ inner = .inside ∧ r.old ∈ zs) :
    Renamed r w id inner ((Frame.empty (some home)).setEach (zs.zip vs))
      ((Frame.empty (some home)).setEach ((zs.map (r.name inner)).zip vs')) := by
  have ho : ((Frame.empty (some home)).setEach (zs.zip vs)).outer = some home :=
    outer_setEach _ _
  refine ⟨?_, (Matches.empty (some home)).setEach hzs hvs, ?_, ?_⟩
  · rw [outer_setEach, outer_setEach]
  · rintro rfl o ho' -
    obtain rfl : home = o := Option.some.inj (ho.symm.trans ho')
    obtain rfl | ⟨-, hout, -⟩ := hi
    · exact hs
    · cases hout
  · rintro rfl
    obtain rfl | ⟨-, -, hx⟩ := hi
    · exact .inr ⟨home, ho, hlt, hs⟩
    · exact .inl (isSome_get?_setEach _ hlen hx)

/-- Beyond a frame that does not bind a name, the name has the same counterpart. -/
theorem beyond {z : String} {o : FrameId} (h : Renamed r w id side f g) (hz : r.Allows side z)
    (hf : f.get? z = none) (ho : f.outer = some o) (hlt : o < id) (hw : o < w.length) :
    ∃ side', w[o]? = some side' ∧ r.Allows side' z ∧ r.name side' z = r.name side z := by
  cases side with
  | outside => exact ⟨.outside, h.outside rfl o ho hlt, r.allows_outside z, rfl⟩
  | inside =>
    by_cases hx : z = r.old
    · obtain hb | ⟨o', ho', -, hi⟩ := h.inside rfl
      · simp [← hx, hf] at hb
      · obtain rfl : o = o' := Option.some.inj (ho.symm.trans ho')
        exact ⟨.inside, hi, hz, rfl⟩
    · refine ⟨w[o], List.getElem?_eq_getElem hw, fun _ => hz rfl, ?_⟩
      rw [Rebinding.name_of_ne hx, Rebinding.name_of_ne hx]

end Frame.Renamed

/-- Two heaps that differ by the renaming, with their frames on the sides `w`. -/
structure Heap.Renamed (r : Rebinding) (w : List Side) (h k : Heap) : Prop where
  closures : k.closures = h.closures
  size : h.frames.size = w.length
  size_eq : k.frames.size = h.frames.size
  frames : ∀ (id : FrameId) side f g, w[id]? = some side → h.frames[id]? = some f →
    k.frames[id]? = some g → Frame.Renamed r w id side f g

namespace Heap.Renamed
variable {r : Rebinding} {w : List Side} {h k : Heap} {id : FrameId} {side : Side} {z : String}

/-- Every frame has a counterpart. -/
theorem frame (hk : Renamed r w h k) (hs : w[id]? = some side) :
    ∃ f g, h.frames[id]? = some f ∧ k.frames[id]? = some g ∧ Frame.Renamed r w id side f g := by
  have hlt : id < h.frames.size := hk.size ▸ (List.getElem?_eq_some_iff.mp hs).1
  have hf := Array.getElem?_eq_getElem hlt
  have hg := Array.getElem?_eq_getElem (hk.size_eq ▸ hlt : id < k.frames.size)
  exact ⟨_, _, hf, hg, hk.frames id side _ _ hs hf hg⟩

/-- A name and its counterpart have related values. -/
theorem get? (hk : Renamed r w h k) (hs : w[id]? = some side) (hz : r.Allows side z) :
    Option.Rel (Value.Renamed r w) (h.get? id z) (k.get? id (r.name side z)) := by
  induction id using Nat.strongRecOn generalizing side with
  | _ id ih =>
    obtain ⟨f, g, hf, hg, hfg⟩ := hk.frame hs
    have hb := hfg.bindings z hz
    rw [Heap.get?_of_frames hf, Heap.get?_of_frames hg, hfg.outer]
    generalize hv : f.get? z = v, g.get? (r.name side z) = v' at hb ⊢
    cases hb with
    | some hb => exact .some hb
    | none =>
      cases ho : f.outer with
      | none => exact .none
      | some o =>
        by_cases hlt : o < id
        · have hw : o < w.length := Nat.lt_trans hlt (List.getElem?_eq_some_iff.mp hs).1
          obtain ⟨side', hs', hz', hname⟩ := hfg.beyond hz hv ho hlt hw
          simpa [hlt, hname] using ih o hlt hs' hz'
        · simp [hlt]

/-- On the inside the renamed parameter is bound. -/
theorem isSome_get?_old (hk : Renamed r w h k) (hs : w[id]? = some .inside) :
    (h.get? id r.old).isSome := by
  induction id using Nat.strongRecOn with
  | _ id ih =>
    obtain ⟨f, g, hf, -, hfg⟩ := hk.frame hs
    rw [Heap.get?_of_frames hf]
    obtain hb | ⟨o, ho, hlt, hi⟩ := hfg.inside rfl
    · simp [hb]
    · simp [ho, hlt, ih o hlt hi]

/-- A name that has no value stands for itself. -/
theorem name_of_get? (hk : Renamed r w h k) (hs : w[id]? = some side)
    (hz : h.get? id z = none) : r.name side z = z := by
  cases side with
  | outside => rfl
  | inside =>
    refine Rebinding.name_of_ne ?_
    rintro rfl
    simpa [hz] using hk.isSome_get?_old hs

theorem set {v v' : Value} (hk : Renamed r w h k) (hs : w[id]? = some side)
    (hz : r.Allows side z) (hv : v.Renamed r w v') :
    Renamed r w (h.set id z v) (k.set id (r.name side z) v') := by
  refine ⟨hk.closures, by simpa using hk.size, by simpa using hk.size_eq, ?_⟩
  intro j side' f g hs' hf hg
  rw [frames_set] at hf hg
  by_cases hj : id = j
  · subst hj
    obtain rfl : side' = side := Option.some.inj (hs'.symm.trans hs)
    rw [if_pos rfl, Option.map_eq_some_iff] at hf hg
    obtain ⟨f, hf, rfl⟩ := hf
    obtain ⟨g, hg, rfl⟩ := hg
    exact (hk.frames id side' f g hs hf hg).set hz hv
  · rw [if_neg hj] at hf hg
    exact hk.frames j side' f g hs' hf hg

theorem push {f g : Frame} (hk : Renamed r w h k)
    (hfg : Frame.Renamed r (w ++ [side]) w.length side f g) :
    Renamed r (w ++ [side]) (h.push f) (k.push g) := by
  refine ⟨hk.closures, by simpa using hk.size, by simpa using hk.size_eq, ?_⟩
  intro j side' f' g' hs' hf' hg'
  rw [frames_push] at hf' hg'
  rw [hk.size_eq] at hg'
  by_cases hj : j = h.frames.size
  · rw [if_pos hj] at hf' hg'
    cases hf'
    cases hg'
    rw [hj, hk.size, List.getElem?_concat_length] at hs'
    cases hs'
    rwa [hj, hk.size]
  · rw [if_neg hj] at hf' hg'
    have hlt : j < w.length := hk.size ▸ lt_size_of_frames hf'
    rw [List.getElem?_append_left hlt] at hs'
    exact (hk.frames j side' f' g' hs' hf' hg').mono (List.prefix_append w _)

/-- A function literal gives related closures. -/
theorem newClosure {zs zs' : List String} {b b' : List Stmt} (hk : Renamed r w h k)
    (hs : w[id]? = some side)
    (hr : Renaming r side (.expr (.function zs b)) (.expr (.function zs' b'))) :
    (h.newClosure id zs b).1.Renamed r w (k.newClosure id zs' b').1 ∧
      Renamed r w (h.newClosure id zs b).2 (k.newClosure id zs' b').2 := by
  refine ⟨⟨hk.closures, rfl, side, hs, hr⟩, ⟨?_, hk.size, hk.size_eq, hk.frames⟩⟩
  exact congrArg (· + 1) hk.closures

/-- The heaps in which the bodies of related closures start. -/
theorem enter {c d : Closure} {args args' : List Value} (hk : Renamed r w h k)
    (hc : c.Renamed r w d) (ha : List.Forall₂ (Value.Renamed r w) args args')
    (hlen : args.length = c.arity) :
    ∃ side, Renaming r side (.stmts c.body) (.stmts d.body) ∧
      Renamed r (w ++ [side])
        (h.push ((Frame.empty (some c.home)).setEach (c.parameters.zip args)))
        (k.push ((Frame.empty (some d.home)).setEach (d.parameters.zip args'))) := by
  obtain ⟨-, hhome, side, hs, hr⟩ := hc
  obtain ⟨inner, hzs, hps, hbody, hi⟩ := hr.enter
  have hw : w <+: w ++ [inner] := List.prefix_append w _
  have hlt : c.home < w.length := (List.getElem?_eq_some_iff.mp hs).1
  refine ⟨inner, hbody, hk.push ?_⟩
  rw [hhome, hps]
  exact .enter (side_mono hw hs) hlt hzs (ha.imp fun _ _ => Value.Renamed.mono hw) hlen hi

/-- A linked heap is its own counterpart, with all of its frames outside. -/
theorem refl (hh : h.Linked) :
    Renamed r (List.replicate h.frames.size .outside) h h := by
  have hside {j : FrameId} (hj : j < h.frames.size) :
      (List.replicate h.frames.size Side.outside)[j]? = some .outside :=
    List.getElem?_replicate_of_lt hj
  refine ⟨rfl, by simp, rfl, ?_⟩
  intro id side f g hs hf hg
  have hlt := lt_size_of_frames hf
  obtain rfl : Side.outside = side := Option.some.inj ((hside hlt).symm.trans hs)
  obtain rfl : f = g := Option.some.inj (hf.symm.trans hg)
  refine ⟨rfl, ?_, ?_, nofun⟩
  · intro z _
    change Option.Rel _ (f.get? z) (f.get? z)
    cases hv : f.get? z with
    | none => exact .none
    | some v => exact .some ((hh id z v (by simp [local?, hf, hv])).renamed)
  · intro _ o _ hlt'
    exact hside (Nat.lt_trans hlt' hlt)

end Heap.Renamed
end MonkeyLang
