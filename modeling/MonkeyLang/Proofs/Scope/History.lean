import MonkeyLang.Proofs.Scope.Correspondence

/-! The history of a heap: the links of the frames made so far, and the functions made so far.
Whatever is done to the heap only adds to its history. -/
namespace MonkeyLang

/-- The frame around each frame made so far, and the functions made so far. A frame lies inside an
earlier one, and a function was made in a frame that was there. -/
structure History where
  outers : List (Option FrameId)
  closures : List Closure
  outer_lt : ∀ id o : FrameId, outers[id]? = some (some o) → o < id
  id_eq : ∀ (i : Nat) c, closures[i]? = some c → c.id = i
  home_lt : ∀ c ∈ closures, c.home < outers.length

namespace History

/-- The second history goes on where the first one ends. -/
instance : LE History where
  le w w' := w.outers <+: w'.outers ∧ w.closures <+: w'.closures

instance : Preorder History where
  le_refl w := ⟨List.prefix_refl w.outers, List.prefix_refl w.closures⟩
  le_trans _ _ _ h h' := ⟨h.1.trans h'.1, h.2.trans h'.2⟩

/-- How many frames have been made. -/
def size (w : History) : Nat := w.outers.length

def empty : History := ⟨[], [], nofun, nofun, nofun⟩

def addFrame (w : History) (outer : Option FrameId) (ho : ∀ o, outer = some o → o < w.size) :
    History where
  outers := w.outers ++ [outer]
  closures := w.closures
  outer_lt id o h := by
    obtain hid | hid := Nat.lt_or_ge id w.outers.length
    · rw [List.getElem?_append_left hid] at h
      exact w.outer_lt id o h
    · rw [List.getElem?_append_right hid] at h
      obtain ⟨_, h⟩ := List.getElem?_eq_some_iff.mp h
      rw [List.getElem_singleton] at h
      exact Nat.lt_of_lt_of_le (ho o h) hid
  id_eq := w.id_eq
  home_lt c hc := by
    rw [List.length_append]
    exact Nat.lt_succ_of_lt (w.home_lt c hc)

def addClosure (w : History) (home : FrameId) (hhome : home < w.size) (xs : List String)
    (body : List Stmt) : History where
  outers := w.outers
  closures := w.closures ++ [⟨w.closures.length, xs, body, home⟩]
  outer_lt := w.outer_lt
  id_eq i c h := by
    obtain hi | hi := Nat.lt_or_ge i w.closures.length
    · rw [List.getElem?_append_left hi] at h
      exact w.id_eq i c h
    · rw [List.getElem?_append_right hi] at h
      obtain ⟨hlt, rfl⟩ := List.getElem?_eq_some_iff.mp h
      simp at hlt ⊢
      omega
  home_lt c hc := by
    obtain hc | hc := List.mem_append.mp hc
    · exact w.home_lt c hc
    · rw [List.mem_singleton.mp hc]
      exact hhome

variable {w w' : History} {c d : Closure}

theorem le_addFrame (outer : Option FrameId) (ho : ∀ o, outer = some o → o < w.size) :
    w ≤ w.addFrame outer ho :=
  ⟨List.prefix_append _ _, List.prefix_refl _⟩

@[simp] theorem size_addFrame (outer : Option FrameId)
    (ho : ∀ o, outer = some o → o < w.size) : (w.addFrame outer ho).size = w.size + 1 :=
  List.length_append

theorem le_addClosure {home : FrameId} (hhome : home < w.size) (xs : List String)
    (body : List Stmt) : w ≤ w.addClosure home hhome xs body :=
  ⟨List.prefix_refl _, List.prefix_append _ _⟩

theorem size_le (h : w ≤ w') : w.size ≤ w'.size := h.1.length_le

theorem getElem?_outers (h : w ≤ w') {id : FrameId} (hid : id < w.size) :
    w'.outers[id]? = w.outers[id]? :=
  (List.prefix_iff_getElem?.mp h.1 id hid).trans (List.getElem?_eq_getElem hid).symm

/-- A function is known by its identity. -/
theorem eq_of_id_eq (hc : c ∈ w.closures) (hd : d ∈ w.closures) (h : c.id = d.id) : c = d := by
  obtain ⟨i, hi⟩ := List.mem_iff_getElem?.mp hc
  obtain ⟨j, hj⟩ := List.mem_iff_getElem?.mp hd
  obtain rfl : i = j := by rw [← w.id_eq i c hi, ← w.id_eq j d hj, h]
  exact Option.some.inj (hi.symm.trans hj)

end History

namespace Value

/-- The function that a value is or returns, if it is or returns one, is in the history. -/
def Recorded (w : History) (v : Value) : Prop := ∀ c, v.closure? = some c → c ∈ w.closures

variable {w w' : History} {v : Value}

theorem Recorded.mono (hw : w ≤ w') (h : v.Recorded w) : v.Recorded w' :=
  fun c hc => hw.2.subset (h c hc)

theorem recorded_of_closure? (h : v.closure? = none) : v.Recorded w := by
  intro c hc
  rw [h] at hc
  cases hc

theorem IsScalar.recorded (h : v.IsScalar) : v.Recorded w := by
  refine recorded_of_closure? ?_
  cases v with
  | int | bool => rfl
  | _ => cases h

theorem Recorded.returned (h : v.Recorded w) : (Value.returned v).Recorded w := h

theorem Recorded.arrive (h : v.Recorded w) : v.arrive.Recorded w := by
  cases v <;> exact h

end Value

namespace Heap

/-- A heap with a history, which knows all functions that are bound in it. -/
structure Follows (w : History) (h : Heap) : Prop where
  outers : h.frames.toList.map (·.outer) = w.outers
  closures : w.closures.length = h.closures
  bound : h.All (Value.Recorded w)

namespace Follows
variable {w w' : History} {h : Heap} {f : Frame} {v : Value}

theorem empty : Heap.empty.Follows .empty := ⟨rfl, rfl, .empty _⟩

theorem size (hw : h.Follows w) : w.size = h.frames.size := by
  rw [History.size, ← hw.outers, List.length_map, Array.length_toList]

theorem outer? (hw : h.Follows w) (id : FrameId) : h.outer? id = w.outers[id]?.bind (·) := by
  rw [← hw.outers, List.getElem?_map, Array.getElem?_toList, Heap.outer?]
  cases h.frames[id]? <;> rfl

theorem set (hw : h.Follows w) (id : FrameId) (x : String) (hv : v.Recorded w) :
    (h.set id x v).Follows w := by
  refine ⟨?_, hw.closures, hw.bound.set id x hv⟩
  rw [← hw.outers]
  refine List.ext_getElem? fun i => ?_
  rw [List.getElem?_map, List.getElem?_map, Array.getElem?_toList, Array.getElem?_toList,
    frames_set]
  split
  · cases h.frames[i]? <;> rfl
  · rfl

theorem push (hw : h.Follows w) (ho : ∀ o, f.outer = some o → o < w.size)
    (hf : f.All (Value.Recorded w)) : (h.push f).Follows (w.addFrame f.outer ho) := by
  refine ⟨?_, hw.closures, ?_⟩
  · rw [Heap.push, Array.toList_push, List.map_append, hw.outers]
    rfl
  · exact (hw.bound.push hf).mono fun v => Value.Recorded.mono (w.le_addFrame f.outer ho)

theorem newClosure {home : FrameId} (hw : h.Follows w) (hhome : home < w.size) (xs : List String)
    (body : List Stmt) :
    (h.newClosure home xs body).2.Follows (w.addClosure home hhome xs body) ∧
      (Value.function (h.newClosure home xs body).1).Recorded
        (w.addClosure home hhome xs body) := by
  refine ⟨⟨hw.outers, ?_, ?_⟩, ?_⟩
  · rw [Heap.newClosure, ← hw.closures]
    exact List.length_append
  · exact hw.bound.mono fun v => Value.Recorded.mono (w.le_addClosure hhome xs body)
  · rintro c ⟨⟩
    rw [Heap.newClosure, ← hw.closures]
    exact List.mem_append_right _ List.mem_cons_self

/-- The heap in which the body of a function starts. -/
theorem enter {c : Closure} {args : List Value} (hw : h.Follows w) (hc : c ∈ w.closures)
    (ha : ∀ v ∈ args, v.Recorded w) :
    ∃ w', w ≤ w' ∧ h.frames.size < w'.size ∧
      (h.push ((Frame.empty (some c.home)).setEach (c.parameters.zip args))).Follows w' := by
  have ho : ∀ o, ((Frame.empty (some c.home)).setEach (c.parameters.zip args)).outer = some o →
      o < w.size := by
    rintro o ho
    rw [Frame.outer_setEach] at ho
    obtain rfl := Option.some.inj ho
    exact w.home_lt c hc
  refine ⟨_, w.le_addFrame _ ho, ?_, hw.push ho ?_⟩
  · rw [← hw.size, History.size_addFrame]
    exact Nat.lt_succ_self _
  · exact (Frame.All.empty _ _).setEach fun _ hb => ha _ (List.of_mem_zip hb).2

end Follows

/-- Looking a name up, going outward as far as the links lead. -/
inductive Walk (h : Heap) (x : String) : FrameId → Option Value → Prop
  | found {id : FrameId} {v : Value} : h.local? id x = some v → Walk h x id (some v)
  | outward {id o : FrameId} {r : Option Value} : h.local? id x = none → h.outer? id = some o →
      Walk h x o r → Walk h x id r
  | unbound {id : FrameId} : h.local? id x = none → h.outer? id = none → Walk h x id none

/-- Where links lead to earlier frames, looking a name up comes to an end, and gives what the
heap gives for the name. -/
theorem walk_iff {h : Heap} (hlinks : ∀ id o, h.outer? id = some o → o < id) (x : String)
    (id : FrameId) (r : Option Value) : h.Walk x id r ↔ r = h.get? id x := by
  induction id using Nat.strongRecOn generalizing r with
  | _ id ih =>
    rw [get?_eq_or, around?_eq_outer? (hlinks id)]
    constructor
    · rintro (hv | ⟨hn, ho, hr⟩ | ⟨hn, ho⟩)
      · rw [hv]
        rfl
      · rw [hn, ho]
        exact (ih _ (hlinks id _ ho) r).mp hr
      · rw [hn, ho]
        rfl
    · rintro rfl
      cases hx : h.local? id x with
      | some v => exact .found hx
      | none =>
        cases ho : h.outer? id with
        | none => exact .unbound hx ho
        | some o => exact .outward hx ho ((ih o (hlinks id o ho) _).mpr rfl)

end Heap
end MonkeyLang
