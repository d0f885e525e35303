import MonkeyLang.Proofs.Scope.Heap

/-! Looking names up in frames that were made and changed one after another. Only two things count:
which frames lie around a frame, and to what a name was set last in each of them. -/
namespace MonkeyLang

/-- What was done to frames up to now, when `n` of them have been made. A frame can be made inside
any of these, or inside none, and a name can be set in any of them. -/
inductive FrameLog : Nat → Type
  | start : FrameLog 0
  | newFrame {n : Nat} (l : FrameLog n) (outer : Option (Fin n)) : FrameLog (n + 1)
  | set {n : Nat} (l : FrameLog n) (id : Fin n) (x : String) (v : Value) : FrameLog n

namespace FrameLog

/-- The heap that is left when all of it has been done. -/
def heap : {n : Nat} → FrameLog n → Heap
  | _, start => .empty
  | _, newFrame l outer => (l.heap.newFrame (outer.map (·.val))).2
  | _, set l id x v => l.heap.set id x v

/-- The value to which a name was set last in a frame. -/
def lastSet? : {n : Nat} → FrameLog n → FrameId → String → Option Value
  | _, start, _, _ => none
  | _, newFrame l _, id, x => l.lastSet? id x
  | _, set l id' x' v, id, x => if id = id' ∧ x = x' then some v else l.lastSet? id x

/-- A frame and those around it, outward. -/
def chain : {n : Nat} → FrameLog n → FrameId → List FrameId
  | _, start, _ => []
  | n + 1, newFrame l outer, id =>
    if id = n then id :: outer.elim [] (l.chain ·.val) else l.chain id
  | _, set l _ _ _, id => l.chain id

/-- Frames in a row lead to one of them if the name was set in none before it. -/
inductive Leads {n : Nat} (l : FrameLog n) (x : String) : List FrameId → FrameId → Prop
  | here {id : FrameId} {far : List FrameId} : Leads l x (id :: far) id
  | past {id near : FrameId} {far : List FrameId} : l.lastSet? near x = none → Leads l x far id →
      Leads l x (near :: far) id

variable {n : Nat} {l : FrameLog n} {x y : String} {v : Value} {id : FrameId} {f : Fin n}

@[simp] theorem size_heap (l : FrameLog n) : l.heap.frames.size = n := by
  induction l with
  | start => rfl
  | newFrame l outer ih => simp [heap, Heap.newFrame, ih]
  | set l id x v ih => simp [heap, ih]

/-- Nothing was set in a frame that has not been made. -/
theorem lastSet?_of_le (h : n ≤ id) : l.lastSet? id x = none := by
  induction l with
  | start => rfl
  | newFrame l outer ih => exact ih (Nat.le_of_succ_le h)
  | set l id' y v ih =>
    have hne : id ≠ id' := Nat.ne_of_gt (Nat.lt_of_lt_of_le id'.isLt h)
    rw [lastSet?, if_neg fun h => hne h.1, ih h]

theorem chain_of_le (h : n ≤ id) : l.chain id = [] := by
  induction l with
  | start => rfl
  | newFrame l outer ih => rw [chain, if_neg (Nat.ne_of_gt h), ih (Nat.le_of_succ_le h)]
  | set l id' y v ih => exact ih h

/-- A frame binds what was set in it last. -/
theorem local?_heap (l : FrameLog n) (id : FrameId) (x : String) :
    l.heap.local? id x = l.lastSet? id x := by
  induction l with
  | start => rfl
  | newFrame l outer ih =>
    rw [heap, Heap.newFrame, Heap.local?_push, size_heap, lastSet?]
    split
    · rw [Frame.get?_empty, lastSet?_of_le (Nat.le_of_eq (Eq.symm ‹_›))]
    · exact ih
  | set l id' y v ih =>
    have hid : (id' : FrameId) < l.heap.frames.size := by simp
    rw [heap, Heap.local?_set hid, lastSet?, ih]

/-- The frame around a frame was made before it. -/
theorem lt_of_outer?_heap {o : FrameId} (ho : l.heap.outer? id = some o) : o < id := by
  induction l with
  | start => cases ho
  | newFrame l outer ih =>
    rw [heap, Heap.newFrame, Heap.outer?_push, size_heap] at ho
    split at ho
    · obtain ⟨o', -, rfl⟩ := Option.map_eq_some_iff.mp ho
      rename_i heq
      exact heq ▸ o'.isLt
    · exact ih ho
  | set l id' y v ih =>
    rw [heap, Heap.outer?_set] at ho
    exact ih ho

/-- The chain of a frame goes on with that of the frame around it. -/
theorem chain_eq (hid : id < n) : l.chain id = id :: (l.heap.outer? id).elim [] l.chain := by
  induction l with
  | start => exact absurd hid (Nat.not_lt_zero id)
  | @newFrame n l outer ih =>
    -- Frames that were there before keep their chains.
    have hkeep : ∀ o < n, (l.newFrame outer).chain o = l.chain o := by
      intro o ho
      rw [chain, if_neg (Nat.ne_of_lt ho)]
    rw [heap, Heap.newFrame, Heap.outer?_push, size_heap]
    split
    · rw [chain, if_pos ‹_›]
      cases outer with
      | none => rfl
      | some o => simp [Frame.empty, hkeep]
    · have hlt : id < n := Nat.lt_of_le_of_ne (Nat.le_of_lt_succ hid) ‹_›
      rw [hkeep id hlt, ih hlt]
      cases ho : l.heap.outer? id with
      | none => rfl
      | some o => simp [hkeep o (Nat.lt_trans (lt_of_outer?_heap ho) hlt)]
  | set l id' y v ih =>
    rw [heap, Heap.outer?_set]
    exact ih hid

/-- A lookup gives what was set last in the first frame of the chain in which anything was. -/
theorem get?_heap (l : FrameLog n) (id : FrameId) (x : String) :
    l.heap.get? id x = (l.chain id).findSome? (l.lastSet? · x) := by
  induction id using Nat.strongRecOn with
  | _ id ih =>
    rw [Heap.get?_eq_or, local?_heap, Heap.around?_eq_outer? fun o => lt_of_outer?_heap]
    obtain hid | hid := Nat.lt_or_ge id n
    · rw [chain_eq hid, List.findSome?_cons]
      cases l.lastSet? id x with
      | some v => rfl
      | none =>
        cases ho : l.heap.outer? id with
        | none => rfl
        | some o => exact ih o (lt_of_outer?_heap ho)
    · have houter : l.heap.outer? id = none := by
        rw [Heap.outer?, Array.getElem?_eq_none (by simpa using hid), Option.bind_none]
      rw [lastSet?_of_le hid, houter, chain_of_le hid]
      rfl

theorem findSome?_lastSet?_eq_some_iff {frames : List FrameId} :
    frames.findSome? (l.lastSet? · x) = some v ↔
      ∃ id, l.Leads x frames id ∧ l.lastSet? id x = some v := by
  induction frames with
  | nil =>
    constructor
    · nofun
    · rintro ⟨_, ⟨⟩, _⟩
  | cons i frames ih =>
    rw [List.findSome?_cons]
    constructor
    · intro h
      cases hi : l.lastSet? i x with
      | some w =>
        rw [hi] at h
        exact ⟨i, .here, hi.trans h⟩
      | none =>
        rw [hi] at h
        obtain ⟨id, hid, hv⟩ := ih.mp h
        exact ⟨id, .past hi hid, hv⟩
    · rintro ⟨id, _ | ⟨hi, hid⟩, hv⟩
      · rw [hv]
      · rw [hi]
        exact ih.mpr ⟨id, hid, hv⟩

/-- Where frames lead to the one in which a name has just been set, its new value is found. -/
theorem Leads.findSome?_set {frames : List FrameId} (h : l.Leads x frames f) (v : Value) :
    frames.findSome? ((l.set f x v).lastSet? · x) = some v := by
  generalize hid : (f : FrameId) = id at h
  induction h with
  | here => simp [lastSet?, hid]
  | @past id near far hn _ ih =>
    rw [List.findSome?_cons, lastSet?, hn]
    split
    · rename_i hw
      split at hw <;> cases hw
      rfl
    · exact ih hid

/-- Where they do not lead there, the name is found as before. -/
theorem findSome?_set_of_not_leads {frames : List FrameId} (h : ¬ l.Leads x frames f) (v : Value) :
    frames.findSome? ((l.set f x v).lastSet? · x) = frames.findSome? (l.lastSet? · x) := by
  induction frames with
  | nil => rfl
  | cons i frames ih =>
    have hne : i ≠ f := by
      rintro rfl
      exact h .here
    rw [List.findSome?_cons, List.findSome?_cons, lastSet?, if_neg fun h => hne h.1]
    cases hi : l.lastSet? i x with
    | some w => rfl
    | none => exact ih fun hf => h (.past hi hf)

/-- What looking a name up gives, whatever was done to frames in whatever order. A name has the value
to which it was set last in the nearest frame, outward, in which it was set at all, and none if there
is no such frame; the frames outward from a frame are it and those outward from the frame around it.
So a name that is set in a frame has the new value wherever one is led to that frame, and in other
frames, like any other name, the value that it had. -/
theorem get?_nearest {n : Nat} (l : FrameLog n) :
    (∀ id x v, l.heap.get? id x = some v ↔
      ∃ j, l.Leads x (l.chain id) j ∧ l.lastSet? j x = some v) ∧
    (∀ id x, l.heap.get? id x = none ↔ ∀ j ∈ l.chain id, l.lastSet? j x = none) ∧
    (∀ id < n, l.chain id = id :: (l.heap.outer? id).elim [] l.chain) ∧
    ∀ (f : Fin n) x v,
      (∀ id, l.Leads x (l.chain id) f → (l.set f x v).heap.get? id x = some v) ∧
      ∀ id y, ¬ (y = x ∧ l.Leads x (l.chain id) f) →
        (l.set f x v).heap.get? id y = l.heap.get? id y := by
  refine ⟨?_, ?_, fun id => chain_eq, ?_⟩
  · intro id x v
    rw [get?_heap, findSome?_lastSet?_eq_some_iff]
  · intro id x
    rw [get?_heap, List.findSome?_eq_none_iff]
  · intro f x v
    constructor
    · intro id h
      rw [get?_heap, chain]
      exact h.findSome?_set v
    · intro id y h
      rw [get?_heap, get?_heap, chain]
      by_cases hy : y = x
      · subst hy
        exact findSome?_set_of_not_leads (fun hf => h ⟨rfl, hf⟩) v
      · congr 1
        funext j
        rw [lastSet?, if_neg fun h => hy h.2]

/-- Two frames inside a third: `x` is set in the third and in the first of the two. -/
def siblings : FrameLog 3 :=
  ((((FrameLog.start.newFrame none).newFrame (some 0)).newFrame (some 0)).set 0 "x" (.int 1)).set 1
    "x" (.int 2)

theorem get?_nearest_siblings :
    siblings.Leads "x" (siblings.chain 2) 0 ∧ ¬ siblings.Leads "x" (siblings.chain 1) 0 ∧
    (0 : Nat) < 3 ∧ siblings.chain 2 = [2, 0] ∧
    siblings.heap.get? 1 "x" = some (.int 2) ∧ siblings.heap.get? 2 "x" = some (.int 1) ∧
    siblings.heap.get? 2 "y" = none ∧
    (siblings.set 0 "x" (.int 3)).heap.get? 2 "x" = some (.int 3) ∧
    (siblings.set 0 "x" (.int 3)).heap.get? 1 "x" = some (.int 2) := by
  obtain ⟨hsome, hnone, hchain, hset⟩ := get?_nearest siblings
  obtain ⟨hnew, hold⟩ := hset 0 "x" (.int 3)
  have hlead : siblings.Leads "x" (siblings.chain 2) 0 := .past rfl .here
  have hnot : ¬ siblings.Leads "x" (siblings.chain 1) 0 := by
    rintro (_ | ⟨h, -⟩)
    cases h
  have hfirst : siblings.heap.get? 1 "x" = some (.int 2) := (hsome 1 "x" _).mpr ⟨1, .here, rfl⟩
  refine ⟨hlead, hnot, by decide, hchain 2 (by decide), hfirst, (hsome 2 "x" _).mpr ⟨0, hlead, rfl⟩,
    (hnone 2 "y").mpr ?_, hnew 2 hlead, ?_⟩
  · decide
  · rw [hold 1 "x" fun h => hnot h.2, hfirst]

end FrameLog
end MonkeyLang
