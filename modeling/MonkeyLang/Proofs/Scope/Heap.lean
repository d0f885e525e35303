import Mathlib.Data.List.Forall2
import Mathlib.Logic.Relator
import MonkeyLang.Scope.Heap

/-! What the operations on the heap do to its frames and to the values bound in them. -/
namespace MonkeyLang

/-- A function, returned or not, was made in one of the first `n` frames. -/
def Value.LinkedIn (n : Nat) : Value → Prop
  | .function c => c.home < n
  | .returned v => v.LinkedIn n
  | _ => True

/-- Every value bound in a frame satisfies `P`. -/
def Frame.All (P : Value → Prop) (f : Frame) : Prop := ∀ b ∈ f.bindings, P b.2

namespace Frame.All
variable {P Q : Value → Prop} {f : Frame} {x : String} {v : Value}

theorem empty (P : Value → Prop) (outer : Option FrameId) : All P (.empty outer) := nofun

theorem set (hf : f.All P) (x : String) (hv : P v) : (f.set x v).All P := by
  intro b hb
  obtain rfl | hb := List.mem_cons.mp hb
  · exact hv
  · exact hf b (List.mem_filter.mp hb).1

theorem setEach {bs : List (String × Value)} (hf : f.All P) (hbs : ∀ b ∈ bs, P b.2) :
    (f.setEach bs).All P := by
  induction bs generalizing f with
  | nil => exact hf
  | cons b bs ih =>
    obtain ⟨hb, hbs⟩ := List.forall_mem_cons.mp hbs
    exact ih (hf.set b.1 hb) hbs

theorem get? (hf : f.All P) (hx : f.get? x = some v) : P v := by
  obtain ⟨l₁, l₂, hl, -⟩ := List.lookup_eq_some_iff.mp hx
  exact hf (x, v) (by rw [hl]; simp)

theorem mono (hf : f.All P) (h : ∀ v, P v → Q v) : f.All Q := fun b hb => h b.2 (hf b hb)

end Frame.All

/-- Two frames bind names that `K` pairs to values that `R` relates, and bind no other one of a
pair. -/
def Frame.Related (K : String → String → Prop) (R : Value → Value → Prop) (f g : Frame) : Prop :=
  ∀ x y, K x y → Option.Rel R (f.get? x) (g.get? y)

namespace Frame.Related
variable {K : String → String → Prop} {R : Value → Value → Prop} {f g : Frame}

theorem empty (outer outer' : Option FrameId) : Related K R (.empty outer) (.empty outer') :=
  fun _ _ _ => .none

theorem set {x y : String} {v w : Value} (hK : Relator.BiUnique K) (h : Related K R f g)
    (hxy : K x y) (hvw : R v w) : Related K R (f.set x v) (g.set y w) := by
  intro x' y' hxy'
  have hiff : x' = x ↔ y' = y := Relator.rel_eq hK hxy' hxy
  simp only [get?_set, hiff]
  split
  · exact .some hvw
  · exact h x' y' hxy'

theorem setEach {xs ys : List String} {vs ws : List Value} (hK : Relator.BiUnique K)
    (h : Related K R f g) (hxys : List.Forall₂ K xs ys) (hvws : List.Forall₂ R vs ws) :
    Related K R (f.setEach (xs.zip vs)) (g.setEach (ys.zip ws)) := by
  induction hxys generalizing f g vs ws with
  | nil => exact h
  | cons hxy _ ih =>
    cases hvws with
    | nil => exact h
    | cons hvw hvws => exact ih (h.set hK hxy hvw) hvws

end Frame.Related

theorem Frame.get?_setEach_of_ne {bs : List (String × Value)} {x : String}
    (h : ∀ b ∈ bs, b.1 ≠ x) (f : Frame) : (f.setEach bs).get? x = f.get? x := by
  induction bs generalizing f with
  | nil => rfl
  | cons b bs ih =>
    obtain ⟨hb, hbs⟩ := List.forall_mem_cons.mp h
    have hfirst : (f.set b.1 b.2).get? x = f.get? x := by rw [get?_set, if_neg hb.symm]
    exact (ih hbs _).trans hfirst

namespace Heap

@[simp] theorem size_frames_set (h : Heap) (id : FrameId) (x : String) (v : Value) :
    (h.set id x v).frames.size = h.frames.size := by
  simp [set]

theorem frames_set (h : Heap) (id j : FrameId) (x : String) (v : Value) :
    (h.set id x v).frames[j]? =
      if id = j then h.frames[j]?.map (·.set x v) else h.frames[j]? := by
  simp only [set, Array.getElem?_modify]

@[simp] theorem size_frames_push (h : Heap) (f : Frame) :
    (h.push f).frames.size = h.frames.size + 1 := by
  simp [push]

theorem frames_push (h : Heap) (f : Frame) (j : FrameId) :
    (h.push f).frames[j]? = if j = h.frames.size then some f else h.frames[j]? := by
  simp only [push, Array.getElem?_push]

theorem lt_size_of_frames {h : Heap} {id : FrameId} {f : Frame} (hf : h.frames[id]? = some f) :
    id < h.frames.size :=
  (Array.getElem?_eq_some_iff.mp hf).1

theorem frames_push_of_some {h : Heap} {id : FrameId} {g : Frame} (f : Frame)
    (hg : h.frames[id]? = some g) : (h.push f).frames[id]? = some g := by
  rw [frames_push, if_neg (Nat.ne_of_lt (lt_size_of_frames hg)), hg]

theorem get?_of_frames {h : Heap} {id : FrameId} {f : Frame} (hf : h.frames[id]? = some f)
    (x : String) : h.get? id x =
      (f.get? x).or (f.outer.bind fun outer => if outer < id then h.get? outer x else none) := by
  rw [get?, hf]
  cases hx : f.get? x with
  | some v => simp [hx]
  | none => cases ho : f.outer <;> simp [hx, ho]

/-- The value bound to a name in a frame itself. -/
def local? (h : Heap) (id : FrameId) (x : String) : Option Value :=
  h.frames[id]?.bind (·.get? x)

theorem local?_set {h : Heap} {id : FrameId} (hid : id < h.frames.size) (j : FrameId)
    (x y : String) (v : Value) :
    (h.set id x v).local? j y = if j = id ∧ y = x then some v else h.local? j y := by
  rw [local?, local?, frames_set]
  by_cases hj : id = j
  · subst hj
    rw [if_pos rfl, Array.getElem?_eq_getElem hid]
    simp only [Option.map_some, Option.bind_some, Frame.get?_set, true_and]
  · rw [if_neg hj, if_neg fun h => hj h.1.symm]

theorem local?_push (h : Heap) (f : Frame) (j : FrameId) (y : String) :
    (h.push f).local? j y = if j = h.frames.size then f.get? y else h.local? j y := by
  rw [local?, local?, frames_push]
  split <;> rfl

/-- The frame in which a lookup goes on: the one around a frame, if it was made before it. -/
def around? (h : Heap) (id : FrameId) : Option FrameId := (h.outer? id).filter (· < id)

/-- In a heap whose links lead to earlier frames, lookups go on in the frame around. -/
theorem around?_eq_outer? {h : Heap} {id : FrameId} (ho : ∀ o, h.outer? id = some o → o < id) :
    h.around? id = h.outer? id := by
  rw [around?]
  cases hid : h.outer? id with
  | none => rfl
  | some o => exact Option.filter_some_pos (decide_eq_true (ho o hid))

theorem lt_of_around? {h : Heap} {id o : FrameId} (ho : h.around? id = some o) : o < id := by
  simpa using (Option.filter_eq_some_iff.mp ho).2

theorem outer?_set (h : Heap) (id j : FrameId) (x : String) (v : Value) :
    (h.set id x v).outer? j = h.outer? j := by
  rw [outer?, outer?, frames_set]
  by_cases hj : id = j
  · rw [if_pos hj]
    cases h.frames[j]? <;> rfl
  · rw [if_neg hj]

theorem outer?_push (h : Heap) (f : Frame) (j : FrameId) :
    (h.push f).outer? j = if j = h.frames.size then f.outer else h.outer? j := by
  rw [outer?, outer?, frames_push]
  split <;> rfl

theorem around?_set (h : Heap) (id j : FrameId) (x : String) (v : Value) :
    (h.set id x v).around? j = h.around? j := by
  rw [around?, around?, outer?_set]

theorem around?_push (h : Heap) (f : Frame) (j : FrameId) :
    (h.push f).around? j =
      if j = h.frames.size then f.outer.filter (· < j) else h.around? j := by
  rw [around?, around?, outer?_push]
  split <;> rfl

/-- A lookup finds what its frame binds, and otherwise goes on. -/
theorem get?_eq_or (h : Heap) (id : FrameId) (x : String) :
    h.get? id x = (h.local? id x).or ((h.around? id).bind (h.get? · x)) := by
  cases hf : h.frames[id]? with
  | none =>
    rw [get?, hf]
    simp [local?, around?, outer?, hf]
  | some f =>
    rw [get?_of_frames hf]
    cases ho : f.outer with
    | none => simp [local?, around?, outer?, hf, ho]
    | some o =>
      by_cases hlt : o < id <;> simp [local?, around?, outer?, hf, ho, hlt, Option.filter]

/-- A new frame is not seen from those that were there. -/
theorem get?_push {h : Heap} {id : FrameId} (hid : id < h.frames.size) (f : Frame) (x : String) :
    (h.push f).get? id x = h.get? id x := by
  induction id using Nat.strongRecOn with
  | _ id ih =>
    rw [get?_eq_or, get?_eq_or, local?_push, around?_push, if_neg (Nat.ne_of_lt hid),
      if_neg (Nat.ne_of_lt hid)]
    cases ho : h.around? id with
    | none => rfl
    | some o =>
      have hlt := lt_of_around? ho
      rw [Option.bind_some, Option.bind_some, ih o hlt (Nat.lt_trans hlt hid)]

/-- From a new frame the names that it does not bind are seen as from the frame around it. -/
theorem get?_push_self {h : Heap} {f : Frame} {o : FrameId} {x : String} (hx : f.get? x = none)
    (hf : f.outer = some o) (ho : o < h.frames.size) :
    (h.push f).get? h.frames.size x = h.get? o x := by
  have hfilter : (some o).filter (· < h.frames.size) = some o :=
    Option.filter_some_pos (decide_eq_true ho)
  rw [get?_eq_or, local?_push, around?_push, if_pos rfl, if_pos rfl, hx, hf, hfilter]
  exact get?_push ho f x

/-- Every value bound in a frame of the heap satisfies `P`. -/
def All (P : Value → Prop) (h : Heap) : Prop := ∀ f ∈ h.frames, f.All P

namespace All
variable {P Q : Value → Prop} {h : Heap} {id : FrameId} {x : String} {v : Value}

theorem empty (P : Value → Prop) : Heap.empty.All P := by
  simp [All, Heap.empty]

theorem push {f : Frame} (hh : h.All P) (hf : f.All P) : (h.push f).All P := by
  intro g hg
  obtain hg | rfl := Array.mem_push.mp hg
  · exact hh g hg
  · exact hf

/-- In the first frame nothing is bound. -/
theorem first (P : Value → Prop) : (Heap.empty.newFrame none).2.All P :=
  (empty P).push (.empty P none)

theorem frame {f : Frame} (hh : h.All P) (hf : h.frames[id]? = some f) : f.All P :=
  hh f (Array.mem_of_getElem? hf)

theorem set (hh : h.All P) (id : FrameId) (x : String) (hv : P v) : (h.set id x v).All P := by
  intro g hg
  obtain ⟨j, hj⟩ := Array.mem_iff_getElem?.mp hg
  rw [frames_set] at hj
  split at hj
  · obtain ⟨f, hf, rfl⟩ := Option.map_eq_some_iff.mp hj
    exact (hh.frame hf).set x hv
  · exact hh.frame hj

theorem newClosure (hh : h.All P) (home : FrameId) (xs : List String) (body : List Stmt) :
    (h.newClosure home xs body).2.All P := hh

theorem local? (hh : h.All P) (hx : h.local? id x = some v) : P v := by
  obtain ⟨f, hf, hx⟩ := Option.bind_eq_some_iff.mp hx
  exact (hh.frame hf).get? hx

theorem get? (hh : h.All P) (hx : h.get? id x = some v) : P v := by
  induction id using Nat.strongRecOn with
  | _ id ih =>
    rw [get?_eq_or] at hx
    obtain hb | ⟨-, hx⟩ := Option.or_eq_some_iff.mp hx
    · exact hh.local? hb
    · obtain ⟨o, ho, hx⟩ := Option.bind_eq_some_iff.mp hx
      exact ih o (lt_of_around? ho) hx

theorem mono (hh : h.All P) (hPQ : ∀ v, P v → Q v) : h.All Q := fun f hf => (hh f hf).mono hPQ

/-- The heap in which the body of a function starts. -/
theorem enter (hh : h.All P) (c : Closure) {args : List Value} (ha : ∀ v ∈ args, P v) :
    (h.push ((Frame.empty (some c.home)).setEach (c.parameters.zip args))).All P :=
  hh.push ((Frame.All.empty P _).setEach fun _ hb => ha _ (List.of_mem_zip hb).2)

end All

/-- Every function bound in a frame was made in a frame of the heap. -/
def Linked (h : Heap) : Prop := ∀ id x v, h.local? id x = some v → v.LinkedIn h.frames.size

end Heap
end MonkeyLang
