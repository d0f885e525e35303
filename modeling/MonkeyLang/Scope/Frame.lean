import MonkeyLang.Value.Basic

/-! A scope frame: the names bound in one scope, and the scope around it. -/
namespace MonkeyLang

/-- The bindings of a scope, at most one for each name, and the frame of the scope around it. -/
structure Frame where
  bindings : List (String × Value)
  outer : Option FrameId

namespace Frame

def empty (outer : Option FrameId) : Frame := ⟨[], outer⟩

/-- The value bound to a name in this frame itself. -/
def get? (f : Frame) (x : String) : Option Value := f.bindings.lookup x

/-- Binds a name, in place of its earlier binding. -/
def set (f : Frame) (x : String) (v : Value) : Frame :=
  { f with bindings := (x, v) :: f.bindings.filter (·.1 != x) }

/-- Binds names to values pairwise; of two equal names the later one counts. -/
def setEach (f : Frame) (bindings : List (String × Value)) : Frame :=
  bindings.foldl (fun f b => f.set b.1 b.2) f

@[simp] theorem get?_empty (outer : Option FrameId) (x : String) : (empty outer).get? x = none := rfl

@[simp] theorem outer_set (f : Frame) (x : String) (v : Value) : (f.set x v).outer = f.outer := rfl

theorem lookup_filter_ne {x y : String} (h : (y == x) = false) (l : List (String × Value)) :
    (l.filter (·.1 != x)).lookup y = l.lookup y := by
  induction l with
  | nil => rfl
  | cons b l ih =>
    by_cases hb : b.1 = x
    · rw [List.filter_cons_of_neg (by simp [hb]), ih, List.lookup_cons, hb, h]
    · rw [List.filter_cons_of_pos (by simp [hb]), List.lookup_cons, List.lookup_cons, ih]

theorem get?_set (f : Frame) (x y : String) (v : Value) :
    (f.set x v).get? y = if y = x then some v else f.get? y := by
  by_cases h : y = x
  · simp [get?, set, h]
  · have hxy : (y == x) = false := by simpa using h
    simp only [get?, set, List.lookup_cons, hxy, lookup_filter_ne hxy, h, if_false]

@[simp] theorem outer_setEach (f : Frame) (bs : List (String × Value)) :
    (f.setEach bs).outer = f.outer := by
  induction bs generalizing f with
  | nil => rfl
  | cons b bs ih => simpa [setEach] using ih (f.set b.1 b.2)

end Frame
end MonkeyLang
