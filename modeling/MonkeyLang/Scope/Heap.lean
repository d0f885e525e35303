import MonkeyLang.Scope.Frame

/-! The heap of scope frames. Frames are only ever added, so a frame is known by the number of
frames that were there before it, and links lead to earlier frames. -/
namespace MonkeyLang

/-- All frames made so far, and the number of closures made so far. -/
structure Heap where
  frames : Array Frame
  closures : Nat

namespace Heap

def empty : Heap := ⟨#[], 0⟩

/-- Adds a frame, which gets the next free place. -/
def push (h : Heap) (f : Frame) : Heap := { h with frames := h.frames.push f }

/-- Adds an empty frame inside `outer`. -/
def newFrame (h : Heap) (outer : Option FrameId) : FrameId × Heap :=
  (h.frames.size, h.push (.empty outer))

/-- Makes a closure with a fresh identity. -/
def newClosure (h : Heap) (home : FrameId) (parameters : List String) (body : List Stmt) :
    Closure × Heap :=
  (⟨h.closures, parameters, body, home⟩, { h with closures := h.closures + 1 })

/-- The frame around a frame. -/
def outer? (h : Heap) (id : FrameId) : Option FrameId := h.frames[id]?.bind (·.outer)

/-- Binds a name in a frame. -/
def set (h : Heap) (id : FrameId) (x : String) (v : Value) : Heap :=
  { h with frames := h.frames.modify id (·.set x v) }

/-- The value of a name as seen from a frame: its binding in the nearest frame, going outward,
that has one. -/
def get? (h : Heap) (id : FrameId) (x : String) : Option Value :=
  match h.frames[id]? with
  | none => none
  | some f =>
    match f.get? x, f.outer with
    | some v, _ => some v
    | none, none => none
    | none, some outer => if outer < id then h.get? outer x else none
termination_by id

end Heap
end MonkeyLang
