import MonkeyLang.Proofs.Scope.Heap
import MonkeyLang.Proofs.Value.Related

/-! Heaps in which the bodies of all functions are replaced. Frames, identities and homes stay as
they are, so every operation on a heap commutes with the replacement. -/
namespace MonkeyLang

/-- A function with `φ` applied to its body. -/
def Closure.recode (φ : List Stmt → List Stmt) (c : Closure) : Closure := { c with body := φ c.body }

/-- A value with `φ` applied to the body of the function that it is or returns. -/
def Value.recode (φ : List Stmt → List Stmt) : Value → Value
  | .function c => .function (c.recode φ)
  | .returned v => .returned (v.recode φ)
  | v => v

def Frame.recode (φ : List Stmt → List Stmt) (f : Frame) : Frame :=
  { f with bindings := f.bindings.map fun b => (b.1, b.2.recode φ) }

def Heap.recode (φ : List Stmt → List Stmt) (h : Heap) : Heap :=
  { h with frames := h.frames.map (Frame.recode φ) }

variable {φ : List Stmt → List Stmt}

theorem Closure.arity_recode (c : Closure) : (c.recode φ).arity = c.arity := rfl

/-- Operators cannot tell a value from what it is recoded to. -/
theorem Value.rel_recode (v : Value) : Value.Rel (fun c d => d = c.recode φ) v (v.recode φ) := by
  induction v with
  | int n => exact .int n
  | bool b => exact .bool b
  | null => exact .null
  | function c => exact .function rfl
  | returned v ih => exact .returned ih
  | error e => exact .error e

theorem Value.IsScalar.recode_eq {v : Value} (h : v.IsScalar) : v.recode φ = v := by
  cases v with
  | int n => rfl
  | bool b => rfl
  | _ => exact h.elim

theorem Value.recode_arrive (v : Value) : v.arrive.recode φ = (v.recode φ).arrive := by
  cases v <;> rfl

theorem Value.binary_apply_recode (op : InfixOp) (v w : Value) :
    op.apply (v.recode φ) (w.recode φ) = op.apply v w := by
  refine Value.Rel.binary_apply_eq ?_ v.rel_recode w.rel_recode op
  rintro c d c' d' rfl rfl
  exact Iff.rfl

namespace Frame

theorem get?_recode (f : Frame) (x : String) :
    (f.recode φ).get? x = (f.get? x).map (Value.recode φ) := by
  unfold get? recode
  induction f.bindings with
  | nil => rfl
  | cons b bs ih =>
    rw [List.map_cons, List.lookup_cons, List.lookup_cons, ih]
    cases x == b.1 <;> rfl

theorem set_recode (f : Frame) (x : String) (v : Value) :
    (f.recode φ).set x (v.recode φ) = (f.set x v).recode φ := by
  simp only [set, recode, List.map_cons, List.filter_map, Function.comp_def]

theorem setEach_recode (f : Frame) (xs : List String) (vs : List Value) :
    (f.recode φ).setEach (xs.zip (vs.map (Value.recode φ))) = (f.setEach (xs.zip vs)).recode φ := by
  induction xs generalizing f vs with
  | nil => rfl
  | cons x xs ih =>
    cases vs with
    | nil => rfl
    | cons v vs =>
      have hrest := ih (f.set x v) vs
      rw [← set_recode] at hrest
      exact hrest

end Frame

namespace Heap

theorem size_frames_recode (h : Heap) : (h.recode φ).frames.size = h.frames.size :=
  Array.size_map

theorem local?_recode (h : Heap) (id : FrameId) (x : String) :
    (h.recode φ).local? id x = (h.local? id x).map (Value.recode φ) := by
  rw [local?, local?, recode, Array.getElem?_map]
  cases h.frames[id]? with
  | none => rfl
  | some f => exact f.get?_recode x

theorem around?_recode (h : Heap) (id : FrameId) : (h.recode φ).around? id = h.around? id := by
  rw [around?, around?, outer?, outer?, recode, Array.getElem?_map]
  cases h.frames[id]? <;> rfl

theorem get?_recode (h : Heap) (id : FrameId) (x : String) :
    (h.recode φ).get? id x = (h.get? id x).map (Value.recode φ) := by
  induction id using Nat.strongRecOn with
  | _ id ih =>
    rw [get?_eq_or, get?_eq_or, local?_recode, around?_recode, Option.map_or]
    congr 1
    cases ho : h.around? id with
    | none => rfl
    | some o => exact ih o (lt_of_around? ho)

theorem set_recode (h : Heap) (id : FrameId) (x : String) (v : Value) :
    (h.recode φ).set id x (v.recode φ) = (h.set id x v).recode φ := by
  simp only [set, recode, Heap.mk.injEq, and_true]
  refine Array.ext_getElem? fun j => ?_
  rw [Array.getElem?_modify, Array.getElem?_map, Array.getElem?_map, Array.getElem?_modify]
  split
  · cases h.frames[j]? with
    | none => rfl
    | some f => exact congrArg some (f.set_recode x v)
  · rfl

theorem push_recode (h : Heap) (f : Frame) :
    (h.recode φ).push (f.recode φ) = (h.push f).recode φ := by
  simp only [push, recode, Array.map_push]

/-- The heap in which the body of a recoded function starts. -/
theorem enter_recode (h : Heap) (c : Closure) (args : List Value) :
    (h.recode φ).push ((Frame.empty (some (c.recode φ).home)).setEach
        ((c.recode φ).parameters.zip (args.map (Value.recode φ)))) =
      (h.push ((Frame.empty (some c.home)).setEach (c.parameters.zip args))).recode φ := by
  rw [← push_recode, ← Frame.setEach_recode]
  rfl

end Heap
end MonkeyLang
