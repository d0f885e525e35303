import Mathlib.Order.Defs.Unbundled
import MonkeyLang.Evaluation.Outcome

/-! Postconditions of evaluations, and relations between the outcomes of two. -/
namespace MonkeyLang
namespace Outcome
variable {α β : Type} {o : Outcome α} {P P' : α → Heap → Prop} {Q : β → Heap → Prop}
  {E E' : Heap → Prop}

/-- The heap that an outcome leaves behind. -/
def heap? : Outcome α → Option Heap
  | done _ heap => some heap
  | failed _ heap => some heap
  | exhausted => none

/-- A result satisfies `P` with the heap it comes with, and the heap of an error satisfies `E`. -/
def Ends (o : Outcome α) (P : α → Heap → Prop) (E : Heap → Prop) : Prop :=
  match o with
  | done a heap => P a heap
  | failed _ heap => E heap
  | exhausted => True

theorem Ends.andThen {f : α → Heap → Outcome β} (ho : o.Ends P E)
    (hf : ∀ a heap, P a heap → (f a heap).Ends Q E) : (o.andThen f).Ends Q E := by
  cases o with
  | done a heap => exact hf a heap ho
  | failed e heap => exact ho
  | exhausted => trivial

theorem Ends.mono (ho : o.Ends P E) (hP : ∀ a heap, P a heap → P' a heap)
    (hE : ∀ heap, E heap → E' heap) : o.Ends P' E' := by
  cases o with
  | done a heap => exact hP a heap ho
  | failed e heap => exact hE heap ho
  | exhausted => trivial

theorem Ends.of_heap? {heap : Heap} (ho : o.Ends (fun _ => E) E) (h : o.heap? = some heap) :
    E heap := by
  cases o with
  | done a heap => cases h; exact ho
  | failed e heap => cases h; exact ho
  | exhausted => cases h

/-- Two outcomes of one kind: `R` relates results with their heaps, errors are equal, and `H`
relates the heaps of errors. -/
inductive Rel (R : α → Heap → β → Heap → Prop) (H : Heap → Heap → Prop) :
    Outcome α → Outcome β → Prop
  | done {a : α} {b : β} {heap heap' : Heap} : R a heap b heap' →
      Rel R H (.done a heap) (.done b heap')
  | failed {heap heap' : Heap} (e : EvalError) : H heap heap' →
      Rel R H (.failed e heap) (.failed e heap')
  | exhausted : Rel R H .exhausted .exhausted

section Rel
variable {γ δ : Type} {o' : Outcome β} {R R' : α → Heap → β → Heap → Prop}
  {S : γ → Heap → δ → Heap → Prop} {H H' : Heap → Heap → Prop}

theorem Rel.andThen {f : α → Heap → Outcome γ} {g : β → Heap → Outcome δ} (ho : Rel R H o o')
    (hfg : ∀ a heap b heap', R a heap b heap' → Rel S H (f a heap) (g b heap')) :
    Rel S H (o.andThen f) (o'.andThen g) := by
  cases ho with
  | done h => exact hfg _ _ _ _ h
  | failed e h => exact .failed e h
  | exhausted => exact .exhausted

theorem Rel.exists_done {a : α} {heap : Heap} (ho : Rel R H (.done a heap) o') :
    ∃ b heap', o' = .done b heap' ∧ R a heap b heap' := by
  cases ho with
  | done h => exact ⟨_, _, rfl, h⟩

theorem Rel.exists_failed {e : EvalError} {heap : Heap} (ho : Rel R H (.failed e heap) o') :
    ∃ heap', o' = .failed e heap' ∧ H heap heap' := by
  cases ho with
  | failed _ h => exact ⟨_, rfl, h⟩

theorem Rel.mono (ho : Rel R H o o')
    (hR : ∀ a heap b heap', R a heap b heap' → R' a heap b heap')
    (hH : ∀ heap heap', H heap heap' → H' heap heap') : Rel R' H' o o' := by
  cases ho with
  | done h => exact .done (hR _ _ _ _ h)
  | failed e h => exact .failed e (hH _ _ h)
  | exhausted => exact .exhausted

end Rel

/-- Two outcomes of one kind, in a world at or beyond `w`: `H` relates the heaps that they leave
behind, and `P` relates their results. -/
def RelBeyond {α β W : Type} (le : W → W → Prop) (H : W → Heap → Heap → Prop) (w : W)
    (P : W → α → β → Prop) : Outcome α → Outcome β → Prop :=
  Rel (fun a h b k => ∃ w', le w w' ∧ H w' h k ∧ P w' a b) fun h k => ∃ w', le w w' ∧ H w' h k

namespace RelBeyond
variable {γ δ W : Type} {le : W → W → Prop} {H : W → Heap → Heap → Prop} {w w₀ : W} {h k : Heap}
  {o' : Outcome β} {R : W → α → β → Prop} {S : W → γ → δ → Prop}

theorem done [Std.Refl le] {a : α} {b : β} (hh : H w h k) (hab : R w a b) :
    RelBeyond le H w R (.done a h) (.done b k) :=
  Rel.done ⟨w, Std.Refl.refl w, hh, hab⟩

theorem failed [Std.Refl le] (e : EvalError) (hh : H w h k) :
    RelBeyond le H w R (.failed e h) (.failed e k) :=
  Rel.failed e ⟨w, Std.Refl.refl w, hh⟩

theorem extend [IsTrans W le] (hw : le w₀ w) (ho : RelBeyond le H w R o o') :
    RelBeyond le H w₀ R o o' := by
  refine ho.mono ?_ ?_
  · intro a h b k ⟨w', hw', hab⟩
    exact ⟨w', IsTrans.trans _ _ _ hw hw', hab⟩
  · intro h k ⟨w', hw', hh⟩
    exact ⟨w', IsTrans.trans _ _ _ hw hw', hh⟩

theorem andThen [IsTrans W le] {f : α → Heap → Outcome γ} {g : β → Heap → Outcome δ}
    (ho : RelBeyond le H w R o o')
    (hfg : ∀ w', le w w' → ∀ a b h k, R w' a b → H w' h k →
      RelBeyond le H w' S (f a h) (g b k)) :
    RelBeyond le H w S (o.andThen f) (o'.andThen g) := by
  refine Rel.andThen ho ?_
  intro a h b k ⟨w', hw, hh, hab⟩
  exact (hfg w' hw a b h k hab hh).extend hw

theorem map [Std.Refl le] [IsTrans W le] {f : α → γ} {g : β → δ} (ho : RelBeyond le H w R o o')
    (hfg : ∀ w', le w w' → ∀ a b, R w' a b → S w' (f a) (g b)) :
    RelBeyond le H w S (o.map f) (o'.map g) :=
  ho.andThen fun w' hw a b _ _ hab hh => done hh (hfg w' hw a b hab)

theorem exists_world (ho : RelBeyond le H w R o o') (hh : o.heap? = some h) :
    ∃ w' k, le w w' ∧ H w' h k := by
  cases o with
  | done a l =>
    obtain rfl : l = h := Option.some.inj hh
    obtain ⟨-, k, -, w', hw, hhk, -⟩ := Rel.exists_done ho
    exact ⟨w', k, hw, hhk⟩
  | failed e l =>
    obtain rfl : l = h := Option.some.inj hh
    obtain ⟨k, -, w', hw, hhk⟩ := Rel.exists_failed ho
    exact ⟨w', k, hw, hhk⟩
  | exhausted => cases hh

theorem lift [Std.Refl le] {r : Except EvalError α} {R : W → α → α → Prop} (hh : H w h k)
    (hr : ∀ a, r = .ok a → R w a a) : RelBeyond le H w R (.lift r h) (.lift r k) := by
  cases r with
  | ok a => exact done hh (hr a rfl)
  | error e => exact failed e hh

end RelBeyond

/-- An outcome in a world at or beyond `w`: `H` holds of the heap that it leaves behind, and `P` of
its result. -/
def EndsBeyond {α W : Type} (le : W → W → Prop) (H : W → Heap → Prop) (w : W) (P : W → α → Prop)
    (o : Outcome α) : Prop :=
  o.Ends (fun a h => ∃ w', le w w' ∧ H w' h ∧ P w' a) fun h => ∃ w', le w w' ∧ H w' h

namespace EndsBeyond
variable {W : Type} {le : W → W → Prop} {H : W → Heap → Prop} {w w₀ : W} {h : Heap}
  {R : W → α → Prop} {S : W → β → Prop}

theorem done [Std.Refl le] {a : α} (hh : H w h) (ha : R w a) : EndsBeyond le H w R (.done a h) :=
  ⟨w, Std.Refl.refl w, hh, ha⟩

theorem failed [Std.Refl le] (e : EvalError) (hh : H w h) : EndsBeyond le H w R (.failed e h) :=
  ⟨w, Std.Refl.refl w, hh⟩

theorem extend [IsTrans W le] (hw : le w₀ w) (ho : EndsBeyond le H w R o) :
    EndsBeyond le H w₀ R o := by
  refine Ends.mono ho ?_ ?_
  · intro a h ⟨w', hw', hh, ha⟩
    exact ⟨w', IsTrans.trans _ _ _ hw hw', hh, ha⟩
  · intro h ⟨w', hw', hh⟩
    exact ⟨w', IsTrans.trans _ _ _ hw hw', hh⟩

theorem andThen [IsTrans W le] {f : α → Heap → Outcome β} (ho : EndsBeyond le H w R o)
    (hf : ∀ w', le w w' → ∀ a h, R w' a → H w' h → EndsBeyond le H w' S (f a h)) :
    EndsBeyond le H w S (o.andThen f) := by
  refine Ends.andThen ho ?_
  intro a h ⟨w', hw, hh, ha⟩
  exact (hf w' hw a h ha hh).extend hw

theorem map [Std.Refl le] [IsTrans W le] {f : α → β} (ho : EndsBeyond le H w R o)
    (hf : ∀ w', le w w' → ∀ a, R w' a → S w' (f a)) : EndsBeyond le H w S (o.map f) :=
  ho.andThen fun w' hw a _ ha hh => done hh (hf w' hw a ha)

theorem lift [Std.Refl le] {r : Except EvalError α} (hh : H w h)
    (hr : ∀ a, r = .ok a → R w a) : EndsBeyond le H w R (.lift r h) := by
  cases r with
  | ok a => exact done hh (hr a rfl)
  | error e => exact failed e hh

theorem imp {R' : W → α → Prop} (ho : EndsBeyond le H w R o) (hR : ∀ w a, R w a → R' w a) :
    EndsBeyond le H w R' o :=
  Ends.mono ho (fun a _ ⟨w', hw, hh, ha⟩ => ⟨w', hw, hh, hR w' a ha⟩) fun _ hh => hh

theorem of_done {a : α} (ho : EndsBeyond le H w R o) (h' : o = .done a h) :
    ∃ w', le w w' ∧ H w' h ∧ R w' a := by
  rw [h'] at ho
  exact ho

theorem of_heap? (ho : EndsBeyond le H w R o) (h' : o.heap? = some h) :
    ∃ w', le w w' ∧ H w' h :=
  (Ends.mono ho (fun _ _ ⟨w', hw, hh, _⟩ => ⟨w', hw, hh⟩) fun _ hh => hh).of_heap? h'

/-- With a single world there is nothing to say about worlds. -/
theorem ends {r : Unit → Unit → Prop} {E : Heap → Prop} {P : α → Prop} {P' : Unit → α → Prop}
    (ho : EndsBeyond r (fun _ => E) () P' o) (hP : ∀ a, P' () a → P a) :
    o.Ends (fun a heap => P a ∧ E heap) E :=
  ho.mono (fun a _ ⟨_, _, hh, ha⟩ => ⟨hP a ha, hh⟩) fun _ ⟨_, _, hh⟩ => hh

theorem ends_heap {r : Unit → Unit → Prop} {E : Heap → Prop} {P : Unit → α → Prop}
    (ho : EndsBeyond r (fun _ => E) () P o) : o.Ends (fun _ => E) E :=
  ho.mono (fun _ _ ⟨_, _, hh, _⟩ => hh) fun _ ⟨_, _, hh⟩ => hh

end EndsBeyond
end Outcome
end MonkeyLang
