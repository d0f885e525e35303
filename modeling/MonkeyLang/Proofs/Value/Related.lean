import MonkeyLang.Proofs.Value.Operators

/-! Values that are equal up to a relation of their functions. Operators cannot tell them apart. -/
namespace MonkeyLang

theorem rel_mono {α β : Type} {R S : α → β → Prop} (hRS : ∀ a b, R a b → S a b)
    {o : Option α} {o' : Option β} (h : Option.Rel R o o') : Option.Rel S o o' := by
  cases h with
  | some hab => exact .some (hRS _ _ hab)
  | none => exact .none

theorem isSome_eq_of_rel {α β : Type} {R : α → β → Prop} {o : Option α} {o' : Option β}
    (h : Option.Rel R o o') : o.isSome = o'.isSome := by
  cases h <;> rfl

namespace Value

/-- Two values of one kind: functions related by `C`, returned values again related, and equal
otherwise. -/
inductive Rel (C : Closure → Closure → Prop) : Value → Value → Prop
  | int (n : Int64) : Rel C (.int n) (.int n)
  | bool (b : Bool) : Rel C (.bool b) (.bool b)
  | null : Rel C .null .null
  | function {c d : Closure} : C c d → Rel C (.function c) (.function d)
  | returned {v w : Value} : Rel C v w → Rel C (.returned v) (.returned w)
  | error (e : EvalError) : Rel C (.error e) (.error e)

namespace Rel
variable {C D : Closure → Closure → Prop} {v w v' w' : Value}

theorem mono (h : Rel C v w) (hCD : ∀ c d, C c d → D c d) : Rel D v w := by
  induction h with
  | int n => exact .int n
  | bool b => exact .bool b
  | null => exact .null
  | function h => exact .function (hCD _ _ h)
  | returned _ ih => exact .returned ih
  | error e => exact .error e

theorem of_isScalar (h : v.IsScalar) : Rel C v v := by
  cases v with
  | int n => exact .int n
  | bool b => exact .bool b
  | _ => exact h.elim

theorem type_eq (h : Rel C v w) : w.type = v.type := by
  cases h <;> rfl

theorem truthy_eq (h : Rel C v w) : w.truthy = v.truthy := by
  cases h <;> rfl

theorem isReturned_eq (h : Rel C v w) : w.isReturned = v.isReturned := by
  cases h <;> rfl

theorem arrive (h : Rel C v w) : Rel C v.arrive w.arrive := by
  cases h with
  | returned h => exact h
  | int n => exact .int n
  | bool b => exact .bool b
  | null => exact .null
  | function h => exact .function h
  | error e => exact .error e

theorem unary_apply_eq (h : Rel C v w) (op : PrefixOp) : op.apply w = op.apply v := by
  cases h <;> cases op <;> rfl

theorem identical_eq (hC : ∀ c d c' d', C c d → C c' d' → (d.id = d'.id ↔ c.id = c'.id))
    (h : Rel C v w) (h' : Rel C v' w') : w.identical w' = v.identical v' := by
  cases h with
  | function hc =>
    cases h' with
    | function hc' =>
      rw [Bool.eq_iff_iff]
      simpa only [identical, beq_iff_eq] using hC _ _ _ _ hc hc'
    | _ => rfl
  | _ => cases h' <;> rfl

theorem binary_apply_eq (hC : ∀ c d c' d', C c d → C c' d' → (d.id = d'.id ↔ c.id = c'.id))
    (h : Rel C v w) (h' : Rel C v' w') (op : InfixOp) : op.apply w w' = op.apply v v' := by
  have hi := identical_eq hC h h'
  have ht := h.type_eq
  have ht' := h'.type_eq
  cases h <;> cases h' <;> simp only [InfixOp.apply, hi, ht, ht']

end Rel
end Value
end MonkeyLang
