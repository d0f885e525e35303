import MonkeyLang.Value.Operators

/-! What operators give: an integer or a boolean, if anything. -/
namespace MonkeyLang

/-- An integer or a boolean. -/
def Value.IsScalar : Value → Prop
  | .int _ => True
  | .bool _ => True
  | _ => False

theorem PrefixOp.isScalar_of_apply {op : PrefixOp} {v w : Value} (h : op.apply v = .ok w) :
    w.IsScalar := by
  cases op <;> cases v <;> cases h <;> trivial

theorem InfixOp.isScalar_of_applyInts {op : InfixOp} {a b : Int64} {w : Value}
    (h : op.applyInts a b = .ok w) : w.IsScalar := by
  cases op with
  | divide =>
    rw [applyInts] at h
    split at h <;> cases h
    trivial
  | _ => cases h; trivial

theorem InfixOp.isScalar_of_apply {op : InfixOp} {v w u : Value} (h : op.apply v w = .ok u) :
    u.IsScalar := by
  unfold apply at h
  split at h
  · exact isScalar_of_applyInts h
  · split at h <;> cases h <;> trivial

end MonkeyLang
