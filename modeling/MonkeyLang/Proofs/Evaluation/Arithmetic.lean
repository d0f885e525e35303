import Mathlib.Data.Int.ModEq
import MonkeyLang.Session

/-! Arithmetic modulo `2 ^ 64`. Taking an integer to 64 bits respects negation, sums, differences
and products, so wrapping around at each operator comes to wrapping the exact value once. -/
namespace MonkeyLang

/-- `n` is the one integer of 64 bits that is congruent to `a`. -/
def Wraps (a : Int) (n : Int64) : Prop :=
  ∀ m : Int, m = n.toInt ↔ -2 ^ 63 ≤ m ∧ m < 2 ^ 63 ∧ m ≡ a [ZMOD 2 ^ 64]

theorem wraps_ofInt (a : Int) : Wraps a (.ofInt a) := by
  intro m
  have hdvd : (2 ^ 64 : Int) ∣ m - a ↔ m ≡ a [ZMOD 2 ^ 64] := by
    rw [Int.modEq_comm, Int.modEq_iff_dvd]
  calc m = (Int64.ofInt a).toInt
    _ ↔ a.bmod Int64.size = m := by rw [Int64.toInt_ofInt, eq_comm]
    _ ↔ -2 ^ 63 ≤ m ∧ m < 2 ^ 63 ∧ (2 ^ 64 : Int) ∣ m - a := Int.bmod_eq_iff (by decide)
    _ ↔ -2 ^ 63 ≤ m ∧ m < 2 ^ 63 ∧ m ≡ a [ZMOD 2 ^ 64] := by rw [hdvd]

/-- A quotient is the exact one, truncated toward zero and wrapped around. -/
theorem wraps_div (a b : Int64) : Wraps (a.toInt.tdiv b.toInt) (a / b) := by
  have : Int64.ofInt (a.toInt.tdiv b.toInt) = a / b := by
    rw [Int64.ofInt_eq_iff_bmod_eq_toInt, Int64.toInt_div]
  exact this ▸ wraps_ofInt _

/-- Only one quotient leaves the range of 64 bits. -/
theorem toInt_div_ne_iff (a b : Int64) :
    (a / b).toInt ≠ a.toInt.tdiv b.toInt ↔ a = Int64.minValue ∧ b = -1 := by
  constructor
  · intro h
    have ha : a = Int64.minValue := by
      by_contra ha
      exact h (Int64.toInt_div_of_ne_left a b ha)
    have hb : b = -1 := by
      by_contra hb
      exact h (Int64.toInt_div_of_ne_right a b hb)
    exact ⟨ha, hb⟩
  · rintro ⟨rfl, rfl⟩
    decide

/-- An expression of integers, names bound to integers, negations, sums, differences and products,
with its value in exact arithmetic. -/
inductive Expr.Exact (heap : Heap) (scope : FrameId) : Expr → Int → Prop
  | name {x : String} {n : Int64} : heap.get? scope x = some (.int n) →
      Exact heap scope (.name x) n.toInt
  | int (n : Int64) : Exact heap scope (.int n) n.toInt
  | negate {e : Expr} {a : Int} : Exact heap scope e a →
      Exact heap scope (.unary .negate e) (-a)
  | plus {l r : Expr} {a b : Int} : Exact heap scope l a → Exact heap scope r b →
      Exact heap scope (.binary l .plus r) (a + b)
  | minus {l r : Expr} {a b : Int} : Exact heap scope l a → Exact heap scope r b →
      Exact heap scope (.binary l .minus r) (a - b)
  | times {l r : Expr} {a b : Int} : Exact heap scope l a → Exact heap scope r b →
      Exact heap scope (.binary l .times r) (a * b)

namespace Expr
variable {call : Call} {scope : FrameId} {heap heap₁ heap₂ : Heap} {l r : Expr}

/-- An operator on operands that evaluate to integers. -/
theorem eval_binary_ints {a b : Int64} (hl : l.eval call scope heap = .done (.int a) heap₁)
    (hr : r.eval call scope heap₁ = .done (.int b) heap₂) (op : InfixOp) :
    (Expr.binary l op r).eval call scope heap = .lift (op.applyInts a b) heap₂ := by
  rw [eval, hl, Outcome.andThen_done, hr, Outcome.andThen_done, InfixOp.apply]

/-- The value of such an expression is its exact one, wrapped around once at the end. -/
theorem Exact.eval_eq {e : Expr} {a : Int} (h : e.Exact heap scope a) :
    e.eval call scope heap = .done (.int (.ofInt a)) heap := by
  induction h with
  | name hx => rw [eval, hx, Int64.ofInt_toInt]
  | int n => rw [eval, Int64.ofInt_toInt]
  | negate _ ih => rw [eval, ih, Outcome.andThen_done, Int64.ofInt_neg]; rfl
  | plus _ _ ihl ihr => rw [eval_binary_ints ihl ihr, Int64.ofInt_add]; rfl
  | minus _ _ ihl ihr => rw [eval_binary_ints ihl ihr, Int64.ofInt_sub]; rfl
  | times _ _ ihl ihr => rw [eval_binary_ints ihl ihr, Int64.ofInt_mul]; rfl

theorem eval_divide {a b : Int64} (hl : l.eval call scope heap = .done (.int a) heap₁)
    (hr : r.eval call scope heap₁ = .done (.int b) heap₂) :
    (Expr.binary l .divide r).eval call scope heap =
      if b = 0 then .failed .divisionByZero heap₂ else .done (.int (a / b)) heap₂ := by
  rw [eval_binary_ints hl hr, InfixOp.applyInts]
  split <;> rfl

/-- Integer arithmetic is exact modulo `2 ^ 64`. Negations, sums, differences and products of any
size always succeed, and wrapping around at every operator gives the exact value wrapped around
once. A quotient of two integers fails for the divisor zero only; it is truncated toward zero,
and wrapping around changes none but the quotient of the least integer by `-1`. -/
theorem eval_arithmetic (call : Call) (scope : FrameId) (heap : Heap) :
    (∀ (e : Expr) (a : Int), e.Exact heap scope a →
      ∃ n : Int64, e.eval call scope heap = .done (.int n) heap ∧ Wraps a n) ∧
    ∀ (l r : Expr) (a b : Int64) (heap₁ heap₂ : Heap),
      l.eval call scope heap = .done (.int a) heap₁ →
      r.eval call scope heap₁ = .done (.int b) heap₂ →
      ((Expr.binary l .divide r).eval call scope heap = .failed .divisionByZero heap₂ ↔ b = 0) ∧
      (b ≠ 0 → ∃ q : Int64, (Expr.binary l .divide r).eval call scope heap = .done (.int q) heap₂ ∧
        Wraps (a.toInt.tdiv b.toInt) q ∧
        (q.toInt ≠ a.toInt.tdiv b.toInt ↔ a = Int64.minValue ∧ b = -1)) := by
  refine ⟨fun e a h => ⟨.ofInt a, h.eval_eq, wraps_ofInt a⟩, ?_⟩
  intro l r a b heap₁ heap₂ hl hr
  rw [eval_divide hl hr]
  constructor
  · constructor
    · intro h
      by_contra hb
      rw [if_neg hb] at h
      cases h
    · intro hb
      rw [if_pos hb]
  · intro hb
    exact ⟨a / b, if_neg hb, wraps_div a b, toInt_div_ne_iff a b⟩

/-- A scope in which `x` is bound to the least integer. -/
def leastHeap : Heap := Session.start.heap.set Session.start.scope "x" (.int Int64.minValue)

/-- With `x` the least integer, `-x * (x - 1)` wraps around at each operator, and `x / -1` is the
quotient that overflows. -/
theorem eval_arithmetic_least :
    (∃ n : Int64, (Expr.binary (.unary .negate (.name "x")) .times
          (.binary (.name "x") .minus (.int 1))).eval (Closure.call 0) Session.start.scope leastHeap =
        .done (.int n) leastHeap ∧ Wraps (-(-2 ^ 63) * (-2 ^ 63 - 1)) n) ∧
      ∃ q : Int64, (Expr.binary (.name "x") .divide (.int (-1))).eval (Closure.call 0)
          Session.start.scope leastHeap = .done (.int q) leastHeap ∧
        Wraps ((-2 ^ 63 : Int).tdiv (-1)) q ∧ q.toInt ≠ (-2 ^ 63 : Int).tdiv (-1) := by
  have hx : leastHeap.get? Session.start.scope "x" = some (.int Int64.minValue) := by
    with_unfolding_all rfl
  have heval : (Expr.name "x").eval (Closure.call 0) Session.start.scope leastHeap =
      .done (.int Int64.minValue) leastHeap := by
    rw [eval, hx]
  obtain ⟨hexact, hdivide⟩ := eval_arithmetic (Closure.call 0) Session.start.scope leastHeap
  constructor
  · exact hexact _ _ (.times (.negate (.name hx)) (.minus (.name hx) (.int 1)))
  · obtain ⟨-, hquotient⟩ := hdivide _ (.int (-1)) _ _ _ _ heval rfl
    obtain ⟨q, hq, hwraps, hne⟩ := hquotient (by decide)
    exact ⟨q, hq, hwraps, hne.2 ⟨rfl, rfl⟩⟩

end Expr
end MonkeyLang
