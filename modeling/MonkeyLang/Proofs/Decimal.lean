import MonkeyLang.Decimal
import MonkeyLang.Proofs.Token.Written

/-! Numerals and the integers that they denote. -/
namespace MonkeyLang.Decimal

theorem read?_eq_some_iff {digits : String} {n : Int64} : read? digits = some n ↔
    Nat.ofDigitChars 10 digits.toList 0 ≤ largest ∧
      n = Int64.ofNat (Nat.ofDigitChars 10 digits.toList 0) := by
  by_cases h : Nat.ofDigitChars 10 digits.toList 0 ≤ largest
  · simp [read?, h, eq_comm]
  · simp [read?, h]

theorem toInt_ofNat {m : Nat} (h : m ≤ largest) : (Int64.ofNat m).toInt = m :=
  Int64.toInt_ofNat_of_lt (Nat.lt_succ_of_le h)

theorem nonneg_of_read? {digits : String} {n : Int64} (h : read? digits = some n) : 0 ≤ n := by
  obtain ⟨hm, rfl⟩ := read?_eq_some_iff.mp h
  rw [Int64.le_iff_toInt_le, toInt_ofNat hm]
  simp

/-- An integer that is not negative is written as a natural number. -/
theorem exists_write {n : Int64} (h : 0 ≤ n) :
    ∃ m : Nat, m ≤ largest ∧ n = Int64.ofNat m ∧ write n = m.repr := by
  rw [Int64.le_iff_toInt_le] at h
  obtain ⟨m, hm⟩ := Int.eq_ofNat_of_zero_le h
  have hn := Int64.toInt_lt n
  have hle : m ≤ largest := by
    unfold largest
    omega
  refine ⟨m, hle, ?_, ?_⟩
  · rw [← Int64.toInt_inj, toInt_ofNat hle, hm]
  · unfold write
    rw [hm]

/-- Every integer but the least one has an opposite. -/
theorem toInt_neg {n : Int64} (hn : n ≠ Int64.minValue) : (-n).toInt = -n.toInt := by
  have hle := Int64.le_toInt n
  have hlt := Int64.toInt_lt n
  have hne : n.toInt ≠ -2 ^ 63 := fun h => hn (Int64.toInt_inj.mp h)
  rw [Int64.toInt_neg, Int.bmod_eq_of_le] <;> omega

theorem neg_nonneg {n : Int64} (h : n < 0) (hn : n ≠ Int64.minValue) : 0 ≤ -n := by
  have hneg : n.toInt < 0 := Int64.lt_iff_toInt_lt.mp h
  rw [Int64.le_iff_toInt_le, toInt_neg hn, Int64.toInt_zero]
  omega

theorem read?_write {n : Int64} (h : 0 ≤ n) : read? (write n) = some n := by
  obtain ⟨m, hm, rfl, hw⟩ := exists_write h
  rw [hw, read?_eq_some_iff, Nat.toList_repr, Nat.ofDigitChars_ten_toDigits]
  exact ⟨hm, rfl⟩

theorem isNumeral_repr (m : Nat) : IsNumeral m.repr := by
  refine ⟨Nat.repr_ne_empty, ?_⟩
  intro c hc
  rw [Nat.toList_repr] at hc
  exact Nat.isDigit_of_mem_toDigits (by decide) (by decide) hc

theorem isNumeral_write {n : Int64} (h : 0 ≤ n) : IsNumeral (write n) := by
  obtain ⟨m, -, -, hw⟩ := exists_write h
  rw [hw]
  exact isNumeral_repr m

end MonkeyLang.Decimal
