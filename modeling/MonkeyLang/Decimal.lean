/-! Decimal numerals of signed 64-bit integers. -/
namespace MonkeyLang.Decimal

/-- The fewest digits that denote `n`, after a minus sign if `n` is negative. -/
def write (n : Int64) : String :=
  match n.toInt with
  | .ofNat m => m.repr
  | .negSucc m => "-" ++ (m + 1).repr

/-- The largest integer. -/
def largest : Nat := 9223372036854775807

/-- The integer that a run of digits denotes, unless it exceeds the largest one. -/
def read? (digits : String) : Option Int64 :=
  let n := Nat.ofDigitChars 10 digits.toList 0
  if n ≤ largest then some (Int64.ofNat n) else none

end MonkeyLang.Decimal
