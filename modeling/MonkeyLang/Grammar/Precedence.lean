import MonkeyLang.Syntax.Basic

/-! How tightly operators bind. -/
namespace MonkeyLang

/-- The binding levels, from the loosest to the tightest. -/
inductive Precedence
  | lowest | equality | comparison | sum | product | unary | call
  deriving DecidableEq

def Precedence.rank : Precedence → Nat
  | lowest => 0
  | equality => 1
  | comparison => 2
  | sum => 3
  | product => 4
  | unary => 5
  | call => 6

instance : LT Precedence := ⟨fun p q => p.rank < q.rank⟩

instance (p q : Precedence) : Decidable (p < q) := inferInstanceAs (Decidable (p.rank < q.rank))

def InfixOp.precedence : InfixOp → Precedence
  | equal | notEqual => .equality
  | less | greater => .comparison
  | plus | minus => .sum
  | times | divide => .product

end MonkeyLang
