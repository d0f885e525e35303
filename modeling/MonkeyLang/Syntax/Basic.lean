import MonkeyLang.Token.Basic

/-! Expressions, statements and programs. -/
namespace MonkeyLang

inductive PrefixOp
  | negate | not
  deriving DecidableEq

inductive InfixOp
  | equal | notEqual | less | greater | plus | minus | times | divide
  deriving DecidableEq

def PrefixOp.symbol : PrefixOp → Symbol
  | negate => .minus
  | not => .bang

def InfixOp.symbol : InfixOp → Symbol
  | equal => .equalEqual
  | notEqual => .bangEqual
  | less => .less
  | greater => .greater
  | plus => .plus
  | minus => .minus
  | times => .star
  | divide => .slash

/-- The prefix operator that a symbol denotes where an operand may start. -/
def PrefixOp.ofSymbol? : Symbol → Option PrefixOp
  | .minus => some negate
  | .bang => some not
  | _ => none

/-- The infix operator that a symbol denotes after an operand. -/
def InfixOp.ofSymbol? : Symbol → Option InfixOp
  | .equalEqual => some equal
  | .bangEqual => some notEqual
  | .less => some less
  | .greater => some greater
  | .plus => some plus
  | .minus => some minus
  | .star => some times
  | .slash => some divide
  | _ => none

@[simp] theorem PrefixOp.ofSymbol?_symbol (op : PrefixOp) : ofSymbol? op.symbol = some op := by
  cases op <;> rfl

@[simp] theorem InfixOp.ofSymbol?_symbol (op : InfixOp) : ofSymbol? op.symbol = some op := by
  cases op <;> rfl

theorem PrefixOp.symbol_of_ofSymbol? {s : Symbol} {op : PrefixOp} (h : ofSymbol? s = some op) :
    op.symbol = s := by
  cases s <;> simp [ofSymbol?] at h <;> subst h <;> rfl

theorem InfixOp.symbol_of_ofSymbol? {s : Symbol} {op : InfixOp} (h : ofSymbol? s = some op) :
    op.symbol = s := by
  cases s <;> simp [ofSymbol?] at h <;> subst h <;> rfl

mutual
/-- An expression. Blocks are lists of statements, and a conditional with two blocks is told
apart from one whose second block is absent. -/
inductive Expr
  | name (x : String)
  | int (n : Int64)
  | bool (b : Bool)
  | unary (op : PrefixOp) (operand : Expr)
  | binary (left : Expr) (op : InfixOp) (right : Expr)
  | ifThen (condition : Expr) (body : List Stmt)
  | ifElse (condition : Expr) (body other : List Stmt)
  | function (parameters : List String) (body : List Stmt)
  | call (callee : Expr) (arguments : List Expr)

/-- A statement. A `return` may stand without a value. -/
inductive Stmt
  | define (x : String) (value : Expr)
  | ret (value : Expr)
  | retBare
  | expr (e : Expr)
end

abbrev Program := List Stmt

end MonkeyLang
