import MonkeyLang.Syntax.Basic

/-! Fragments of programs, and the parts of them that are evaluated in place. -/
namespace MonkeyLang

/-- A piece of a program. -/
inductive Fragment
  | expr (e : Expr)
  | exprs (es : List Expr)
  | stmt (s : Stmt)
  | stmts (ss : List Stmt)

/-- A fragment is an immediate part of another one, and evaluated where that is. A returned value
may leave a statement or a block if it may leave what they stand in, and it may leave no operand.
The body of a function literal is not evaluated in place. -/
inductive Fragment.Part (leaving : Bool) : Bool → Fragment → Fragment → Prop
  | operand {op e} : Part leaving false (.expr e) (.expr (.unary op e))
  | left {l op r} : Part leaving false (.expr l) (.expr (.binary l op r))
  | right {l op r} : Part leaving false (.expr r) (.expr (.binary l op r))
  | ifCondition {c body} : Part leaving false (.expr c) (.expr (.ifThen c body))
  | ifBody {c body} : Part leaving leaving (.stmts body) (.expr (.ifThen c body))
  | elseCondition {c body other} : Part leaving false (.expr c) (.expr (.ifElse c body other))
  | elseBody {c body other} : Part leaving leaving (.stmts body) (.expr (.ifElse c body other))
  | elseOther {c body other} : Part leaving leaving (.stmts other) (.expr (.ifElse c body other))
  | callee {f as} : Part leaving false (.expr f) (.expr (.call f as))
  | arguments {f as} : Part leaving false (.exprs as) (.expr (.call f as))
  | firstExpr {e es} : Part leaving false (.expr e) (.exprs (e :: es))
  | nextExprs {e es} : Part leaving false (.exprs es) (.exprs (e :: es))
  | defined {x e} : Part leaving false (.expr e) (.stmt (.define x e))
  | returned {e} : Part leaving false (.expr e) (.stmt (.ret e))
  | alone {e} : Part leaving leaving (.expr e) (.stmt (.expr e))
  | firstStmt {s ss} : Part leaving leaving (.stmt s) (.stmts (s :: ss))
  | nextStmts {s ss} : Part leaving leaving (.stmts ss) (.stmts (s :: ss))

end MonkeyLang
