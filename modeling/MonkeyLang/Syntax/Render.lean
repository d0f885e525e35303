import MonkeyLang.Decimal
import MonkeyLang.Syntax.Basic

/-! The text of a program. Every operation stands in parentheses of its own, so no reader needs
to know which operator binds tighter. -/
namespace MonkeyLang

/-- A block in braces, given the text of its statements. -/
def braced : List Stmt → String → String
  | [], _ => "\x7b \x7d"
  | _ :: _, inner => "\x7b " ++ inner ++ " \x7d"

mutual
def Expr.render : Expr → String
  | .name x => x
  | .int n => Decimal.write n
  | .bool true => Keyword.trueKw.text
  | .bool false => Keyword.falseKw.text
  | .unary op e => "(" ++ op.symbol.text ++ e.render ++ ")"
  | .binary l op r => "(" ++ l.render ++ " " ++ op.symbol.text ++ " " ++ r.render ++ ")"
  | .ifThen c body =>
    "if (" ++ c.render ++ ") " ++ braced body ("; ".intercalate (Stmt.renderEach body))
  | .ifElse c body other =>
    "if (" ++ c.render ++ ") " ++ braced body ("; ".intercalate (Stmt.renderEach body)) ++
      " else " ++ braced other ("; ".intercalate (Stmt.renderEach other))
  | .function xs body =>
    "fn(" ++ ", ".intercalate xs ++ ") " ++ braced body ("; ".intercalate (Stmt.renderEach body))
  | .call f as => f.render ++ "(" ++ ", ".intercalate (Expr.renderEach as) ++ ")"

def Stmt.render : Stmt → String
  | .define x e => "let " ++ x ++ " = " ++ e.render
  | .ret e => "return " ++ e.render
  | .retBare => "return"
  | .expr e => e.render

def Expr.renderEach : List Expr → List String
  | [] => []
  | e :: es => e.render :: Expr.renderEach es

def Stmt.renderEach : List Stmt → List String
  | [] => []
  | s :: ss => s.render :: Stmt.renderEach ss
end

/-- The text of a program. -/
def Program.render (p : Program) : String := "; ".intercalate (Stmt.renderEach p)

@[simp] theorem Expr.renderEach_eq_map (es : List Expr) : Expr.renderEach es = es.map Expr.render := by
  induction es with
  | nil => rfl
  | cons e es ih => simp [Expr.renderEach, ih]

@[simp] theorem Stmt.renderEach_eq_map (ss : List Stmt) : Stmt.renderEach ss = ss.map Stmt.render := by
  induction ss with
  | nil => rfl
  | cons s ss ih => simp [Stmt.renderEach, ih]

end MonkeyLang
