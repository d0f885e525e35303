import MonkeyLang.Syntax.Basic

/-! What becomes of an expression whose text is read again. A negative integer is read as a minus
sign and an integer. Where the integer is called, the sign stands in front of the whole chain of
calls, so that what is negated is the result of the last one. -/
namespace MonkeyLang

/-- Whether the text of an expression starts with the sign of a negative integer. -/
def Expr.signed : Expr → Bool
  | .int n => n < 0
  | .call f _ => f.signed
  | _ => false

/-- An expression with a minus sign in front, if there is one. -/
def Expr.withSign (sign : Bool) (e : Expr) : Expr :=
  match sign with
  | true => .unary .negate e
  | false => e

mutual
/-- The expression that is read behind the sign with which the text of an expression starts, or the
expression that its whole text is read as if there is no sign. -/
def Expr.unsigned : Expr → Expr
  | .name x => .name x
  | .int n => .int (if n < 0 then -n else n)
  | .bool b => .bool b
  | .unary op e => .unary op (e.unsigned.withSign e.signed)
  | .binary l op r => .binary (l.unsigned.withSign l.signed) op (r.unsigned.withSign r.signed)
  | .ifThen c body => .ifThen (c.unsigned.withSign c.signed) (Stmt.rereadEach body)
  | .ifElse c body other =>
    .ifElse (c.unsigned.withSign c.signed) (Stmt.rereadEach body) (Stmt.rereadEach other)
  | .function xs body => .function xs (Stmt.rereadEach body)
  | .call f as => .call f.unsigned (Expr.rereadEach as)

def Stmt.reread : Stmt → Stmt
  | .define x e => .define x (e.unsigned.withSign e.signed)
  | .ret e => .ret (e.unsigned.withSign e.signed)
  | .retBare => .retBare
  | .expr e => .expr (e.unsigned.withSign e.signed)

def Expr.rereadEach : List Expr → List Expr
  | [] => []
  | e :: es => e.unsigned.withSign e.signed :: Expr.rereadEach es

def Stmt.rereadEach : List Stmt → List Stmt
  | [] => []
  | s :: ss => s.reread :: Stmt.rereadEach ss
end

/-- The expression that the text of an expression is read as. -/
def Expr.reread (e : Expr) : Expr := e.unsigned.withSign e.signed

/-- The program that the text of a program is read as. -/
def Program.reread (p : Program) : Program := Stmt.rereadEach p

@[simp] theorem Expr.rereadEach_eq_map (es : List Expr) :
    Expr.rereadEach es = es.map Expr.reread := by
  induction es with
  | nil => rfl
  | cons e es ih => rw [Expr.rereadEach, ih, List.map_cons, Expr.reread]

@[simp] theorem Stmt.rereadEach_eq_map (ss : List Stmt) :
    Stmt.rereadEach ss = ss.map Stmt.reread := by
  induction ss with
  | nil => rfl
  | cons s ss ih => rw [Stmt.rereadEach, ih, List.map_cons]

theorem Expr.reread_of_signed {e : Expr} (h : e.signed = true) :
    e.reread = .unary .negate e.unsigned := by
  rw [Expr.reread, h, Expr.withSign]

theorem Expr.reread_of_not_signed {e : Expr} (h : e.signed = false) : e.reread = e.unsigned := by
  rw [Expr.reread, h, Expr.withSign]

end MonkeyLang
