import MonkeyLang.Syntax.Basic

/-! Equality of expressions and statements is decidable. -/
namespace MonkeyLang

mutual
def Expr.beq : Expr → Expr → Bool
  | .name x, .name y => x == y
  | .int m, .int n => m == n
  | .bool a, .bool b => a == b
  | .unary o e, .unary p f => o == p && e.beq f
  | .binary l o r, .binary m p s => o == p && l.beq m && r.beq s
  | .ifThen c b, .ifThen d e => c.beq d && Stmt.beqEach b e
  | .ifElse c b o, .ifElse d e p => c.beq d && Stmt.beqEach b e && Stmt.beqEach o p
  | .function xs b, .function ys c => xs == ys && Stmt.beqEach b c
  | .call f as, .call g bs => f.beq g && Expr.beqEach as bs
  | _, _ => false

def Stmt.beq : Stmt → Stmt → Bool
  | .define x e, .define y f => x == y && e.beq f
  | .ret e, .ret f => e.beq f
  | .retBare, .retBare => true
  | .expr e, .expr f => e.beq f
  | _, _ => false

def Expr.beqEach : List Expr → List Expr → Bool
  | [], [] => true
  | e :: es, f :: fs => e.beq f && Expr.beqEach es fs
  | _, _ => false

def Stmt.beqEach : List Stmt → List Stmt → Bool
  | [], [] => true
  | s :: ss, t :: ts => s.beq t && Stmt.beqEach ss ts
  | _, _ => false
end

mutual
theorem Expr.beq_iff : (e f : Expr) → (e.beq f = true ↔ e = f)
  | .name _, f => by cases f <;> simp [Expr.beq]
  | .int _, f => by cases f <;> simp [Expr.beq]
  | .bool _, f => by cases f <;> simp [Expr.beq]
  | .unary _ e, f => by cases f <;> simp [Expr.beq, Expr.beq_iff e]
  | .binary l _ r, f => by
    cases f <;> simp [Expr.beq, Expr.beq_iff l, Expr.beq_iff r, and_assoc, and_left_comm]
  | .ifThen c b, f => by cases f <;> simp [Expr.beq, Expr.beq_iff c, Stmt.beqEach_iff b]
  | .ifElse c b o, f => by
    cases f <;> simp [Expr.beq, Expr.beq_iff c, Stmt.beqEach_iff b, Stmt.beqEach_iff o, and_assoc]
  | .function _ b, f => by cases f <;> simp [Expr.beq, Stmt.beqEach_iff b]
  | .call g as, f => by cases f <;> simp [Expr.beq, Expr.beq_iff g, Expr.beqEach_iff as]

theorem Stmt.beq_iff : (s t : Stmt) → (s.beq t = true ↔ s = t)
  | .define _ e, t => by cases t <;> simp [Stmt.beq, Expr.beq_iff e]
  | .ret e, t => by cases t <;> simp [Stmt.beq, Expr.beq_iff e]
  | .retBare, t => by cases t <;> simp [Stmt.beq]
  | .expr e, t => by cases t <;> simp [Stmt.beq, Expr.beq_iff e]

theorem Expr.beqEach_iff : (es fs : List Expr) → (Expr.beqEach es fs = true ↔ es = fs)
  | [], fs => by cases fs <;> simp [Expr.beqEach]
  | e :: es, fs => by cases fs <;> simp [Expr.beqEach, Expr.beq_iff e, Expr.beqEach_iff es]

theorem Stmt.beqEach_iff : (ss ts : List Stmt) → (Stmt.beqEach ss ts = true ↔ ss = ts)
  | [], ts => by cases ts <;> simp [Stmt.beqEach]
  | s :: ss, ts => by cases ts <;> simp [Stmt.beqEach, Stmt.beq_iff s, Stmt.beqEach_iff ss]
end

instance : DecidableEq Expr := fun e f => decidable_of_iff _ (Expr.beq_iff e f)

instance : DecidableEq Stmt := fun s t => decidable_of_iff _ (Stmt.beq_iff s t)

end MonkeyLang
