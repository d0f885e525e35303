import MonkeyLang.Syntax.Basic

/-! Programs in which every block that runs in any case is replaced by its statements, wherever it
stands as a statement of its own. -/
namespace MonkeyLang

/-- The statements that an expression stands for as a statement of its own. An empty block stays,
since it has a value and no statements have none. -/
def Expr.alone : Expr → List Stmt
  | .ifThen (.bool true) (s :: ss) => s :: ss
  | e => [.expr e]

mutual
def Expr.spliced : Expr → Expr
  | .name x => .name x
  | .int n => .int n
  | .bool b => .bool b
  | .unary op e => .unary op e.spliced
  | .binary l op r => .binary l.spliced op r.spliced
  | .ifThen c body => .ifThen c.spliced (Stmt.splicedEach body)
  | .ifElse c body other => .ifElse c.spliced (Stmt.splicedEach body) (Stmt.splicedEach other)
  | .function xs body => .function xs (Stmt.splicedEach body)
  | .call f as => .call f.spliced (Expr.splicedEach as)

def Stmt.spliced : Stmt → List Stmt
  | .define x e => [.define x e.spliced]
  | .ret e => [.ret e.spliced]
  | .retBare => [.retBare]
  | .expr e => e.spliced.alone

def Expr.splicedEach : List Expr → List Expr
  | [] => []
  | e :: es => e.spliced :: Expr.splicedEach es

def Stmt.splicedEach : List Stmt → List Stmt
  | [] => []
  | s :: ss => s.spliced ++ Stmt.splicedEach ss
end

theorem Expr.alone_ne_nil (e : Expr) : e.alone ≠ [] := by
  unfold Expr.alone
  split <;> exact List.cons_ne_nil _ _

theorem Stmt.spliced_ne_nil (s : Stmt) : s.spliced ≠ [] := by
  cases s with
  | expr e => exact e.spliced.alone_ne_nil
  | _ => exact List.cons_ne_nil _ _

namespace Stmt
variable {ss : List Stmt}

theorem splicedEach_ne_nil (h : ss ≠ []) : splicedEach ss ≠ [] := by
  obtain ⟨s, ss, rfl⟩ := List.exists_cons_of_ne_nil h
  exact List.append_ne_nil_of_left_ne_nil s.spliced_ne_nil _

theorem splicedEach_append (ss us : List Stmt) :
    splicedEach (ss ++ us) = splicedEach ss ++ splicedEach us := by
  induction ss with
  | nil => rfl
  | cons s ss ih => rw [List.cons_append, splicedEach, splicedEach, ih, List.append_assoc]

theorem spliced_block (h : ss ≠ []) : (expr (.ifThen (.bool true) ss)).spliced = splicedEach ss := by
  obtain ⟨s, us, hs⟩ := List.exists_cons_of_ne_nil (splicedEach_ne_nil h)
  rw [spliced, Expr.spliced, Expr.spliced, hs]
  rfl

/-- A block and its statements are spliced into the same. -/
theorem splicedEach_block (h : ss ≠ []) (before after : List Stmt) :
    splicedEach (before ++ .expr (.ifThen (.bool true) ss) :: after) =
      splicedEach (before ++ (ss ++ after)) := by
  rw [splicedEach_append, splicedEach_append, splicedEach_append, splicedEach, spliced_block h]

end Stmt
end MonkeyLang
