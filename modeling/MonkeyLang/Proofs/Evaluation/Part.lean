import Mathlib.Logic.Relation
import MonkeyLang.Proofs.Evaluation.Outcome
import MonkeyLang.Session

/-! The parts of a run: the evaluations, statements, blocks and calls nested in it at any depth, as
far as it gets to them. A run has its parts also when it does not end. -/
namespace MonkeyLang

/-- Something to evaluate. -/
inductive Activity
  | expr (scope : FrameId) (e : Expr)
  | exprs (scope : FrameId) (es : List Expr)
  | stmt (scope : FrameId) (s : Stmt)
  | stmts (scope : FrameId) (ss : List Stmt) (last : Value)
  | call (c : Closure) (args : List Value)

/-- An activity in a heap, in which at most `depth` calls are open at a time. -/
structure Run where
  depth : Nat
  activity : Activity
  heap : Heap

namespace Run

/-- The outcome of a run. Its result is one value, or one for each of several expressions. -/
def outcome (r : Run) : Outcome (List Value) :=
  match r.activity with
  | .expr scope e => (e.eval (Closure.call r.depth) scope r.heap).map ([·])
  | .exprs scope es => Expr.evalEach (Closure.call r.depth) scope es r.heap
  | .stmt scope s => (s.exec (Closure.call r.depth) scope r.heap).map ([·])
  | .stmts scope ss last => (Stmt.execEach (Closure.call r.depth) scope ss last r.heap).map ([·])
  | .call c args => (Closure.call r.depth c args r.heap).map ([·])

/-- The run of a program in a session. -/
def ofProgram (depth : Nat) (s : Session) (p : Program) : Run :=
  ⟨depth, .stmts s.scope p .null, s.heap⟩

/-- The first run is an immediate part of the second. -/
inductive Part : Run → Run → Prop
  | operand {n s op e h} : Part ⟨n, .expr s e, h⟩ ⟨n, .expr s (.unary op e), h⟩
  | left {n s l op r h} : Part ⟨n, .expr s l, h⟩ ⟨n, .expr s (.binary l op r), h⟩
  | right {n s l op r h v k} : l.eval (Closure.call n) s h = .done v k →
      Part ⟨n, .expr s r, k⟩ ⟨n, .expr s (.binary l op r), h⟩
  | ifCondition {n s c body h} : Part ⟨n, .expr s c, h⟩ ⟨n, .expr s (.ifThen c body), h⟩
  | ifBody {n s c body h v k} : c.eval (Closure.call n) s h = .done v k → v.truthy = true →
      Part ⟨n, .stmts s body .null, k⟩ ⟨n, .expr s (.ifThen c body), h⟩
  | elseCondition {n s c body other h} :
      Part ⟨n, .expr s c, h⟩ ⟨n, .expr s (.ifElse c body other), h⟩
  | elseBody {n s c body other h v k} : c.eval (Closure.call n) s h = .done v k →
      v.truthy = true →
      Part ⟨n, .stmts s body .null, k⟩ ⟨n, .expr s (.ifElse c body other), h⟩
  | elseOther {n s c body other h v k} : c.eval (Closure.call n) s h = .done v k →
      v.truthy = false →
      Part ⟨n, .stmts s other .null, k⟩ ⟨n, .expr s (.ifElse c body other), h⟩
  | callee {n s f as h} : Part ⟨n, .expr s f, h⟩ ⟨n, .expr s (.call f as), h⟩
  | arguments {n s f as h v k} : f.eval (Closure.call n) s h = .done v k →
      Part ⟨n, .exprs s as, k⟩ ⟨n, .expr s (.call f as), h⟩
  | call {n s f as h c k args l} : f.eval (Closure.call n) s h = .done (.function c) k →
      Expr.evalEach (Closure.call n) s as k = .done args l → args.length = c.arity →
      Part ⟨n, .call c args, l⟩ ⟨n, .expr s (.call f as), h⟩
  | firstExpr {n s e es h} : Part ⟨n, .expr s e, h⟩ ⟨n, .exprs s (e :: es), h⟩
  | nextExprs {n s e es h v k} : e.eval (Closure.call n) s h = .done v k →
      Part ⟨n, .exprs s es, k⟩ ⟨n, .exprs s (e :: es), h⟩
  | defined {n s x e h} : Part ⟨n, .expr s e, h⟩ ⟨n, .stmt s (.define x e), h⟩
  | returned {n s e h} : Part ⟨n, .expr s e, h⟩ ⟨n, .stmt s (.ret e), h⟩
  | alone {n s e h} : Part ⟨n, .expr s e, h⟩ ⟨n, .stmt s (.expr e), h⟩
  | firstStmt {n s st ss last h} : Part ⟨n, .stmt s st, h⟩ ⟨n, .stmts s (st :: ss) last, h⟩
  | nextStmts {n s st ss last h v k} : st.exec (Closure.call n) s h = .done v k →
      v.isReturned = false → Part ⟨n, .stmts s ss v, k⟩ ⟨n, .stmts s (st :: ss) last, h⟩
  | body {n c args h} :
      Part ⟨n, .stmts h.frames.size c.body .null,
        h.push ((Frame.empty (some c.home)).setEach (c.parameters.zip args))⟩
        ⟨n + 1, .call c args, h⟩

/-- The first run is the second or nested in it. -/
def Within : Run → Run → Prop := Relation.ReflTransGen Part

theorem Within.induct {P : Run → Prop} {q r : Run} (h : Within q r)
    (hpart : ∀ q r, Part q r → P r → P q) (hr : P r) : P q := by
  induction h using Relation.ReflTransGen.head_induction_on with
  | refl => exact hr
  | head hp _ ih => exact hpart _ _ hp ih

end Run

/-- The sessions that programs leave behind, run one after another from the start. -/
inductive Session.Reached (P : Program → Prop) : Session → Prop
  | start : Reached P .start
  | next {s t : Session} {p : Program} {depth : Nat} {v : Value} : Reached P s → P p →
      s.run? depth p = some (v, t) → Reached P t

end MonkeyLang
