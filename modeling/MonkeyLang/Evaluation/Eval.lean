import MonkeyLang.Evaluation.Outcome
import MonkeyLang.Value.Operators

/-! Evaluation of expressions and statements in a scope frame. Syntax is evaluated by recursion
on itself; only calls need a bound, which limits how deep they may nest. -/
namespace MonkeyLang

/-- How a closure is applied to as many arguments as it has parameters. -/
abbrev Call := Closure → List Value → Heap → Outcome Value

/-- Applies any value to arguments: it must be a function, and of their number. -/
def Call.check (call : Call) (callee : Value) (args : List Value) (heap : Heap) : Outcome Value :=
  match callee with
  | .function c =>
    if args.length = c.arity then call c args heap
    else .failed (.wrongArity c.arity args.length) heap
  | v => .failed (.notAFunction v.type) heap

mutual
def Expr.eval (call : Call) (scope : FrameId) : Expr → Heap → Outcome Value
  | .name x, heap =>
    match heap.get? scope x with
    | some v => .done v heap
    | none => .failed (.unbound x) heap
  | .int n, heap => .done (.int n) heap
  | .bool b, heap => .done (.bool b) heap
  | .unary op e, heap =>
    (e.eval call scope heap).andThen fun v heap => .lift (op.apply v) heap
  | .binary l op r, heap =>
    (l.eval call scope heap).andThen fun v heap =>
    (r.eval call scope heap).andThen fun w heap => .lift (op.apply v w) heap
  | .ifThen c body, heap =>
    (c.eval call scope heap).andThen fun v heap =>
    if v.truthy then Stmt.execEach call scope body .null heap else .done .null heap
  | .ifElse c body other, heap =>
    (c.eval call scope heap).andThen fun v heap =>
    if v.truthy then Stmt.execEach call scope body .null heap
    else Stmt.execEach call scope other .null heap
  | .function xs body, heap =>
    let (c, heap) := heap.newClosure scope xs body
    .done (.function c) heap
  | .call f as, heap =>
    (f.eval call scope heap).andThen fun callee heap =>
    (Expr.evalEach call scope as heap).andThen fun args heap => call.check callee args heap

/-- The value of a statement. A `let` has the value null, and a `return` wraps its value. -/
def Stmt.exec (call : Call) (scope : FrameId) : Stmt → Heap → Outcome Value
  | .define x e, heap =>
    (e.eval call scope heap).andThen fun v heap => .done .null (heap.set scope x v)
  | .ret e, heap => (e.eval call scope heap).map .returned
  | .retBare, heap => .done (.returned .null) heap
  | .expr e, heap => e.eval call scope heap

/-- The values of expressions, from left to right. -/
def Expr.evalEach (call : Call) (scope : FrameId) : List Expr → Heap → Outcome (List Value)
  | [], heap => .done [] heap
  | e :: es, heap =>
    (e.eval call scope heap).andThen fun v heap =>
    (Expr.evalEach call scope es heap).map (v :: ·)

/-- The value of the last statement that runs, or `last` if there is none. A returned value stops
the statements after it. -/
def Stmt.execEach (call : Call) (scope : FrameId) : List Stmt → Value → Heap → Outcome Value
  | [], last, heap => .done last heap
  | s :: ss, _, heap =>
    (s.exec call scope heap).andThen fun v heap =>
    if v.isReturned then .done v heap else Stmt.execEach call scope ss v heap
end

/-- Runs the body of a function or a program, where a returned value arrives. -/
def Stmt.runBody (call : Call) (scope : FrameId) (body : List Stmt) (heap : Heap) : Outcome Value :=
  (Stmt.execEach call scope body .null heap).map Value.arrive

/-- Calls a closure in a new frame inside its home frame, with at most `depth` calls open at a
time. -/
def Closure.call : Nat → Call
  | 0, _, _, _ => .exhausted
  | depth + 1, c, args, heap =>
    Stmt.runBody (Closure.call depth) heap.frames.size c.body
      (heap.push ((Frame.empty (some c.home)).setEach (c.parameters.zip args)))

end MonkeyLang
