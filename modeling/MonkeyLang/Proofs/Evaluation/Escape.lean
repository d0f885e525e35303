import MonkeyLang.Proofs.Evaluation.Discipline
import MonkeyLang.Session

/-! Evaluation in which a `return` is an escape: it leaves at once everything that is pending around
it, up to the innermost call or the program. On disciplined programs this is evaluation with
returned values. -/
namespace MonkeyLang

/-- The outcome of an evaluation in which a `return` escapes. -/
inductive Flow (α : Type)
  | done (a : α) (heap : Heap)
  | escaped (v : Value) (heap : Heap)
  | failed (e : EvalError) (heap : Heap)
  /-- The bound was too small to tell. -/
  | exhausted

namespace Flow
variable {α β : Type}

/-- Goes on with a result; escapes, errors and exhaustion skip what is pending. -/
def andThen (o : Flow α) (f : α → Heap → Flow β) : Flow β :=
  match o with
  | done a heap => f a heap
  | escaped v heap => escaped v heap
  | failed e heap => failed e heap
  | exhausted => exhausted

/-- The outcome of a computation that does not touch the heap. -/
def lift (r : Except EvalError α) (heap : Heap) : Flow α :=
  match r with
  | .ok a => done a heap
  | .error e => failed e heap

/-- Where an escape ends. -/
def caught : Flow Value → Flow Value
  | escaped v heap => done v heap
  | o => o

end Flow

/-- Applies any value to arguments: it must be a function, and of their number. -/
def Flow.apply (call : Closure → List Value → Heap → Flow Value) (callee : Value)
    (args : List Value) (heap : Heap) : Flow Value :=
  match callee with
  | .function c =>
    if args.length = c.arity then call c args heap
    else .failed (.wrongArity c.arity args.length) heap
  | v => .failed (.notAFunction v.type) heap

mutual
def Expr.flow (call : Closure → List Value → Heap → Flow Value) (scope : FrameId) :
    Expr → Heap → Flow Value
  | .name x, heap =>
    match heap.get? scope x with
    | some v => .done v heap
    | none => .failed (.unbound x) heap
  | .int n, heap => .done (.int n) heap
  | .bool b, heap => .done (.bool b) heap
  | .unary op e, heap =>
    (e.flow call scope heap).andThen fun v heap => .lift (op.apply v) heap
  | .binary l op r, heap =>
    (l.flow call scope heap).andThen fun v heap =>
    (r.flow call scope heap).andThen fun w heap => .lift (op.apply v w) heap
  | .ifThen c body, heap =>
    (c.flow call scope heap).andThen fun v heap =>
    if v.truthy then Stmt.flowEach call scope body .null heap else .done .null heap
  | .ifElse c body other, heap =>
    (c.flow call scope heap).andThen fun v heap =>
    if v.truthy then Stmt.flowEach call scope body .null heap
    else Stmt.flowEach call scope other .null heap
  | .function xs body, heap =>
    let (c, heap) := heap.newClosure scope xs body
    .done (.function c) heap
  | .call f as, heap =>
    (f.flow call scope heap).andThen fun callee heap =>
    (Expr.flowEach call scope as heap).andThen fun args heap => Flow.apply call callee args heap

/-- A `return` escapes with its value. -/
def Stmt.flow (call : Closure → List Value → Heap → Flow Value) (scope : FrameId) :
    Stmt → Heap → Flow Value
  | .define x e, heap =>
    (e.flow call scope heap).andThen fun v heap => .done .null (heap.set scope x v)
  | .ret e, heap => (e.flow call scope heap).andThen fun v heap => .escaped v heap
  | .retBare, heap => .escaped .null heap
  | .expr e, heap => e.flow call scope heap

def Expr.flowEach (call : Closure → List Value → Heap → Flow Value) (scope : FrameId) :
    List Expr → Heap → Flow (List Value)
  | [], heap => .done [] heap
  | e :: es, heap =>
    (e.flow call scope heap).andThen fun v heap =>
    (Expr.flowEach call scope es heap).andThen fun vs heap => .done (v :: vs) heap

/-- The value of the last statement, or `last` if there is none. -/
def Stmt.flowEach (call : Closure → List Value → Heap → Flow Value) (scope : FrameId) :
    List Stmt → Value → Heap → Flow Value
  | [], last, heap => .done last heap
  | s :: ss, _, heap =>
    (s.flow call scope heap).andThen fun v heap => Stmt.flowEach call scope ss v heap
end

/-- Calls a closure in a new frame inside its home frame; escapes from its body end here. -/
def Closure.flow : Nat → Closure → List Value → Heap → Flow Value
  | 0, _, _, _ => .exhausted
  | depth + 1, c, args, heap =>
    (Stmt.flowEach (Closure.flow depth) heap.frames.size c.body .null
      (heap.push ((Frame.empty (some c.home)).setEach (c.parameters.zip args)))).caught

namespace Session

/-- Runs a program whose `return` statements escape. -/
def flow? (depth : Nat) (s : Session) (p : Program) : Option (Value × Session) :=
  match Stmt.flowEach (Closure.flow depth) s.scope p .null s.heap with
  | .done v heap => some (v, { s with heap })
  | .escaped v heap => some (v, { s with heap })
  | .failed e heap => some (.error e, { s with heap })
  | .exhausted => none

/-- Runs programs one after another, each in the session that the ones before it leave. The results
are those of the programs, each with the session after it. -/
def each? (run : Session → Program → Option (Value × Session)) :
    Session → List Program → Option (List (Value × Session))
  | _, [] => some []
  | s, p :: ps => (run s p).bind fun r => (each? run r.2 ps).map (r :: ·)

end Session

/-- The value that leaves with a returned value. -/
def Value.leaving? : Value → Option Value
  | returned v => some v
  | _ => none

theorem Value.Plain.leaving? {v : Value} (h : v.Plain) : v.leaving? = none := by
  cases v <;> first | rfl | exact h.elim

/-- An outcome as a flow, in which results escape where `out` says so. -/
def Outcome.flow {α : Type} (out : α → Option Value) : Outcome α → Flow α
  | done a heap =>
    match out a with
    | some v => .escaped v heap
    | none => .done a heap
  | failed e heap => .failed e heap
  | exhausted => .exhausted

/-- A list of values never escapes. -/
abbrev stays (_ : List Value) : Option Value := none

namespace Outcome
variable {α β : Type} {out : α → Option Value} {out' : β → Option Value} {P : α → Heap → Prop}
  {E : Heap → Prop}

theorem flow_done {a : α} (heap : Heap) (h : out a = none) :
    (done a heap).flow out = .done a heap := by
  simp only [flow, h]

/-- What follows a result that stays follows it in the flow, too. -/
theorem flow_andThen {o : Outcome α} {f : α → Heap → Outcome β} {g : α → Heap → Flow β}
    (ho : o.Ends P E) (hP : ∀ a heap, P a heap → out a = none)
    (hfg : ∀ a heap, P a heap → g a heap = (f a heap).flow out') :
    (o.flow out).andThen g = (o.andThen f).flow out' := by
  cases o with
  | done a heap =>
    rw [flow_done heap (hP a heap ho)]
    exact hfg a heap ho
  | failed e heap => rfl
  | exhausted => rfl

theorem flow_operand {o : Outcome Value} {f : Value → Heap → Outcome β} {g : Value → Heap → Flow β}
    (ho : o.Settles Value.Plain)
    (hfg : ∀ v heap, v.Plain → heap.All Value.Plain → g v heap = (f v heap).flow out') :
    (o.flow Value.leaving?).andThen g = (o.andThen f).flow out' :=
  flow_andThen ho (fun _ _ hv => hv.1.leaving?) fun v heap hv => hfg v heap hv.1 hv.2

theorem flow_lift {r : Except EvalError α} (heap : Heap) (h : ∀ a, r = .ok a → out a = none) :
    Flow.lift r heap = (lift r heap).flow out := by
  cases r with
  | ok a => exact (flow_done heap (h a rfl)).symm
  | error e => rfl

/-- A returned value ends a block as an escape ends it. -/
theorem flow_block {o : Outcome Value} {f : Value → Heap → Outcome Value}
    {g : Value → Heap → Flow Value} {b : Bool} (ho : o.Settles (Value.PlainOr b))
    (hfg : ∀ v heap, v.Plain → heap.All Value.Plain → g v heap = (f v heap).flow Value.leaving?) :
    (o.flow Value.leaving?).andThen g =
      (o.andThen fun v heap => if v.isReturned then done v heap else f v heap).flow
        Value.leaving? := by
  cases o with
  | done v heap =>
    obtain ⟨hv, hh⟩ := ho
    cases hr : v.isReturned with
    | true =>
      cases v with
      | returned w => rfl
      | _ => cases hr
    | false =>
      have hp : v.Plain := hv.plain (.inr hr)
      rw [flow_done heap hp.leaving?, andThen_done, if_neg (by simp [hr])]
      exact hfg v heap hp hh
  | failed e heap => rfl
  | exhausted => rfl

/-- A returned value arrives where an escape ends. -/
theorem caught_flow {o : Outcome Value} {b : Bool} (ho : o.Settles (Value.PlainOr b)) :
    (o.flow Value.leaving?).caught = (o.map Value.arrive).flow Value.leaving? := by
  cases o with
  | done v heap =>
    have ha : v.arrive.leaving? = none := ho.1.arrive.leaving?
    cases v with
    | returned w => exact (flow_done heap ha).symm
    | _ => rfl
  | failed e heap => rfl
  | exhausted => rfl

end Outcome

/-- Disciplined functions give the same by escapes as by returned values. -/
def Call.Flows (call : Call) (flow : Closure → List Value → Heap → Flow Value) : Prop :=
  ∀ c args heap, Stmt.DisciplinedEach c.body → (∀ v ∈ args, v.Plain) → heap.All Value.Plain →
    flow c args heap = (call c args heap).flow Value.leaving?

section Evaluation
variable {call : Call} {flow : Closure → List Value → Heap → Flow Value} {scope : FrameId}

theorem Call.Flows.check (hflow : call.Flows flow) {callee : Value} {args : List Value}
    {heap : Heap} (hc : callee.Plain) (ha : ∀ v ∈ args, v.Plain) (hh : heap.All Value.Plain) :
    Flow.apply flow callee args heap = (call.check callee args heap).flow Value.leaving? := by
  cases callee with
  | function c =>
    rw [Flow.apply, Call.check]
    split
    · exact hflow c args heap hc ha hh
    · rfl
  | _ => rfl

mutual
theorem Expr.flow_eq (hcall : Invariant.discipline.Calls call) (hflow : call.Flows flow) :
    (e : Expr) → (alone : Bool) → e.Disciplined alone → (heap : Heap) → heap.All Value.Plain →
    e.flow flow scope heap = (e.eval call scope heap).flow Value.leaving?
  | .name x, _, _, heap, hh => by
    rw [Expr.flow, Expr.eval]
    cases hx : heap.get? scope x with
    | some v => exact (Outcome.flow_done heap (hh.get? hx).leaving?).symm
    | none => rfl
  | .int _, _, _, _, _ => rfl
  | .bool _, _, _, _, _ => rfl
  | .unary op e, _, he, heap, hh => by
    rw [Expr.flow, e.flow_eq hcall hflow false he heap hh]
    refine Outcome.flow_operand (e.settles_operand hcall he hh) ?_
    intro v heap _ _
    exact Outcome.flow_lift heap fun u hu => (op.isScalar_of_apply hu).plain.leaving?
  | .binary l op r, _, ⟨hl, hr⟩, heap, hh => by
    rw [Expr.flow, l.flow_eq hcall hflow false hl heap hh]
    refine Outcome.flow_operand (l.settles_operand hcall hl hh) ?_
    intro v heap _ hh
    rw [r.flow_eq hcall hflow false hr heap hh]
    refine Outcome.flow_operand (r.settles_operand hcall hr hh) ?_
    intro w heap _ _
    exact Outcome.flow_lift heap fun u hu => (op.isScalar_of_apply hu).plain.leaving?
  | .ifThen c body, _, ⟨hc, hb, _⟩, heap, hh => by
    rw [Expr.flow, c.flow_eq hcall hflow false hc heap hh]
    refine Outcome.flow_operand (c.settles_operand hcall hc hh) ?_
    intro v heap _ hh
    split
    · exact Stmt.flowEach_eq hcall hflow body hb .null trivial heap hh
    · rfl
  | .ifElse c body other, _, ⟨hc, hb, ho, _⟩, heap, hh => by
    rw [Expr.flow, c.flow_eq hcall hflow false hc heap hh]
    refine Outcome.flow_operand (c.settles_operand hcall hc hh) ?_
    intro v heap _ hh
    split
    · exact Stmt.flowEach_eq hcall hflow body hb .null trivial heap hh
    · exact Stmt.flowEach_eq hcall hflow other ho .null trivial heap hh
  | .function _ _, _, _, _, _ => rfl
  | .call f as, _, ⟨hf, has⟩, heap, hh => by
    rw [Expr.flow, f.flow_eq hcall hflow false hf heap hh]
    refine Outcome.flow_operand (f.settles_operand hcall hf hh) ?_
    intro callee heap hc hh
    rw [Expr.flowEach_eq hcall hflow as has heap hh]
    refine Outcome.flow_andThen (Expr.settles_evalEach hcall as has hh)
      (fun _ _ _ => rfl) ?_
    intro args heap ⟨ha, hh⟩
    exact hflow.check hc ha hh

theorem Stmt.flow_eq (hcall : Invariant.discipline.Calls call) (hflow : call.Flows flow) :
    (s : Stmt) → s.Disciplined → (heap : Heap) → heap.All Value.Plain →
    s.flow flow scope heap = (s.exec call scope heap).flow Value.leaving?
  | .define x e, he, heap, hh => by
    rw [Stmt.flow, e.flow_eq hcall hflow false he heap hh]
    exact Outcome.flow_operand (e.settles_operand hcall he hh) fun _ _ _ _ => rfl
  | .ret e, he, heap, hh => by
    rw [Stmt.flow, e.flow_eq hcall hflow false he heap hh]
    exact Outcome.flow_operand (e.settles_operand hcall he hh) fun _ _ _ _ => rfl
  | .retBare, _, _, _ => rfl
  | .expr e, he, heap, hh => e.flow_eq hcall hflow true he heap hh

theorem Expr.flowEach_eq (hcall : Invariant.discipline.Calls call) (hflow : call.Flows flow) :
    (es : List Expr) → Expr.DisciplinedEach es → (heap : Heap) → heap.All Value.Plain →
    Expr.flowEach flow scope es heap = (Expr.evalEach call scope es heap).flow stays
  | [], _, _, _ => rfl
  | e :: es, ⟨he, hes⟩, heap, hh => by
    rw [Expr.flowEach, e.flow_eq hcall hflow false he heap hh]
    refine Outcome.flow_operand (e.settles_operand hcall he hh) ?_
    intro v heap _ hh
    rw [Expr.flowEach_eq hcall hflow es hes heap hh]
    exact Outcome.flow_andThen (Expr.settles_evalEach hcall es hes hh) (fun _ _ _ => rfl)
      fun _ _ _ => rfl

theorem Stmt.flowEach_eq (hcall : Invariant.discipline.Calls call) (hflow : call.Flows flow) :
    (ss : List Stmt) → Stmt.DisciplinedEach ss → (last : Value) → last.Plain → (heap : Heap) →
    heap.All Value.Plain →
    Stmt.flowEach flow scope ss last heap =
      (Stmt.execEach call scope ss last heap).flow Value.leaving?
  | [], _, last, hl, heap, _ => (Outcome.flow_done heap hl.leaving?).symm
  | s :: ss, ⟨hs, hss⟩, _, _, heap, hh => by
    rw [Stmt.flowEach, s.flow_eq hcall hflow hs heap hh]
    refine Outcome.flow_block (s.settles_exec hcall hs hh) ?_
    intro v heap hv hh
    exact Stmt.flowEach_eq hcall hflow ss hss v hv heap hh
end

end Evaluation

theorem Closure.flows (depth : Nat) : (Closure.call depth).Flows (Closure.flow depth) := by
  induction depth with
  | zero => exact fun _ _ _ _ _ _ => rfl
  | succ depth ih =>
    intro c args heap hc ha hh
    have hcall := Invariant.enters_discipline.calls depth
    have hh := hh.enter c ha
    rw [Closure.flow, Stmt.flowEach_eq hcall ih c.body hc .null trivial _ hh]
    have hnull : Value.null.Plain := trivial
    exact Outcome.caught_flow (Stmt.settles_execEach hcall c.body hc hnull hh)

namespace Session

theorem all_start (P : Value → Prop) : start.heap.All P :=
  (Heap.All.empty P).push (Frame.All.empty P none)

/-- A disciplined program leaves only plain values behind, and has one unless it fails. -/
theorem plain_of_run? {depth : Nat} {s t : Session} {p : Program} {v : Value}
    (hs : s.heap.All Value.Plain) (hp : p.Disciplined) (h : s.run? depth p = some (v, t)) :
    (v.Plain ∨ ∃ e, v = .error e) ∧ t.heap.All Value.Plain := by
  have hcall := Invariant.enters_discipline.calls depth
  obtain ⟨-, _, -, hh, hv⟩ := Invariant.discipline.run? (w := ()) hcall ⟨hp, nofun⟩ trivial hs h
  refine ⟨?_, hh⟩
  obtain hv | ⟨e, he, -⟩ := hv
  · exact .inl (hv.plain (.inl rfl))
  · exact .inr ⟨e, he⟩

theorem run?_eq_flow? {s : Session} {p : Program} (depth : Nat) (hs : s.heap.All Value.Plain)
    (hp : p.Disciplined) : s.run? depth p = s.flow? depth p := by
  have hcall := Invariant.enters_discipline.calls depth
  have hflow : Stmt.flowEach (Closure.flow depth) s.scope p .null s.heap = _ :=
    Stmt.flowEach_eq hcall (Closure.flows depth) p hp .null trivial s.heap hs
  rw [run?, flow?, Stmt.runBody, hflow]
  cases Stmt.execEach (Closure.call depth) s.scope p .null s.heap with
  | done v heap => cases v <;> rfl
  | failed e heap => rfl
  | exhausted => rfl

theorem each?_run?_eq {s : Session} {ps : List Program} (depth : Nat)
    (hs : s.heap.All Value.Plain) (hps : ∀ p ∈ ps, p.Disciplined) :
    each? (run? depth) s ps = each? (flow? depth) s ps := by
  induction ps generalizing s with
  | nil => rfl
  | cons p ps ih =>
    obtain ⟨hp, hps⟩ := List.forall_mem_cons.mp hps
    rw [each?, each?, ← run?_eq_flow? depth hs hp]
    refine Option.bind_congr ?_
    intro ⟨v, t⟩ ht
    rw [ih (plain_of_run? hs hp ht).2 hps]

/-- Disciplined programs run one after another give the same results and leave the same sessions
whether a `return` escapes or its value is passed on as a returned one. -/
theorem each?_run?_eq_flow? (depth : Nat) (ps : List Program) (h : ∀ p ∈ ps, p.Disciplined) :
    each? (run? depth) start ps = each? (flow? depth) start ps :=
  each?_run?_eq depth (all_start _) h

end Session

/-- The body of a function with a `return` two conditionals deep. -/
def classifyBody : List Stmt :=
  [.expr (.ifThen (.binary (.name "n") .greater (.int 0)) [
      .expr (.ifThen (.binary (.name "n") .greater (.int 100)) [.ret (.int 2)]),
      .ret (.int 1)]),
    .expr (.int 0)]

/-- Binds the function. -/
def defineClassify : Program := [.define "classify" (.function ["n"] classifyBody)]

/-- Calls the function. -/
def callClassify : Program := [.expr (.call (.name "classify") [.int 500])]

theorem disciplined_defineClassify : defineClassify.Disciplined := by
  simp [defineClassify, classifyBody, Program.Disciplined, Stmt.DisciplinedEach, Stmt.Disciplined,
    Expr.Disciplined]

theorem disciplined_callClassify : callClassify.Disciplined := by
  simp [callClassify, Program.Disciplined, Stmt.DisciplinedEach, Stmt.Disciplined,
    Expr.Disciplined, Expr.DisciplinedEach]

theorem Session.each?_run?_eq_flow?_classify :
    (∀ p ∈ [defineClassify, callClassify], p.Disciplined) ∧
    each? (run? 1) start [defineClassify, callClassify] =
      each? (flow? 1) start [defineClassify, callClassify] ∧
    (each? (flow? 1) start [defineClassify, callClassify]).map (·.map Prod.fst) =
      some [.null, .int 2] := by
  have h : ∀ p ∈ [defineClassify, callClassify], p.Disciplined := by
    simp [disciplined_defineClassify, disciplined_callClassify]
  exact ⟨h, each?_run?_eq_flow? 1 _ h, by with_unfolding_all rfl⟩

end MonkeyLang
