import MonkeyLang.Proofs.Evaluation.Invariant
import MonkeyLang.Proofs.Scope.Heap

/-! Disciplined programs, in which a conditional that contains a `return` is a statement of its
own. In them a returned value is never an operand, so none is ever bound or passed on. -/
namespace MonkeyLang

mutual
/-- Whether a `return` stands in an expression, outside its function literals. -/
def Expr.returns : Expr → Bool
  | .name _ => false
  | .int _ => false
  | .bool _ => false
  | .unary _ e => e.returns
  | .binary l _ r => l.returns || r.returns
  | .ifThen c body => c.returns || Stmt.returnsEach body
  | .ifElse c body other => c.returns || (Stmt.returnsEach body || Stmt.returnsEach other)
  | .function _ _ => false
  | .call f as => f.returns || Expr.returnsEach as

def Stmt.returns : Stmt → Bool
  | .define _ e => e.returns
  | .ret _ => true
  | .retBare => true
  | .expr e => e.returns

def Expr.returnsEach : List Expr → Bool
  | [] => false
  | e :: es => e.returns || Expr.returnsEach es

def Stmt.returnsEach : List Stmt → Bool
  | [] => false
  | s :: ss => s.returns || Stmt.returnsEach ss
end

mutual
/-- No `return` stands in a block of a conditional, unless the conditional is a statement: where
`alone`, the expression itself is one. -/
def Expr.Disciplined (alone : Bool) : Expr → Prop
  | .name _ => True
  | .int _ => True
  | .bool _ => True
  | .unary _ e => e.Disciplined false
  | .binary l _ r => l.Disciplined false ∧ r.Disciplined false
  | .ifThen c body =>
    c.Disciplined false ∧ Stmt.DisciplinedEach body ∧
      (alone = false → Stmt.returnsEach body = false)
  | .ifElse c body other =>
    c.Disciplined false ∧ Stmt.DisciplinedEach body ∧ Stmt.DisciplinedEach other ∧
      (alone = false → Stmt.returnsEach body = false ∧ Stmt.returnsEach other = false)
  | .function _ body => Stmt.DisciplinedEach body
  | .call f as => f.Disciplined false ∧ Expr.DisciplinedEach as

def Stmt.Disciplined : Stmt → Prop
  | .define _ e => e.Disciplined false
  | .ret e => e.Disciplined false
  | .retBare => True
  | .expr e => e.Disciplined true

def Expr.DisciplinedEach : List Expr → Prop
  | [] => True
  | e :: es => e.Disciplined false ∧ Expr.DisciplinedEach es

def Stmt.DisciplinedEach : List Stmt → Prop
  | [] => True
  | s :: ss => s.Disciplined ∧ Stmt.DisciplinedEach ss
end

def Program.Disciplined (p : Program) : Prop := Stmt.DisciplinedEach p

/-- A disciplined fragment, without a `return` of its own unless a returned value may leave it. -/
def Fragment.Disciplined (leaving : Bool) : Fragment → Prop
  | .expr e => e.Disciplined leaving
  | .exprs es => Expr.DisciplinedEach es
  | .stmt s => s.Disciplined ∧ (leaving = false → s.returns = false)
  | .stmts ss => Stmt.DisciplinedEach ss ∧ (leaving = false → Stmt.returnsEach ss = false)

/-- Without a `return` in it, it makes no difference whether an expression stands alone. -/
theorem Expr.Disciplined.of_returns {e : Expr} {leaving : Bool} (h : e.Disciplined true)
    (hr : leaving = false → e.returns = false) : e.Disciplined leaving := by
  cases e with
  | ifThen c body =>
    refine ⟨h.1, h.2.1, fun hl => ?_⟩
    have hr := hr hl
    simp only [Expr.returns, Bool.or_eq_false_iff] at hr
    exact hr.2
  | ifElse c body other =>
    refine ⟨h.1, h.2.1, h.2.2.1, fun hl => ?_⟩
    have hr := hr hl
    simp only [Expr.returns, Bool.or_eq_false_iff] at hr
    exact hr.2
  | _ => exact h

theorem Fragment.Disciplined.leaving {s : Stmt} {leaving : Bool}
    (h : (Fragment.stmt s).Disciplined leaving) (hs : s.returns = true) : leaving = true := by
  cases leaving with
  | true => rfl
  | false => rw [h.2 rfl] at hs; cases hs

theorem Fragment.Disciplined.part {leaving b : Bool} {φ ψ : Fragment} (h : φ.Disciplined leaving)
    (hp : ψ.Part leaving b φ) : ψ.Disciplined b := by
  cases hp with
  | operand => exact h
  | defined | returned => exact h.1
  | left | ifCondition | elseCondition | callee | firstExpr => exact h.1
  | right | arguments | nextExprs => exact h.2
  | ifBody => exact h.2
  | elseBody => exact ⟨h.2.1, fun hl => (h.2.2.2 hl).1⟩
  | elseOther => exact ⟨h.2.2.1, fun hl => (h.2.2.2 hl).2⟩
  | alone => exact h.1.of_returns h.2
  | firstStmt => exact ⟨h.1.1, fun hl => (Bool.or_eq_false_iff.mp (h.2 hl)).1⟩
  | nextStmts => exact ⟨h.1.2, fun hl => (Bool.or_eq_false_iff.mp (h.2 hl)).2⟩

namespace Value

/-- A value that may be bound: not a returned one, not an error, and no function but a disciplined
one. -/
def Plain : Value → Prop
  | int _ => True
  | bool _ => True
  | null => True
  | function c => Stmt.DisciplinedEach c.body
  | returned _ => False
  | error _ => False

/-- A plain value, or one that is being returned if `leaving` allows for it. -/
def PlainOr (leaving : Bool) : Value → Prop
  | returned v => leaving = true ∧ v.Plain
  | v => v.Plain

theorem IsScalar.plain {v : Value} (h : v.IsScalar) : v.Plain := by
  cases v <;> trivial

theorem Plain.isReturned {v : Value} (h : v.Plain) : v.isReturned = false := by
  cases v <;> first | rfl | exact h.elim

theorem Plain.plainOr {v : Value} (h : v.Plain) (leaving : Bool) : v.PlainOr leaving := by
  cases v <;> first | exact h | exact h.elim

theorem PlainOr.plain {v : Value} {b : Bool} (h : v.PlainOr b)
    (hv : b = false ∨ v.isReturned = false) : v.Plain := by
  cases v with
  | returned w =>
    obtain hb | hr := hv
    · exact absurd h.1 (by simp [hb])
    · cases hr
  | _ => exact h

theorem PlainOr.arrive {v : Value} {b : Bool} (h : v.PlainOr b) : v.arrive.Plain := by
  cases v with
  | returned w => exact h.2
  | _ => exact h

end Value

/-- An outcome in a heap of plain values whose result satisfies `P`. -/
def Outcome.Settles {α : Type} (o : Outcome α) (P : α → Prop) : Prop :=
  o.Ends (fun a heap => P a ∧ heap.All Value.Plain) (·.All Value.Plain)

/-- Disciplined programs bind plain values only, and operands in them have plain values. -/
def Invariant.discipline : Invariant Unit where
  heap _ := (·.All Value.Plain)
  inside _ _ := True
  value leaving _ := Value.PlainOr leaving
  admits := Fragment.Disciplined
  part := Fragment.Disciplined.part
  inside_mono _ _ := trivial
  value_mono _ hv := hv
  weaken hv := (hv.plain (.inl rfl)).plainOr _
  arrive hv := hv.arrive.plainOr false
  null := trivial
  scalar hv := hv.plain.plainOr _
  get? hh hv := (hh.get? hv).plainOr false
  set _ hh _ hv := hh.set _ _ (hv.plain (.inl rfl))
  newClosure hφ hh _ := ⟨(), le_rfl, hh.newClosure _ _ _, hφ⟩
  ret hφ hv := ⟨hφ.leaving rfl, hv.plain (.inl rfl)⟩
  retBare hφ := ⟨hφ.leaving rfl, trivial⟩

theorem Invariant.enters_discipline : discipline.Enters := by
  intro _ h c args hh hc ha
  have hargs : ∀ v ∈ args, v.Plain := fun v hv => (ha v hv).plain (.inl rfl)
  exact ⟨⟨hc, nofun⟩, (), le_rfl, trivial, hh.enter c hargs⟩

section Evaluation
variable {call : Call} {scope : FrameId} {heap : Heap}

theorem Expr.settles_operand (hcall : Invariant.discipline.Calls call) (e : Expr)
    (he : e.Disciplined false) (hh : heap.All Value.Plain) :
    (e.eval call scope heap).Settles Value.Plain :=
  (Invariant.discipline.eval hcall e false he trivial hh).ends fun _ hv => hv.plain (.inl rfl)

theorem Stmt.settles_exec (hcall : Invariant.discipline.Calls call) (s : Stmt)
    (hs : s.Disciplined) (hh : heap.All Value.Plain) :
    (s.exec call scope heap).Settles (Value.PlainOr true) :=
  (Invariant.discipline.exec hcall s true ⟨hs, nofun⟩ trivial hh).ends fun _ hv => hv

theorem Expr.settles_evalEach (hcall : Invariant.discipline.Calls call) (es : List Expr)
    (hes : Expr.DisciplinedEach es) (hh : heap.All Value.Plain) :
    (Expr.evalEach call scope es heap).Settles (fun vs => ∀ v ∈ vs, v.Plain) :=
  (Invariant.discipline.evalEach hcall es false hes trivial hh).ends
    fun _ hvs v hv => (hvs v hv).plain (.inl rfl)

theorem Stmt.settles_execEach (hcall : Invariant.discipline.Calls call) (ss : List Stmt)
    (hss : Stmt.DisciplinedEach ss) {last : Value} (hl : last.Plain) (hh : heap.All Value.Plain) :
    (Stmt.execEach call scope ss last heap).Settles (Value.PlainOr true) :=
  (Invariant.discipline.execEach hcall ss true ⟨hss, nofun⟩ (hl.plainOr true) trivial hh).ends
    fun _ hv => hv

end Evaluation
end MonkeyLang
