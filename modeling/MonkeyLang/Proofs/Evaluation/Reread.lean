import MonkeyLang.Proofs.Evaluation.Outcome
import MonkeyLang.Proofs.Grammar.Reread
import MonkeyLang.Proofs.Scope.Recode
import MonkeyLang.Session

/-! A program and what its text is read as have the same meaning. A sign in front of a chain of calls
never comes to negate anything, since an integer cannot be called. -/
namespace MonkeyLang

/-- The value of the reread program: functions are reread, and all else is the same. -/
abbrev Value.reread : Value → Value := Value.recode Stmt.rereadEach

abbrev Heap.reread : Heap → Heap := Heap.recode Stmt.rereadEach

/-- Two outcomes of one kind, of which the second leaves the reread heap of the first behind, with
results that `P` relates. -/
abbrev Outcome.Reread {α β : Type} (P : α → β → Prop) : Outcome α → Outcome β → Prop :=
  Rel (fun a h b k => P a b ∧ k = h.reread) fun h k => k = h.reread

namespace Outcome.Reread
variable {α β γ δ : Type} {o : Outcome α} {o' : Outcome β} {P : α → β → Prop} {Q : γ → δ → Prop}

theorem done {a : α} {b : β} {h : Heap} (hab : P a b) : Reread P (.done a h) (.done b h.reread) :=
  Rel.done ⟨hab, rfl⟩

theorem failed (e : EvalError) (h : Heap) : Reread P (.failed e h) (.failed e h.reread) :=
  Rel.failed e rfl

theorem andThen {f : α → Heap → Outcome γ} {g : β → Heap → Outcome δ} (ho : Reread P o o')
    (hfg : ∀ a b h, P a b → Reread Q (f a h) (g b h.reread)) :
    Reread Q (o.andThen f) (o'.andThen g) := by
  refine Rel.andThen ho ?_
  rintro a h b _ ⟨hab, rfl⟩
  exact hfg a b h hab

theorem map {f : α → γ} {g : β → δ} (ho : Reread P o o') (hfg : ∀ a b, P a b → Q (f a) (g b)) :
    Reread Q (o.map f) (o'.map g) :=
  ho.andThen fun a b _ hab => done (hfg a b hab)

/-- Operators give integers and booleans, which are reread as they are. -/
theorem lift {r : Except EvalError Value} (h : Heap) (hr : ∀ v, r = .ok v → v.IsScalar) :
    Reread (fun v w => w = v.reread) (.lift r h) (.lift r h.reread) := by
  cases r with
  | ok v => exact done (hr v rfl).recode_eq.symm
  | error e => exact failed e h

end Outcome.Reread

/-- The value behind a sign is an integer, of which the opposite is meant. -/
def Value.Behind (sign : Bool) (v w : Value) : Prop :=
  match sign with
  | true => ∃ n, v = .int n ∧ w = .int (-n)
  | false => w = v.reread

/-- A reread function gives reread values for reread arguments. -/
def Call.Rereads (call : Call) : Prop :=
  ∀ (c : Closure) (args : List Value) (h : Heap), Outcome.Reread (fun v w => w = v.reread)
    (call c args h) (call (c.recode Stmt.rereadEach) (args.map Value.reread) h.reread)

section Evaluation
variable {call : Call} {scope : FrameId}

theorem Outcome.Reread.withSign {e e' : Expr} {sign : Bool} {h : Heap}
    (ho : Reread (Value.Behind sign) (e.eval call scope h) (e'.eval call scope h.reread)) :
    Reread (fun v w => w = v.reread) (e.eval call scope h)
      ((e'.withSign sign).eval call scope h.reread) := by
  cases sign with
  | false => exact ho
  | true =>
    rw [Expr.withSign, Expr.eval]
    generalize e.eval call scope h = o, e'.eval call scope h.reread = o' at ho ⊢
    cases ho with
    | done ho =>
      obtain ⟨⟨n, rfl, rfl⟩, rfl⟩ := ho
      refine .done ?_
      rw [Int64.neg_neg]
      rfl
    | failed e ho => exact Rel.failed e ho
    | exhausted => exact .exhausted

theorem Call.Rereads.check (hcall : call.Rereads) (callee : Value) (args : List Value) (h : Heap) :
    Outcome.Reread (fun v w => w = v.reread) (call.check callee args h)
      (call.check callee.reread (args.map Value.reread) h.reread) := by
  cases callee with
  | function c =>
    rw [Value.reread, Value.recode, Call.check, Call.check, List.length_map, Closure.arity_recode]
    split
    · exact hcall c args h
    · exact .failed _ h
  | _ => exact .failed _ h

mutual
/-- An expression behind a sign has the opposite value, and any other one the reread value. -/
theorem Expr.reread_eval_unsigned (hcall : call.Rereads) : (e : Expr) → ∀ h,
    Outcome.Reread (Value.Behind e.signed) (e.eval call scope h) (e.unsigned.eval call scope h.reread)
  | .name x, h => by
    rw [Expr.unsigned, Expr.eval, Expr.eval, Heap.get?_recode]
    cases h.get? scope x with
    | some v => exact .done rfl
    | none => exact .failed (.unbound x) h
  | .int n, h => by
    rw [Expr.unsigned, Expr.signed]
    by_cases hn : n < 0
    · rw [decide_eq_true hn, if_pos hn]
      exact .done ⟨n, rfl, rfl⟩
    · rw [decide_eq_false hn, if_neg hn]
      exact .done rfl
  | .bool _, _ => .done rfl
  | .unary op e, h => by
    refine (e.reread_eval_unsigned hcall h).withSign.andThen ?_
    rintro v _ h rfl
    rw [v.rel_recode.unary_apply_eq]
    exact .lift h fun _ => op.isScalar_of_apply
  | .binary l op r, h => by
    refine (l.reread_eval_unsigned hcall h).withSign.andThen ?_
    rintro v _ h rfl
    refine (r.reread_eval_unsigned hcall h).withSign.andThen ?_
    rintro w _ h rfl
    rw [Value.binary_apply_recode]
    exact .lift h fun _ => op.isScalar_of_apply
  | .ifThen c body, h => by
    refine (c.reread_eval_unsigned hcall h).withSign.andThen ?_
    rintro v _ h rfl
    rw [v.rel_recode.truthy_eq]
    split
    · exact Stmt.reread_execEach hcall body .null h
    · exact .done rfl
  | .ifElse c body other, h => by
    refine (c.reread_eval_unsigned hcall h).withSign.andThen ?_
    rintro v _ h rfl
    rw [v.rel_recode.truthy_eq]
    split
    · exact Stmt.reread_execEach hcall body .null h
    · exact Stmt.reread_execEach hcall other .null h
  | .function _ _, _ => .done rfl
  | .call f as, h => by
    refine (f.reread_eval_unsigned hcall h).andThen ?_
    intro callee callee' h hc
    refine (Expr.reread_evalEach hcall as h).andThen ?_
    rintro args _ h rfl
    rw [Expr.signed]
    -- Behind a sign an integer is called in both runs, which fails in both before any negation.
    cases hs : f.signed with
    | false =>
      rw [hs] at hc
      subst hc
      exact hcall.check callee args h
    | true =>
      rw [hs] at hc
      obtain ⟨n, rfl, rfl⟩ := hc
      exact .failed (.notAFunction .integer) h

theorem Stmt.reread_exec (hcall : call.Rereads) : (s : Stmt) → ∀ h,
    Outcome.Reread (fun v w => w = v.reread) (s.exec call scope h) (s.reread.exec call scope h.reread)
  | .define x e, h => by
    refine (e.reread_eval_unsigned hcall h).withSign.andThen ?_
    rintro v _ h rfl
    rw [Heap.set_recode]
    exact .done rfl
  | .ret e, h => by
    refine (e.reread_eval_unsigned hcall h).withSign.map ?_
    rintro v _ rfl
    rfl
  | .retBare, _ => .done rfl
  | .expr e, h => (e.reread_eval_unsigned hcall h).withSign

theorem Expr.reread_evalEach (hcall : call.Rereads) : (es : List Expr) → ∀ h,
    Outcome.Reread (fun vs ws => ws = vs.map Value.reread) (Expr.evalEach call scope es h)
      (Expr.evalEach call scope (Expr.rereadEach es) h.reread)
  | [], _ => .done rfl
  | e :: es, h => by
    refine (e.reread_eval_unsigned hcall h).withSign.andThen ?_
    rintro v _ h rfl
    refine (Expr.reread_evalEach hcall es h).map ?_
    rintro vs _ rfl
    rfl

theorem Stmt.reread_execEach (hcall : call.Rereads) : (ss : List Stmt) → ∀ last h,
    Outcome.Reread (fun v w => w = v.reread) (Stmt.execEach call scope ss last h)
      (Stmt.execEach call scope (Stmt.rereadEach ss) last.reread h.reread)
  | [], _, _ => .done rfl
  | s :: ss, _, h => by
    refine (s.reread_exec hcall h).andThen ?_
    rintro v _ h rfl
    rw [v.rel_recode.isReturned_eq]
    split
    · exact .done rfl
    · exact Stmt.reread_execEach hcall ss v h
end

theorem Stmt.reread_runBody (hcall : call.Rereads) (body : List Stmt) (h : Heap) :
    Outcome.Reread (fun v w => w = v.reread) (Stmt.runBody call scope body h)
      (Stmt.runBody call scope (Stmt.rereadEach body) h.reread) := by
  refine (Stmt.reread_execEach hcall body .null h).map ?_
  rintro v _ rfl
  exact v.recode_arrive.symm

end Evaluation

theorem Closure.rereads_call (depth : Nat) : (Closure.call depth).Rereads := by
  induction depth with
  | zero => exact fun _ _ _ => .exhausted
  | succ depth ih =>
    intro c args h
    rw [Closure.call, Closure.call, Heap.size_frames_recode, Heap.enter_recode]
    exact Stmt.reread_runBody ih c.body _

namespace Session

/-- A session as a reread program finds it. -/
abbrev reread (s : Session) : Session := { s with heap := s.heap.reread }

theorem run?_reread (depth : Nat) (s : Session) (p : Program) :
    s.reread.run? depth p.reread = (s.run? depth p).map (Prod.map Value.reread Session.reread) := by
  rw [run?, run?, Program.reread]
  have ho : Outcome.Reread _ (Stmt.runBody (Closure.call depth) s.scope p s.heap) _ :=
    Stmt.reread_runBody (Closure.rereads_call depth) p s.heap
  generalize Stmt.runBody (Closure.call depth) s.scope p s.heap = o,
    Stmt.runBody (Closure.call depth) s.scope (Stmt.rereadEach p) s.heap.reread = o' at ho ⊢
  cases ho with
  | done h =>
    obtain ⟨rfl, rfl⟩ := h
    rfl
  | failed e h =>
    subst h
    rfl
  | exhausted => rfl

end Session

/-- Writing a program and reading it again keeps its meaning. Any program of names and integers that
can be written is read back from its text, with its negative integers reread. In a new session the
two programs end within the same depths of calls, with the same integer, boolean, null or error, or
with a function of the same parameters and the reread body. -/
theorem Program.run?_of_render {p : Program} (h : p.Writable (· ≠ Int64.minValue)) :
    Program.ofText? p.render = .ok p.reread ∧
    (∀ depth, (Session.start.run? depth p.reread).map Prod.fst =
      (Session.start.run? depth p).map (Value.reread ∘ Prod.fst)) ∧
    ((∃ depth, (Session.start.run? depth p.reread).isSome) ↔
      ∃ depth, (Session.start.run? depth p).isSome) := by
  have hstart : Session.start.reread = Session.start := by with_unfolding_all rfl
  have hrun (depth : Nat) : Session.start.run? depth p.reread =
      (Session.start.run? depth p).map (Prod.map Value.reread Session.reread) := by
    rw [← Session.run?_reread, hstart]
  refine ⟨Program.ofText?_render_reread h, ?_, ?_⟩
  · intro depth
    rw [hrun, Option.map_map]
    rfl
  · simp only [hrun, Option.isSome_map]

/-- Negative integers as an argument, as an operand in a function, and at the head of calls. -/
def negatives : Program :=
  [.define "f" (.function ["x"] [.ret (.binary (.name "x") .times (.int (-2)))]),
    .expr (.ifThen (.binary (.call (.name "f") [.int (-3)]) .equal (.int 6))
      [.expr (.call (.call (.int (-5)) [.name "f"]) [])])]

theorem Program.run?_of_render_negatives :
    negatives.Writable (· ≠ Int64.minValue) ∧
    Program.ofText? negatives.render = .ok
      [.define "f" (.function ["x"]
          [.ret (.binary (.name "x") .times (.unary .negate (.int 2)))]),
        .expr (.ifThen (.binary (.call (.name "f") [.unary .negate (.int 3)]) .equal (.int 6))
          [.expr (.unary .negate (.call (.call (.int 5) [.name "f"]) []))])] ∧
    (Session.start.run? 1 negatives).map Prod.fst = some (.error (.notAFunction .integer)) ∧
    (Session.start.run? 1 negatives.reread).map Prod.fst =
      some (.error (.notAFunction .integer)) := by
  have hw : negatives.Writable (· ≠ Int64.minValue) := by
    simp [Program.Writable, negatives, Stmt.Writable, Expr.Writable]
    decide
  have hrun : (Session.start.run? 1 negatives).map Prod.fst =
      some (.error (.notAFunction .integer)) := by with_unfolding_all rfl
  obtain ⟨htext, heval, -⟩ := Program.run?_of_render hw
  refine ⟨hw, htext, hrun, ?_⟩
  rw [heval, ← Option.map_map, hrun]
  rfl

end MonkeyLang
