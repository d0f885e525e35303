import MonkeyLang.Grammar.Rules

/-! Rules with more fuel do what they do with less, unless that runs out. -/
namespace MonkeyLang

/-- A rule does the same as another one, or runs out of fuel. -/
def Rule.Approximates {α : Type} (m m' : Rule α) : Prop :=
  ∀ r, m r = .error .outOfFuel ∨ m r = m' r

namespace Rule.Approximates
variable {α β : Type} {m m' m'' : Rule α} {f f' : α → Rule β}

theorem refl (m : Rule α) : m.Approximates m := fun _ => .inr rfl

theorem trans (h : m.Approximates m') (h' : m'.Approximates m'') : m.Approximates m'' := by
  intro r
  obtain hm | hm := h r
  · exact .inl hm
  · rw [hm]
    exact h' r

theorem bind (h : m.Approximates m') (hf : ∀ a, (f a).Approximates (f' a)) :
    (m >>= f).Approximates (m' >>= f') := by
  intro r
  change m.andThen f r = _ ∨ m.andThen f r = m'.andThen f' r
  obtain hm | hm := h r
  · left
    rw [andThen, hm]
  · rw [andThen, andThen, ← hm]
    match m r with
    | .error _ | .ok ⟨none, _, _⟩ => exact .inr rfl
    | .ok ⟨some a, mid, _⟩ =>
      obtain hfa | hfa := hf a mid
      · left
        change (f a mid).map _ = _
        rw [hfa]
        rfl
      · right
        change (f a mid).map _ = (f' a mid).map _
        rw [hfa]

/-- What follows a rule that is the same on both sides. -/
theorem behind (hf : ∀ a, (f a).Approximates (f' a)) : (m >>= f).Approximates (m >>= f') :=
  (refl m).bind hf

/-- A rule in front of what is the same on both sides. -/
theorem before (h : m.Approximates m') : (m >>= f).Approximates (m' >>= f) :=
  h.bind fun a => refl (f a)

theorem attempt (h : m.Approximates m') : m.attempt.Approximates m'.attempt := by
  intro r
  obtain hm | hm := h r
  · left
    rw [Rule.attempt, hm]
    rfl
  · right
    rw [Rule.attempt, Rule.attempt, hm]

theorem within {rule : RuleName} (h : m.Approximates m') :
    (Rule.within rule m).Approximates (Rule.within rule m') := by
  intro r
  obtain hm | hm := h r
  · left
    rw [Rule.within, hm]
    rfl
  · right
    rw [Rule.within, Rule.within, hm]

theorem ite {p : Prop} [Decidable p] {n n' : Rule α} (h : m.Approximates m') (h' : n.Approximates n') :
    (if p then m else n).Approximates (if p then m' else n') := by
  by_cases hp : p
  · rwa [if_pos hp, if_pos hp]
  · rwa [if_neg hp, if_neg hp]

end Rule.Approximates

namespace Rules
open Rule.Approximates

structure Approximate (rules rules' : Rules) : Prop where
  statements : ∀ inBlock, (rules.statements inBlock).Approximates (rules'.statements inBlock)
  expression : ∀ p, (rules.expression p).Approximates (rules'.expression p)
  operators : ∀ p left, (rules.operators p left).Approximates (rules'.operators p left)
  moreParameters : rules.moreParameters.Approximates rules'.moreParameters
  moreArguments : rules.moreArguments.Approximates rules'.moreArguments

variable {rules rules' : Rules}

theorem approximates_letStatement (h : rules.Approximate rules') :
    rules.letStatement.Approximates rules'.letStatement := by
  refine within (behind fun _ => behind fun x => behind fun _ => behind fun _ => ?_)
  exact (h.expression .lowest).before

theorem approximates_returnStatement (h : rules.Approximate rules') :
    rules.returnStatement.Approximates rules'.returnStatement := by
  refine within (behind fun k => ite (refl _) (behind fun _ => ?_))
  exact (h.expression .lowest).before

theorem approximates_expressionStatement (h : rules.Approximate rules') :
    rules.expressionStatement.Approximates rules'.expressionStatement :=
  within (h.expression .lowest).before

theorem approximates_statement (h : rules.Approximate rules') :
    rules.statement.Approximates rules'.statement := by
  refine within (behind fun k => ?_)
  split
  · exact approximates_letStatement h
  · exact approximates_returnStatement h
  · exact approximates_expressionStatement h

theorem approximates_block (h : rules.Approximate rules') :
    rules.block.Approximates rules'.block :=
  within (behind fun _ => h.statements true)

theorem approximates_prefixOperation (h : rules.Approximate rules') :
    rules.prefixOperation.Approximates rules'.prefixOperation := by
  refine within (behind fun k => behind fun op => behind fun _ => ?_)
  exact (h.expression .unary).before

theorem approximates_group (h : rules.Approximate rules') :
    rules.group.Approximates rules'.group :=
  within (behind fun _ => (h.expression .lowest).before)

theorem approximates_conditional (h : rules.Approximate rules') :
    rules.conditional.Approximates rules'.conditional := by
  refine within (behind fun _ => behind fun _ => (h.expression .lowest).bind fun c => ?_)
  refine behind fun _ => behind fun _ => (approximates_block h).bind fun body => ?_
  refine behind fun k => ite (behind fun _ => behind fun _ => ?_) (refl _)
  exact (approximates_block h).before

theorem approximates_parameters (h : rules.Approximate rules') :
    rules.parameters.Approximates rules'.parameters := by
  refine within (behind fun k => ite (refl _) (behind fun _ => behind fun x => ?_))
  exact h.moreParameters.before

theorem approximates_function (h : rules.Approximate rules') :
    rules.function.Approximates rules'.function := by
  refine within (behind fun _ => (approximates_parameters h).bind fun xs => behind fun _ => ?_)
  exact (approximates_block h).before

theorem approximates_binary (h : rules.Approximate rules') (left : Expr) :
    (rules.binary left).Approximates (rules'.binary left) := by
  refine within (behind fun k => behind fun op => behind fun _ => ?_)
  exact (h.expression k.infixPrecedence).before

theorem approximates_call (h : rules.Approximate rules') (callee : Expr) :
    (rules.call callee).Approximates (rules'.call callee) := by
  refine within (behind fun k => ite (refl _) (behind fun _ => ?_))
  exact (h.expression .lowest).bind fun a => h.moreArguments.before

/-- The table of the operands has a rule on both sides or on none. -/
theorem approximates_prefixRule? (h : rules.Approximate rules') (k : Kind) :
    Option.Rel Rule.Approximates (rules.prefixRule? k) (rules'.prefixRule? k) := by
  unfold prefixRule?
  split
  · exact .some (refl _)
  · exact .some (refl _)
  · exact .some (refl _)
  · exact .some (refl _)
  · exact .some (approximates_prefixOperation h)
  · exact .some (approximates_prefixOperation h)
  · exact .some (approximates_group h)
  · exact .some (approximates_conditional h)
  · exact .some (approximates_function h)
  · exact .none

theorem approximates_infixRule? (h : rules.Approximate rules') (k : Kind) :
    Option.Rel (fun f f' => ∀ left, (f left).Approximates (f' left))
      (rules.infixRule? k) (rules'.infixRule? k) := by
  unfold infixRule?
  split
  case h_9 => exact .some (approximates_call h)
  case h_10 => exact .none
  all_goals exact .some (approximates_binary h)

theorem approximates_statementsOnce (h : rules.Approximate rules') (inBlock : Bool) :
    (rules.statementsOnce inBlock).Approximates (rules'.statementsOnce inBlock) := by
  refine within (behind fun k => ite (refl _) ?_)
  refine (approximates_statement h).attempt.bind fun s => behind fun _ => ?_
  exact (h.statements inBlock).before

theorem approximates_expressionOnce (h : rules.Approximate rules') (p : Precedence) :
    (rules.expressionOnce p).Approximates (rules'.expressionOnce p) := by
  refine within (behind fun k => ?_)
  have hrule := approximates_prefixRule? h k
  generalize rules.prefixRule? k = operand, rules'.prefixRule? k = operand' at hrule
  cases hrule with
  | none => exact refl _
  | some hm => exact hm.bind fun left => h.operators p left

theorem approximates_operatorsOnce (h : rules.Approximate rules') (p : Precedence) (left : Expr) :
    (rules.operatorsOnce p left).Approximates (rules'.operatorsOnce p left) := by
  refine within (behind fun k => ite ?_ (refl _))
  have hrule := approximates_infixRule? h k
  generalize rules.infixRule? k = operation, rules'.infixRule? k = operation' at hrule
  cases hrule with
  | none => exact refl _
  | some hm => exact behind fun _ => (hm left).bind fun more => h.operators p more

theorem approximates_moreParametersOnce (h : rules.Approximate rules') :
    rules.moreParametersOnce.Approximates rules'.moreParametersOnce := by
  refine within (behind fun k => ite (behind fun _ => behind fun _ => behind fun x => ?_) (refl _))
  exact h.moreParameters.before

theorem approximates_moreArgumentsOnce (h : rules.Approximate rules') :
    rules.moreArgumentsOnce.Approximates rules'.moreArgumentsOnce := by
  refine within (behind fun k => ite (behind fun _ => behind fun _ => ?_) (refl _))
  exact (h.expression .lowest).bind fun a => h.moreArguments.before

theorem approximate_succ (fuel : Nat) : (upTo fuel).Approximate (upTo (fuel + 1)) := by
  induction fuel with
  | zero => exact ⟨fun _ _ => .inl rfl, fun _ _ => .inl rfl, fun _ _ _ => .inl rfl, fun _ => .inl rfl,
      fun _ => .inl rfl⟩
  | succ fuel ih => exact ⟨approximates_statementsOnce ih, approximates_expressionOnce ih,
      approximates_operatorsOnce ih, approximates_moreParametersOnce ih,
      approximates_moreArgumentsOnce ih⟩

/-- A text that is read with some fuel is read in the same way with more. -/
theorem approximates_statements_of_le {fuel more : Nat} (hle : fuel ≤ more) (inBlock : Bool) :
    ((upTo fuel).statements inBlock).Approximates ((upTo more).statements inBlock) := by
  induction hle with
  | refl => exact refl _
  | step _ ih => exact ih.trans ((approximate_succ _).statements inBlock)

end Rules

theorem Reader.parse_approximates {fuel more : Nat} (hle : fuel ≤ more) (source : String) :
    parse fuel source = .error .outOfFuel ∨ parse fuel source = parse more source :=
  Rules.approximates_statements_of_le hle false (start source)

end MonkeyLang
