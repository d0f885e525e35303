import MonkeyLang.Proofs.Grammar.Lookahead

/-! The rules of the language do what the steps of the grammar do, from the tokens behind the current
one on. Each rule is compared by itself, with the rules that it calls again taken as they are for
lighter calls. -/
namespace MonkeyLang
namespace Rules
open Rule RuleName

/-- The rules do what the steps of the grammar do, as long as their calls weigh less than a limit. -/
structure Meet (rules : Rules) (limit : Nat) : Prop where
  statements : ∀ inBlock ts, weight .statements ts < limit →
    (rules.statements inBlock).MeetsAs .statements ts (Grammar.statements inBlock ts).kept
  expression : ∀ p ts, weight .expression ts < limit →
    (rules.expression p).MeetsAs .expression ts (Grammar.expression p ts)
  operators : ∀ p left ts, weight .operators ts < limit →
    (rules.operators p left).MeetsAs .operators ts (Grammar.operators p left ts.tail)
  moreParameters : ∀ ts, weight .moreParameters ts < limit →
    rules.moreParameters.MeetsAs .moreParameters ts (Grammar.moreParameters ts.tail)
  moreArguments : ∀ ts, weight .moreArguments ts < limit →
    rules.moreArguments.MeetsAs .moreArguments ts (Grammar.moreArguments ts.tail)

section
variable {rules : Rules} {limit : Nat} {ts : List Token}

theorem Meet.mono {less : Nat} (h : rules.Meet limit) (hle : less ≤ limit) : rules.Meet less where
  statements inBlock ts hw := h.statements inBlock ts (hw.trans_le hle)
  expression p ts hw := h.expression p ts (hw.trans_le hle)
  operators p left ts hw := h.operators p left ts (hw.trans_le hle)
  moreParameters ts hw := h.moreParameters ts (hw.trans_le hle)
  moreArguments ts hw := h.moreArguments ts (hw.trans_le hle)

theorem Meet.expression_below (h : rules.Meet limit) {p : Precedence}
    (hw : weight .expression ts < limit) :
    (rules.expression p).Meets ts limit (Grammar.expression p ts) :=
  (h.expression p ts hw).below hw

/-- A rule that calls another one by name makes a lighter call. -/
theorem Meet.use {α : Type} {n : Nat} {rule : RuleName} {m : Rule α} {s : Attempt α n}
    (h : rules.Meet limit) (hm : rules.Meet (rule.weight ts) → m.MeetsAs rule ts s)
    (hw : rule.weight ts < limit) : m.Meets ts limit s :=
  (hm (h.mono hw.le)).below hw

end

theorem exists_of_ahead_tail {ts : List Token} {k : Kind} (h : Kind.ahead ts.tail = k)
    (hk : k ≠ .endOfInput) : ∃ t u rest, ts = t :: u :: rest ∧ u.kind = k := by
  match ts with
  | [] => exact (hk h.symm).elim
  | [_] => exact (hk h.symm).elim
  | t :: u :: rest => exact ⟨t, u, rest, rfl, h⟩

theorem exists_of_ahead_tail_symbol {ts : List Token} {s : Symbol}
    (h : Kind.ahead ts.tail = .symbol s) : ∃ t rest, ts = t :: .symbol s :: rest := by
  obtain ⟨t, u, rest, rfl, hu⟩ := exists_of_ahead_tail h nofun
  exact ⟨t, rest, by rw [kind_eq_symbol_iff.mp hu]⟩

variable {rules : Rules} {ts : List Token}

theorem meets_name {x : String} :
    Rules.name.MeetsAs .name (.name x :: ts) (Grammar.operand (.name x) ts) := by
  rw [Grammar.operand]
  exact Meets.within (meets_lexeme meets_pure)

theorem meets_int {digits : String} :
    Rules.int.MeetsAs .int (.int digits :: ts) (Grammar.operand (.int digits) ts) := by
  rw [Grammar.operand]
  refine Meets.within (meets_lexeme ?_)
  have hl : (Token.int digits).lexeme = digits := rfl
  rw [hl]
  cases Decimal.read? digits with
  | none => exact meets_fail
  | some n => exact meets_pure

theorem meets_bool {k : Keyword} (hk : k = .trueKw ∨ k = .falseKw) :
    Rules.bool.MeetsAs .bool (.keyword k :: ts) (Grammar.operand (.keyword k) ts) := by
  obtain rfl | rfl := hk
  · rw [Grammar.operand]
    exact Meets.within (meets_currentKind meets_pure)
  · rw [Grammar.operand]
    exact Meets.within (meets_currentKind meets_pure)

theorem meets_block (h : rules.Meet (weight .block ts)) :
    rules.block.MeetsAs .block ts (Grammar.statements true ts.tail).kept := by
  have hw : weight .statements ts.tail < weight .block ts :=
    weight_lt_of_rank (List.tail_suffix ts).length_le (by decide)
  exact Meets.within (meets_advance ((h.statements true ts.tail hw).below hw))

theorem meets_group (h : rules.Meet (weight .group (.symbol .leftParen :: ts))) :
    rules.group.MeetsAs .group (.symbol .leftParen :: ts)
      (Grammar.operand (.symbol .leftParen) ts) := by
  rw [Grammar.operand]
  refine Meets.within (meets_advance ?_)
  refine (h.expression_below (weight_lt_cons le_rfl)).andThen ?_
  intro e us _ _
  refine meets_consume ?_
  intro rest _ _
  exact meets_pure

theorem meets_prefixOperation {s : Symbol} {op : PrefixOp} (hs : PrefixOp.ofSymbol? s = some op)
    (h : rules.Meet (weight .prefixOperation (.symbol s :: ts))) :
    rules.prefixOperation.MeetsAs .prefixOperation (.symbol s :: ts)
      (Grammar.operand (.symbol s) ts) := by
  have hop : prefixOp (.symbol s) = pure op := by
    cases s <;> cases hs <;> rfl
  have hoperand : Grammar.operand (.symbol s) ts = (Grammar.expression .unary ts).map (.unary op) := by
    rw [Grammar.operand, hs]
    rintro rfl
    cases hs
  rw [hoperand]
  refine Meets.within (meets_currentKind ?_)
  change (prefixOp (.symbol s) >>= _).Meets _ _ _
  rw [hop]
  exact meets_of_pure (meets_advance (h.expression_below (weight_lt_cons le_rfl)).map)

theorem meets_conditional (h : rules.Meet (weight .conditional (.keyword .ifKw :: ts))) :
    rules.conditional.MeetsAs .conditional (.keyword .ifKw :: ts)
      (Grammar.operand (.keyword .ifKw) ts) := by
  have hblock {us : List Token} (hus : us.length ≤ ts.length) :
      rules.block.Meets us (weight .conditional (.keyword .ifKw :: ts))
        (Grammar.statements true us.tail).kept :=
    h.use meets_block (weight_lt_cons hus)
  rw [Grammar.operand]
  refine Meets.within (meets_consume ?_)
  intro vs _ hvs
  rw [List.length_cons] at hvs
  refine meets_advance ?_
  refine (h.expression_below (weight_lt_cons (by rw [List.tail_cons]; omega))).andThen ?_
  intro c us _ hus
  rw [List.tail_cons] at hus
  refine meets_consume ?_
  intro ws _ hws
  refine meets_consume ?_
  intro body _ hbody
  rw [List.length_cons] at hbody
  refine (hblock (by rw [List.length_cons]; omega)).andThen ?_
  intro b us hle hus'
  rw [List.length_cons] at hus'
  refine meets_nextKind ?_
  by_cases helse : Kind.ahead us.tail = .keyword .elseKw
  · obtain ⟨t, u, rest, rfl, hu⟩ := exists_of_ahead_tail helse nofun
    obtain rfl : u = .keyword .elseKw := by
      cases u <;> cases hu
      rfl
    rw [if_pos helse]
    simp only [List.length_cons] at hus'
    refine meets_advance (Meets.weaken (meets_consume ?_))
    intro other _ hother
    rw [List.tail_cons, List.length_cons] at hother
    exact (hblock (by rw [List.length_cons]; omega)).map
  · rw [if_neg helse]
    rcases us with _ | ⟨t, _ | ⟨u, rest⟩⟩
    · exact meets_pure
    · exact meets_pure
    · cases u with
      | keyword k =>
        cases k with
        | elseKw => exact (helse rfl).elim
        | _ => exact meets_pure
      | _ => exact meets_pure

theorem meets_parameters (h : rules.Meet (weight .parameters ts)) :
    rules.parameters.MeetsAs .parameters ts (Grammar.parameters ts.tail) := by
  refine Meets.within (meets_nextKind ?_)
  by_cases hclose : Kind.ahead ts.tail = .symbol .rightParen
  · obtain ⟨t, rest, rfl⟩ := exists_of_ahead_tail_symbol hclose
    rw [if_pos hclose, List.tail_cons, Grammar.parameters]
    exact meets_advance (Meets.weaken meets_pure)
  · have hparameters : Grammar.parameters ts.tail =
        (Grammar.expectName ts.tail).andThen fun x rest _ =>
          (Grammar.moreParameters rest).map (x :: ·) := by
      rw [Grammar.parameters]
      intro rest hrest
      exact hclose (congrArg Kind.ahead hrest)
    rw [if_neg hclose, hparameters]
    refine meets_consumeName ?_
    intro x rest _ hrest
    have hw : weight .moreParameters (.name x :: rest) < weight .parameters ts :=
      weight_lt (by rwa [List.length_cons])
    exact ((h.moreParameters _ hw).below hw).map

theorem meets_moreParametersOnce (h : rules.Meet (weight .moreParameters ts)) :
    rules.moreParametersOnce.MeetsAs .moreParameters ts (Grammar.moreParameters ts.tail) := by
  refine Meets.within (meets_nextKind ?_)
  by_cases hcomma : Kind.ahead ts.tail = .symbol .comma
  · obtain ⟨t, rest, rfl⟩ := exists_of_ahead_tail_symbol hcomma
    rw [if_pos hcomma, List.tail_cons, Grammar.moreParameters]
    refine meets_advance (Meets.weaken (meets_consumeName ?_))
    intro x us _ hus
    rw [List.tail_cons, List.length_cons] at hus
    have hw : weight .moreParameters (.name x :: us) <
        weight .moreParameters (t :: .symbol .comma :: rest) :=
      weight_lt_cons (by simp only [List.length_cons]; omega)
    exact ((h.moreParameters _ hw).below hw).map
  · have hmore : Grammar.moreParameters ts.tail =
        (Grammar.expect .rightParen ts.tail).andThen fun _ rest _ => Attempt.done [] rest := by
      rw [Grammar.moreParameters]
      intro rest hrest
      exact hcomma (congrArg Kind.ahead hrest)
    rw [if_neg hcomma, hmore]
    refine meets_consume ?_
    intro rest _ _
    exact meets_pure

theorem meets_function (h : rules.Meet (weight .function (.keyword .fnKw :: ts))) :
    rules.function.MeetsAs .function (.keyword .fnKw :: ts)
      (Grammar.operand (.keyword .fnKw) ts) := by
  rw [Grammar.operand]
  refine Meets.within (meets_consume ?_)
  intro vs _ hvs
  rw [List.length_cons] at hvs
  refine (h.use meets_parameters (weight_lt_cons (by rw [List.length_cons]; omega))).andThen ?_
  intro xs us _ hus
  rw [List.length_cons] at hus
  refine meets_consume ?_
  intro body _ hbody
  exact (h.use meets_block (weight_lt_cons (by rw [List.length_cons]; omega))).map

theorem infixPrecedence_of_ofSymbol? {s : Symbol} {op : InfixOp} (h : InfixOp.ofSymbol? s = some op) :
    (Kind.symbol s).infixPrecedence = op.precedence := by
  cases s <;> cases h <;> rfl

theorem meets_binary {s : Symbol} {op : InfixOp} {left : Expr} (hs : InfixOp.ofSymbol? s = some op)
    (h : rules.Meet (weight .binary (.symbol s :: ts))) :
    (rules.binary left).MeetsAs .binary (.symbol s :: ts)
      ((Grammar.expression op.precedence ts).map (.binary left op)) := by
  have hop : infixOp (.symbol s) = pure op := by
    cases s <;> cases hs <;> rfl
  refine Meets.within (meets_currentKind ?_)
  change (infixOp (.symbol s) >>= fun op => advance >>= fun _ =>
    rules.expression (Kind.symbol s).infixPrecedence >>= _).Meets _ _ _
  rw [hop, infixPrecedence_of_ofSymbol? hs]
  exact meets_of_pure (meets_advance (h.expression_below (weight_lt_cons le_rfl)).map)

theorem meets_call {callee : Expr} (h : rules.Meet (weight .call (.symbol .leftParen :: ts))) :
    (rules.call callee).MeetsAs .call (.symbol .leftParen :: ts)
      ((Grammar.arguments ts).map (.call callee)) := by
  refine Meets.within (meets_nextKind ?_)
  by_cases hclose : Kind.ahead (Token.symbol .leftParen :: ts).tail = .symbol .rightParen
  · obtain ⟨_, rest, hts⟩ := exists_of_ahead_tail_symbol hclose
    obtain ⟨-, rfl⟩ := List.cons.inj hts
    rw [if_pos hclose, Grammar.arguments]
    exact meets_advance (meets_pure.congr rfl rfl rfl)
  · have harguments : Grammar.arguments ts = (Grammar.expression .lowest ts).andThen fun a us _ =>
        (Grammar.moreArguments us).map (a :: ·) := by
      rw [Grammar.arguments]
      intro rest hrest
      exact hclose (congrArg Kind.ahead hrest)
    rw [if_neg hclose, harguments, Attempt.map_andThen]
    refine meets_advance ((h.expression_below (weight_lt_cons le_rfl)).andThen ?_)
    intro a us _ hus
    have hw : weight .moreArguments us < weight .call (.symbol .leftParen :: ts) := weight_lt_cons hus
    rw [Attempt.map_map]
    exact ((h.moreArguments us hw).below hw).map

theorem meets_moreArgumentsOnce (h : rules.Meet (weight .moreArguments ts)) :
    rules.moreArgumentsOnce.MeetsAs .moreArguments ts (Grammar.moreArguments ts.tail) := by
  refine Meets.within (meets_nextKind ?_)
  by_cases hcomma : Kind.ahead ts.tail = .symbol .comma
  · obtain ⟨t, rest, rfl⟩ := exists_of_ahead_tail_symbol hcomma
    have hlight {rule : RuleName} {us : List Token} (hus : us.length ≤ rest.length) :
        weight rule us < weight .moreArguments (t :: .symbol .comma :: rest) :=
      weight_lt_cons (hus.trans (Nat.le_succ _))
    rw [if_pos hcomma, List.tail_cons, Grammar.moreArguments]
    refine meets_advance (meets_advance (Meets.weaken ?_))
    refine (h.expression_below (hlight le_rfl)).andThen ?_
    intro a us _ hus
    exact ((h.moreArguments us (hlight hus)).below (hlight hus)).map
  · have hmore : Grammar.moreArguments ts.tail =
        (Grammar.expect .rightParen ts.tail).andThen fun _ rest _ => Attempt.done [] rest := by
      rw [Grammar.moreArguments]
      intro rest hrest
      exact hcomma (congrArg Kind.ahead hrest)
    rw [if_neg hcomma, hmore]
    refine meets_consume ?_
    intro rest _ _
    exact meets_pure

/-- There is a rule for what an operand starts with in the grammar, and none for what the grammar
refuses. -/
theorem meets_operand {t : Token} (h : rules.Meet (weight .expression (t :: ts))) :
    match rules.prefixRule? t.kind with
    | none => Grammar.operand t ts = Attempt.fail (.noOperand t.kind) (ts.length + 1) ts
    | some m => m.Meets (t :: ts) (weight .expression (t :: ts)) (Grammar.operand t ts) := by
  have hlight {rule : RuleName} (hr : rule.rank = 1) :
      weight rule (t :: ts) < weight .expression (t :: ts) :=
    weight_lt_of_rank le_rfl (by rw [hr]; decide)
  cases t with
  | name x => exact meets_name.below (hlight rfl)
  | int digits => exact meets_int.below (hlight rfl)
  | illegal c => exact Grammar.operand.eq_def _ _
  | keyword k =>
    cases k with
    | trueKw => exact (meets_bool (.inl rfl)).below (hlight rfl)
    | falseKw => exact (meets_bool (.inr rfl)).below (hlight rfl)
    | ifKw => exact h.use meets_conditional (hlight rfl)
    | fnKw => exact h.use meets_function (hlight rfl)
    | _ => exact Grammar.operand.eq_def _ _
  | symbol s =>
    cases s with
    | leftParen => exact h.use meets_group (hlight rfl)
    | bang => exact h.use (meets_prefixOperation rfl) (hlight rfl)
    | minus => exact h.use (meets_prefixOperation rfl) (hlight rfl)
    | _ => exact Grammar.operand.eq_def _ _

theorem meets_expressionOnce {p : Precedence} (h : rules.Meet (weight .expression ts)) :
    (rules.expressionOnce p).MeetsAs .expression ts (Grammar.expression p ts) := by
  refine Meets.within (meets_currentKind ?_)
  cases ts with
  | nil =>
    rw [Grammar.expression]
    exact meets_fail
  | cons t ts =>
    have hoperand := meets_operand h
    rw [Grammar.expression, Grammar.expressionFrom]
    change Rule.Meets (match rules.prefixRule? t.kind with | none => _ | some operand => _) _ _ _
    cases hm : rules.prefixRule? t.kind with
    | none =>
      rw [hm] at hoperand
      rw [hoperand]
      exact meets_fail.congr rfl rfl rfl
    | some m =>
      rw [hm] at hoperand
      refine Meets.weaken (hoperand.andThen ?_)
      intro left us _ hus
      have hw : weight .operators us < weight .expression (t :: ts) := weight_lt_of_rank hus (by decide)
      exact (h.operators p left us hw).below hw

theorem not_lt_lowest (p : Precedence) : ¬ p < .lowest := Nat.not_lt_zero p.rank

/-- What binds at all is the parenthesis of a call or an infix operator. -/
theorem symbol_of_lt_infixPrecedence {p : Precedence} {k : Kind} (h : p < k.infixPrecedence) :
    ∃ s, k = .symbol s ∧ (s = .leftParen ∨ ∃ op, InfixOp.ofSymbol? s = some op) := by
  cases k with
  | symbol s =>
    refine ⟨s, rfl, ?_⟩
    cases hs : InfixOp.ofSymbol? s with
    | some op => exact .inr ⟨op, rfl⟩
    | none =>
      cases s with
      | leftParen => exact .inl rfl
      | plus | minus | star | slash | greater | less | bangEqual | equalEqual => cases hs
      | _ => exact (not_lt_lowest p h).elim
  | _ => exact (not_lt_lowest p h).elim

theorem infixRule?_of_ofSymbol? {s : Symbol} {op : InfixOp} (h : InfixOp.ofSymbol? s = some op) :
    rules.infixRule? (.symbol s) = some rules.binary := by
  cases s <;> cases h <;> rfl

theorem operators_of_not_lt {p : Precedence} {left : Expr}
    (h : ¬ p < (Kind.ahead ts).infixPrecedence) :
    Grammar.operators p left ts = Attempt.done left ts := by
  cases ts with
  | nil => exact Grammar.operators.eq_def _ _ _
  | cons t ts =>
    cases t with
    | symbol s =>
      rw [Grammar.operators]
      split
      · rename_i hs
        subst hs
        exact if_neg h
      · split
        · rename_i op hs
          exact if_neg (infixPrecedence_of_ofSymbol? hs ▸ h)
        · rfl
    | _ => exact Grammar.operators.eq_def _ _ _

theorem Meet.operators_behind {α : Type} {n limit : Nat} {p : Precedence} {m : Rule Expr}
    {s : Attempt α n} {g : α → Expr} (h : rules.Meet limit) (hts : weight .operators ts < limit)
    (hm : m.Meets ts limit (s.map g)) :
    (m >>= fun left => rules.operators p left).Meets ts limit
      (s.andThen fun a rest _ => Grammar.operators p (g a) rest) := by
  rw [← Attempt.andThen_map s g fun left rest _ => Grammar.operators p left rest]
  refine hm.andThen ?_
  intro left us _ hus
  have hw : weight .operators us < limit := by
    simp only [weight] at hts ⊢
    omega
  exact (h.operators p left us hw).below hw

/-- The loop over the operators goes on exactly where the grammar goes on: the tables of the rules
and of the precedences agree. -/
theorem meets_operatorsOnce {p : Precedence} {left : Expr} (h : rules.Meet (weight .operators ts)) :
    (rules.operatorsOnce p left).MeetsAs .operators ts (Grammar.operators p left ts.tail) := by
  refine Meets.within (meets_nextKind ?_)
  by_cases hp : p < (Kind.ahead ts.tail).infixPrecedence
  · obtain ⟨s, hk, hs⟩ := symbol_of_lt_infixPrecedence hp
    obtain ⟨t, rest, rfl⟩ := exists_of_ahead_tail_symbol hk
    have hlight {rule : RuleName} :
        weight rule (.symbol s :: rest) < weight .operators (t :: .symbol s :: rest) :=
      weight_lt_cons le_rfl
    have hne : s ≠ .semicolon := by
      rintro rfl
      obtain hs | ⟨op, hs⟩ := hs <;> cases hs
    have htail : (t :: .symbol s :: rest).tail = .symbol s :: rest := rfl
    have hahead : Kind.ahead (.symbol s :: rest) = .symbol s := rfl
    rw [htail, hahead] at hp ⊢
    rw [if_pos ⟨fun he => hne (Kind.symbol.inj he), hp⟩, Grammar.operators]
    -- Both tables know the symbol, as the start of a call or as an operator.
    obtain rfl | ⟨op, hs⟩ := hs
    · have hcall : rules.infixRule? (.symbol .leftParen) = some rules.call := rfl
      have hprecedence : p < .call := hp
      rw [hcall, if_pos rfl, if_pos hprecedence]
      refine meets_advance (Meets.weaken (h.operators_behind hlight ?_))
      exact h.use meets_call hlight
    · have hparen : s ≠ .leftParen := by
        rintro rfl
        cases hs
      rw [infixPrecedence_of_ofSymbol? hs] at hp
      rw [infixRule?_of_ofSymbol? hs, if_neg hparen, hs]
      change Rule.Meets _ _ _ (if p < op.precedence then _ else _)
      rw [if_pos hp]
      refine meets_advance (Meets.weaken (h.operators_behind hlight ?_))
      exact h.use (meets_binary hs) hlight
  · rw [if_neg (fun h => hp h.2), operators_of_not_lt hp]
    exact meets_pure

theorem meets_letStatement (h : rules.Meet (weight .letStatement (.keyword .letKw :: ts))) :
    rules.letStatement.MeetsAs .letStatement (.keyword .letKw :: ts)
      (Grammar.statement (.keyword .letKw) ts) := by
  rw [Grammar.statement, Attempt.skipping_andThen]
  refine Meets.within (meets_consumeName ?_)
  intro x us _ hus
  rw [List.length_cons] at hus
  rw [Attempt.skipping_andThen]
  refine meets_consume ?_
  intro vs _ hvs
  rw [List.length_cons] at hvs
  refine meets_advance ?_
  exact (h.expression_below (weight_lt_cons (by rw [List.tail_cons]; omega))).skipping

theorem meets_returnStatement (h : rules.Meet (weight .returnStatement (.keyword .returnKw :: ts))) :
    rules.returnStatement.MeetsAs .returnStatement (.keyword .returnKw :: ts)
      (Grammar.statement (.keyword .returnKw) ts) := by
  have hends : Grammar.endsReturn ts = true ↔ Kind.ahead ts = .symbol .semicolon ∨
      Kind.ahead ts = .symbol .rightBrace ∨ Kind.ahead ts = .endOfInput := by
    cases ts with
    | nil => simp [Grammar.endsReturn, Kind.ahead]
    | cons t ts => cases t <;> simp [Grammar.endsReturn, Kind.ahead, Token.kind]
  rw [Grammar.statement]
  refine Meets.within (meets_nextKind ?_)
  rw [List.tail_cons]
  by_cases he : Grammar.endsReturn ts = true
  · rw [if_pos he, if_pos (hends.mp he)]
    exact meets_skipSemicolon
  · rw [if_neg he, if_neg (mt hends.mpr he)]
    exact meets_advance (h.expression_below (weight_lt_cons le_rfl)).skipping

theorem meets_expressionStatement {t : Token} (h : rules.Meet (weight .expressionStatement (t :: ts))) :
    rules.expressionStatement.MeetsAs .expressionStatement (t :: ts)
      (Attempt.skipping (.symbol .semicolon) ((Grammar.expressionFrom .lowest t ts).map .expr)) := by
  have hw : weight .expression (t :: ts) < weight .expressionStatement (t :: ts) :=
    weight_lt_of_rank le_rfl (by decide)
  have hexpression := h.expression_below (p := .lowest) hw
  rw [Grammar.expression] at hexpression
  exact Meets.within (Meets.skipping (hexpression.congr rfl rfl rfl))

theorem meets_statement {t : Token} (h : rules.Meet (weight .statement (t :: ts))) :
    rules.statement.MeetsAs .statement (t :: ts) (Grammar.statement t ts) := by
  have hlight {rule : RuleName} (hr : rule.rank = 3) :
      weight rule (t :: ts) < weight .statement (t :: ts) :=
    weight_lt_of_rank le_rfl (by rw [hr]; decide)
  have hother := h.use meets_expressionStatement (hlight rfl)
  refine Meets.within (meets_currentKind ?_)
  cases t with
  | keyword k =>
    cases k with
    | letKw => exact h.use meets_letStatement (hlight rfl)
    | returnKw => exact h.use meets_returnStatement (hlight rfl)
    | _ => rw [Grammar.statement] <;> first | exact hother | nofun
  | _ => rw [Grammar.statement] <;> first | exact hother | nofun

/-- A statement that is given up leaves its errors, and the next one is read behind it. -/
theorem meets_statementsOnce {inBlock : Bool} (h : rules.Meet (weight .statements ts)) :
    (rules.statementsOnce inBlock).MeetsAs .statements ts (Grammar.statements inBlock ts).kept := by
  refine Meets.within (meets_currentKind ?_)
  cases ts with
  | nil =>
    rw [Grammar.statements, if_pos (.inl rfl)]
    refine meets_pure.congr rfl rfl ?_
    cases inBlock <;> rfl
  | cons t ts =>
    have hclose : (Kind.ahead (t :: ts) = .endOfInput ∨
        inBlock = true ∧ Kind.ahead (t :: ts) = .symbol .rightBrace) ↔
          inBlock = true ∧ t = .symbol .rightBrace := by
      have hend : Kind.ahead (t :: ts) ≠ .endOfInput := by cases t <;> nofun
      rw [or_iff_right hend]
      exact and_congr_right fun _ => kind_eq_symbol_iff
    rw [Grammar.statements]
    by_cases hc : inBlock = true ∧ t = .symbol .rightBrace
    · rw [if_pos (hclose.mpr hc), if_pos hc]
      exact meets_pure.congr rfl rfl rfl
    · rw [if_neg (mt hclose.mp hc), if_neg hc]
      have hstatement := h.use meets_statement (weight_lt_of_rank (le_refl (t :: ts).length) (by decide))
      generalize Grammar.statement t ts = first at hstatement
      obtain ⟨v, rest, report, hle⟩ := first
      have hbehind : ∀ us : List Token, us.tail = rest →
          (do advance; let ss ← rules.statements inBlock; return v.toOption.toList ++ ss).Meets us
            (weight .statements (t :: ts))
            ((Grammar.statements inBlock rest).kept.map (v.toOption.toList ++ ·)) := by
        rintro us rfl
        have hw : weight .statements us.tail < weight .statements (t :: ts) := weight_lt_cons hle
        exact meets_advance ((h.statements inBlock us.tail hw).below hw).map
      cases v with
      | error d =>
        refine hstatement.attempt hbehind rfl rfl ?_
        simp [Attempt.own, Step.kept, Attempt.map, Report.abandoned]
      | ok s =>
        refine hstatement.attempt hbehind rfl rfl ?_
        simp [Attempt.own, Step.kept, Attempt.map]

/-- Calls that weigh less than the fuel end. -/
theorem upTo_meet (fuel : Nat) : (upTo fuel).Meet fuel := by
  -- With one more unit of fuel a rule only calls the rules of before, and these with less weight.
  induction fuel with
  | zero => exact ⟨nofun, nofun, nofun, nofun, nofun⟩
  | succ fuel ih =>
    refine ⟨?_, ?_, ?_, ?_, ?_⟩
    · intro inBlock ts hw
      exact meets_statementsOnce (ih.mono (Nat.le_of_lt_succ hw))
    · intro p ts hw
      exact meets_expressionOnce (ih.mono (Nat.le_of_lt_succ hw))
    · intro p left ts hw
      exact meets_operatorsOnce (ih.mono (Nat.le_of_lt_succ hw))
    · intro ts hw
      exact meets_moreParametersOnce (ih.mono (Nat.le_of_lt_succ hw))
    · intro ts hw
      exact meets_moreArgumentsOnce (ih.mono (Nat.le_of_lt_succ hw))

end Rules
end MonkeyLang
