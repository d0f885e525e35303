import MonkeyLang.Grammar.Reading
import MonkeyLang.Proofs.Grammar.Success
import MonkeyLang.Proofs.Token.Layout

/-! Reading in front of a semicolon. As long as the end of the input closes no block, what stands
behind the semicolon has no effect on what is read in front of it, errors included. -/
namespace MonkeyLang

/-- The diagnostic when `n` more tokens stand behind the input. -/
def Diagnostic.before (d : Diagnostic) (n : Nat) : Diagnostic := { d with unread := d.unread + n }

namespace Report

/-- The report when `n` more tokens stand behind the input. -/
def before (r : Report) (n : Nat) : Report :=
  { r with diagnostics := r.diagnostics.map (·.before n) }

@[simp] theorem before_append (a b : Report) (n : Nat) :
    (a ++ b).before n = a.before n ++ b.before n := by
  change before (append a b) n = append (before a n) (before b n)
  simp [before, append]

@[simp] theorem before_empty (n : Nat) : empty.before n = empty := rfl

@[simp] theorem errors_before (r : Report) (n : Nat) :
    (r.before n).diagnostics.map (·.error) = r.diagnostics.map (·.error) := by
  simp [before, Diagnostic.before]

end Report

/-- Tokens of which the last one is a semicolon. -/
def Terminated (ts : List Token) : Prop := ts.getLast? = some (.symbol .semicolon)

/-- What may be left of tokens of which the last one is a semicolon. -/
def Leftover (ts : List Token) : Prop := ts = [] ∨ Terminated ts

theorem Terminated.exists_cons {ts : List Token} (h : Terminated ts) : ∃ t us, ts = t :: us := by
  cases ts with
  | nil => cases h
  | cons t us => exact ⟨t, us, rfl⟩

theorem Terminated.leftover {t : Token} {ts : List Token} (h : Terminated (t :: ts)) : Leftover ts := by
  cases ts with
  | nil => exact .inl rfl
  | cons u ts => exact .inr (by rwa [Terminated, List.getLast?_cons_cons] at h)

theorem Terminated.tail {t : Token} {ts : List Token} (h : Terminated (t :: ts))
    (ht : t ≠ .symbol .semicolon) : Terminated ts := by
  obtain rfl | h' := h.leftover
  · exact (ht (Option.some.inj h)).elim
  · exact h'

theorem Terminated.leftover_skip {ts : List Token} (h : Terminated ts) :
    Leftover (Token.skip (.symbol .semicolon) ts) := by
  obtain ⟨t, ts, rfl⟩ := h.exists_cons
  rw [Token.skip]
  split
  · exact h.leftover
  · exact .inr h

theorem Terminated.skip_append {ts : List Token} (h : Terminated ts) (us : List Token) :
    Token.skip (.symbol .semicolon) (ts ++ us) = Token.skip (.symbol .semicolon) ts ++ us := by
  obtain ⟨t, ts, rfl⟩ := h.exists_cons
  rw [List.cons_append, Token.skip, Token.skip]
  split <;> rfl

/-- Two attempts, of which the second one has the tokens `us` behind those of the first: as long as
the end of the input closes no block in the first one, both do the same and the second one leaves
`us` as well. A success leaves `P`. -/
structure Attempt.Goes {α : Type} {m n : Nat} (us : List Token) (P : List Token → Prop)
    (s : Attempt α m) (s' : Attempt α n) : Prop where
  value : s'.value = s.value.mapError (·.before us.length)
  rest : s'.rest = s.rest ++ us
  report : s'.report = s.report.before us.length
  ok : ∀ a, s.value = .ok a → P s.rest
  error : ∀ d, s.value = .error d → Leftover s.rest

def Attempt.GoesOn {α : Type} {m n : Nat} (us : List Token) (P : List Token → Prop)
    (s : Attempt α m) (s' : Attempt α n) : Prop :=
  s.report.unclosed = 0 → s.Goes us P s'

namespace Attempt
variable {α β : Type} {m n m' n' : Nat} {us ts : List Token} {P Q : List Token → Prop}
  {s : Attempt α m} {s' : Attempt α n}

theorem goesOn_done {a : α} (h : P ts) : GoesOn us P (done a ts) (done a (ts ++ us)) := by
  refine fun _ => ⟨rfl, rfl, rfl, fun _ _ => h, ?_⟩
  intro d hd
  cases hd

theorem goesOn_fail {e : SyntaxError} {k k' : Nat} (h : Leftover ts) (hk : k' = k + us.length) :
    GoesOn us P (fail e k ts : Attempt α ts.length)
      (fail e k' (ts ++ us) : Attempt α (ts ++ us).length) := by
  subst hk
  exact fun _ => ⟨rfl, rfl, rfl, nofun, fun _ _ => h⟩

theorem GoesOn.weaken {hm : m ≤ m'} {hn : n ≤ n'} (h : GoesOn us P s s') :
    GoesOn us P (Step.weaken s hm) (Step.weaken s' hn) :=
  fun h0 => ⟨(h h0).value, (h h0).rest, (h h0).report, (h h0).ok, (h h0).error⟩

theorem GoesOn.andThen
    {f : α → (rest : List Token) → rest.length ≤ m → Attempt β rest.length}
    {g : α → (rest : List Token) → rest.length ≤ n → Attempt β rest.length}
    (h : GoesOn us P s s')
    (hfg : ∀ a rest hm hn, P rest → GoesOn us Q (f a rest hm) (g a (rest ++ us) hn)) :
    GoesOn us Q (s.andThen f) (s'.andThen g) := by
  obtain ⟨v, rest, report, hm⟩ := s
  obtain ⟨v', rest', report', hn⟩ := s'
  cases v with
  | error d =>
    intro h0
    obtain ⟨rfl, rfl, rfl, -, hd⟩ := h h0
    exact ⟨rfl, rfl, rfl, nofun, fun _ _ => hd d rfl⟩
  | ok a =>
    intro h0
    have h0 : report.unclosed + (f a rest hm).report.unclosed = 0 := h0
    obtain ⟨hs, hf⟩ := Nat.add_eq_zero_iff.mp h0
    obtain ⟨rfl, rfl, rfl, ha, -⟩ := h hs
    obtain ⟨hv, hr, hp, ho, he⟩ := hfg a rest hm hn (ha a rfl) hf
    refine ⟨hv, hr, ?_, ho, he⟩
    change _ ++ _ = Report.before (_ ++ _) _
    rw [Report.before_append, hp]

theorem GoesOn.map {f : α → β} (h : GoesOn us P s s') : GoesOn us P (s.map f) (s'.map f) := by
  intro h0
  obtain ⟨hv, hr, hp, ha, he⟩ := h h0
  obtain ⟨v, rest, report, hm⟩ := s
  obtain ⟨v', rest', report', hn⟩ := s'
  obtain rfl := hv
  cases v with
  | error d => exact ⟨rfl, hr, hp, nofun, fun _ _ => he d rfl⟩
  | ok a =>
    refine ⟨rfl, hr, hp, fun _ _ => ha a rfl, ?_⟩
    intro d hd
    cases hd

theorem skipping_ok (t : Token) (a : α) (rest : List Token) (report : Report)
    (h : rest.length ≤ n) : skipping t (⟨.ok a, rest, report, h⟩ : Attempt α n) =
      ⟨.ok a, t.skip rest, report, (t.length_skip_le rest).trans h⟩ := by
  cases rest with
  | nil => rfl
  | cons u rest =>
    by_cases hu : u = t
    · simp [Attempt.skipping, Token.skip, hu]
    · simp [Attempt.skipping, Token.skip, hu]

theorem GoesOn.skipping (h : GoesOn us Terminated s s') :
    GoesOn us Leftover (skipping (.symbol .semicolon) s) (skipping (.symbol .semicolon) s') := by
  obtain ⟨v, rest, report, hm⟩ := s
  obtain ⟨v', rest', report', hn⟩ := s'
  cases v with
  | error d =>
    intro h0
    obtain ⟨rfl, rfl, rfl, -, hd⟩ := h h0
    exact ⟨rfl, rfl, rfl, nofun, fun _ _ => hd d rfl⟩
  | ok a =>
    rw [skipping_ok]
    intro h0
    obtain ⟨rfl, rfl, rfl, ha, -⟩ := h h0
    have hv : Except.mapError (·.before us.length) (.ok a : Except Diagnostic α) = .ok a := rfl
    rw [hv, skipping_ok]
    have hrest : Terminated rest := ha a rfl
    refine ⟨rfl, hrest.skip_append us, rfl, fun _ _ => hrest.leftover_skip, ?_⟩
    intro d hd
    cases hd

end Attempt

/-- The same for steps without failure. -/
structure Step.Goes {α : Type} {m n : Nat} (us : List Token) (s : Step α m) (s' : Step α n) :
    Prop where
  value : s'.value = s.value
  rest : s'.rest = s.rest ++ us
  report : s'.report = s.report.before us.length
  terminated : Terminated s.rest

theorem Attempt.goesOn_kept {α : Type} {m n : Nat} {us : List Token} {s : Step α m} {s' : Step α n}
    (h : s.report.unclosed = 0 → s.Goes us s') : GoesOn us Terminated s.kept s'.kept := by
  intro h0
  obtain ⟨hv, hr, hp, ht⟩ := h h0
  refine ⟨congrArg Except.ok hv, hr, hp, fun _ _ => ht, ?_⟩
  intro d hd
  cases hd

/-- The statement that an attempt gives, if any. -/
def Attempt.results {n : Nat} (s : Attempt Stmt n) : List Stmt := s.value.toOption.toList

/-- The report on a statement that was abandoned. -/
def Attempt.loss {n : Nat} (s : Attempt Stmt n) : Report :=
  match s.value with
  | .ok _ => .empty
  | .error d => .abandoned d

namespace Attempt.Goes
variable {m n : Nat} {us : List Token} {s : Attempt Stmt m} {s' : Attempt Stmt n}

theorem results_eq (h : s.Goes us Leftover s') : s'.results = s.results := by
  rw [results, results, h.value]
  cases s.value <;> rfl

theorem loss_eq (h : s.Goes us Leftover s') : s'.loss = s.loss.before us.length := by
  rw [loss, loss, h.value]
  cases s.value <;> rfl

theorem leftover (h : s.Goes us Leftover s') : Leftover s.rest := by
  cases hv : s.value with
  | ok a => exact h.ok a hv
  | error d => exact h.error d hv

end Attempt.Goes

namespace Grammar
open Attempt
variable {us ts : List Token}

/-- Statements are read one by one, each from where the one before it was left or abandoned. -/
theorem statements_cons {inBlock : Bool} {t : Token} (ts : List Token)
    (h : ¬ (inBlock ∧ t = .symbol .rightBrace)) :
    (statements inBlock (t :: ts)).value =
      (statement t ts).results ++ (statements inBlock (statement t ts).rest).value ∧
    (statements inBlock (t :: ts)).rest = (statements inBlock (statement t ts).rest).rest ∧
    (statements inBlock (t :: ts)).report = (statement t ts).report ++
      ((statement t ts).loss ++ (statements inBlock (statement t ts).rest).report) := by
  rw [statements, if_neg h]
  generalize statement t ts = s
  obtain ⟨_ | a, rest, report, hs⟩ := s
  · exact ⟨rfl, rfl, Report.append_assoc _ _ _⟩
  · refine ⟨rfl, rfl, ?_⟩
    change report ++ _ = report ++ (Report.empty ++ _)
    rw [Report.empty_append]
    rfl

theorem goesOn_expect (s : Symbol) (h : Terminated ts) (hs : s ≠ .semicolon := by decide) :
    GoesOn us Terminated (expect s ts) (expect s (ts ++ us)) := by
  obtain ⟨t, ts, rfl⟩ := h.exists_cons
  rw [List.cons_append, expect, expect]
  split
  · rename_i ht
    exact (goesOn_done (h.tail (by simpa [ht] using hs))).weaken
  · exact goesOn_fail (.inr h) (by simp; omega)

theorem goesOn_expectName (h : Terminated ts) :
    GoesOn us Terminated (expectName ts) (expectName (ts ++ us)) := by
  obtain ⟨t, ts, rfl⟩ := h.exists_cons
  cases t with
  | name x =>
    rw [List.cons_append, expectName, expectName]
    exact (goesOn_done (h.tail nofun)).weaken
  | _ => exact goesOn_fail (.inr h) (by simp; omega)

theorem cons_ne {t u : Token} (h : t ≠ u) (ts us : List Token) (he : t :: ts = u :: us) : False :=
  h (List.cons.inj he).1

theorem goesOn_moreParameters : {ts : List Token} → Terminated ts →
    GoesOn us Terminated (moreParameters ts) (moreParameters (ts ++ us))
  | t :: ts, h => by
    by_cases ht : t = .symbol .comma
    · subst ht
      rw [List.cons_append, moreParameters, moreParameters]
      refine ((goesOn_expectName (h.tail (by decide))).andThen ?_).weaken
      intro x rest hm hn hrest
      exact (goesOn_moreParameters hrest).map
    · rw [List.cons_append, moreParameters.eq_2 _ (cons_ne ht _), moreParameters.eq_2 _ (cons_ne ht _)]
      refine (goesOn_expect .rightParen h).andThen ?_
      intro _ rest _ _ hrest
      exact goesOn_done hrest
termination_by ts => ts.length

theorem goesOn_parameters (h : Terminated ts) :
    GoesOn us Terminated (parameters ts) (parameters (ts ++ us)) := by
  obtain ⟨t, ts, rfl⟩ := h.exists_cons
  by_cases ht : t = .symbol .rightParen
  · subst ht
    rw [List.cons_append, parameters, parameters]
    exact (goesOn_done (h.tail (by decide))).weaken
  · rw [List.cons_append, parameters.eq_2 _ (cons_ne ht _), parameters.eq_2 _ (cons_ne ht _)]
    refine (goesOn_expectName h).andThen ?_
    intro x rest _ _ hrest
    exact (goesOn_moreParameters hrest).map

mutual
theorem goesOn_operand {t : Token} {ts : List Token} (h : Terminated (t :: ts)) :
    GoesOn us Terminated (operand t ts) (operand t (ts ++ us)) := by
  cases t with
  | name x =>
    rw [operand, operand]
    exact goesOn_done (h.tail nofun)
  | int digits =>
    rw [operand, operand]
    split
    · exact goesOn_done (h.tail nofun)
    · exact goesOn_fail h.leftover (by simp; omega)
  | illegal c =>
    rw [operand, operand]
    · exact goesOn_fail h.leftover (by simp; omega)
    all_goals nofun
  | keyword k =>
    cases k with
    | trueKw =>
      rw [operand, operand]
      exact goesOn_done (h.tail nofun)
    | falseKw =>
      rw [operand, operand]
      exact goesOn_done (h.tail nofun)
    | ifKw =>
      rw [operand, operand]
      refine (goesOn_expect .leftParen (h.tail nofun)).andThen ?_
      intro _ vs _ _ hvs
      refine (goesOn_expression .lowest hvs).andThen ?_
      intro c vs _ _ hvs
      refine (goesOn_expect .rightParen hvs).andThen ?_
      intro _ vs _ _ hvs
      refine (goesOn_expect .leftBrace hvs).andThen ?_
      intro _ vs _ _ hvs
      refine (goesOn_kept (goes_block hvs)).andThen ?_
      intro body vs _ _ hvs
      obtain ⟨u, ws, rfl⟩ := hvs.exists_cons
      cases u with
      | keyword k =>
        cases k with
        | elseKw =>
          refine GoesOn.weaken ((goesOn_expect .leftBrace (hvs.tail nofun)).andThen ?_)
          intro _ vs _ _ hvs
          exact (goesOn_kept (goes_block hvs)).map
        | _ => exact goesOn_done hvs
      | _ => exact goesOn_done hvs
    | fnKw =>
      rw [operand, operand]
      refine (goesOn_expect .leftParen (h.tail nofun)).andThen ?_
      intro _ vs _ _ hvs
      refine (goesOn_parameters hvs).andThen ?_
      intro xs vs _ _ hvs
      refine (goesOn_expect .leftBrace hvs).andThen ?_
      intro _ vs _ _ hvs
      exact (goesOn_kept (goes_block hvs)).map
    | _ =>
      rw [operand, operand]
      · exact goesOn_fail h.leftover (by simp; omega)
      all_goals nofun
  | symbol s =>
    cases s with
    | leftParen =>
      rw [operand, operand]
      refine (goesOn_expression .lowest (h.tail nofun)).andThen ?_
      intro e vs _ _ hvs
      refine (goesOn_expect .rightParen hvs).andThen ?_
      intro _ vs _ _ hvs
      exact goesOn_done hvs
    | bang =>
      rw [operand, operand]
      · exact (goesOn_expression .unary (h.tail nofun)).map
      all_goals nofun
    | minus =>
      rw [operand, operand]
      · exact (goesOn_expression .unary (h.tail nofun)).map
      all_goals nofun
    | _ =>
      rw [operand, operand]
      · exact goesOn_fail h.leftover (by simp; omega)
      all_goals nofun
termination_by 4 * ts.length + 1
decreasing_by all_goals first | omega | (simp only [List.length_cons] at *; omega)

theorem goesOn_expression (p : Precedence) : {ts : List Token} → Terminated ts →
    GoesOn us Terminated (expression p ts) (expression p (ts ++ us))
  | t :: ts, h => by
    rw [List.cons_append, expression, expression]
    exact (goesOn_expressionFrom p h).weaken
termination_by ts => 4 * ts.length
decreasing_by all_goals first | omega | (simp only [List.length_cons] at *; omega)

theorem goesOn_expressionFrom (p : Precedence) {t : Token} {ts : List Token}
    (h : Terminated (t :: ts)) :
    GoesOn us Terminated (expressionFrom p t ts) (expressionFrom p t (ts ++ us)) := by
  rw [expressionFrom, expressionFrom]
  refine (goesOn_operand h).andThen ?_
  intro left rest _ _ hrest
  exact goesOn_operators p left hrest
termination_by 4 * ts.length + 2
decreasing_by all_goals omega

theorem goesOn_operators (p : Precedence) (left : Expr) : {ts : List Token} → Terminated ts →
    GoesOn us Terminated (operators p left ts) (operators p left (ts ++ us))
  | t :: ts, h => by
    by_cases ht : ∃ s, t = .symbol s
    · obtain ⟨s, rfl⟩ := ht
      rw [List.cons_append, operators, operators]
      split
      · rename_i hs
        subst hs
        split
        · refine ((goesOn_arguments (h.tail nofun)).andThen ?_).weaken
          intro as rest _ _ hrest
          exact goesOn_operators p (.call left as) hrest
        · exact goesOn_done h
      · split
        · rename_i op ho
          have hs : Token.symbol s ≠ .symbol .semicolon := by
            rintro ⟨⟩
            cases ho
          split
          · refine ((goesOn_expression op.precedence (h.tail hs)).andThen ?_).weaken
            intro right rest _ _ hrest
            exact goesOn_operators p (.binary left op right) hrest
          · exact goesOn_done h
        · exact goesOn_done h
    · have hs (vs : List Token) (s : Symbol) (ws : List Token) : t :: vs = .symbol s :: ws → False :=
        cons_ne (not_exists.mp ht s) vs ws
      rw [List.cons_append, operators.eq_2 _ _ _ (hs _), operators.eq_2 _ _ _ (hs _)]
      exact goesOn_done h
termination_by ts => 4 * ts.length
decreasing_by all_goals first | omega | (simp only [List.length_cons] at *; omega)

theorem goesOn_arguments : {ts : List Token} → Terminated ts →
    GoesOn us Terminated (arguments ts) (arguments (ts ++ us))
  | t :: ts, h => by
    by_cases ht : t = .symbol .rightParen
    · subst ht
      rw [List.cons_append, arguments, arguments]
      exact (goesOn_done (h.tail nofun)).weaken
    · rw [List.cons_append, arguments.eq_2 _ (cons_ne ht _), arguments.eq_2 _ (cons_ne ht _)]
      refine (goesOn_expression .lowest h).andThen ?_
      intro a rest _ _ hrest
      exact (goesOn_moreArguments hrest).map
termination_by ts => 4 * ts.length + 1
decreasing_by all_goals (simp only [List.length_cons] at *; omega)

theorem goesOn_moreArguments : {ts : List Token} → Terminated ts →
    GoesOn us Terminated (moreArguments ts) (moreArguments (ts ++ us))
  | t :: ts, h => by
    by_cases ht : t = .symbol .comma
    · subst ht
      rw [List.cons_append, moreArguments, moreArguments]
      refine ((goesOn_expression .lowest (h.tail nofun)).andThen ?_).weaken
      intro a rest _ _ hrest
      exact (goesOn_moreArguments hrest).map
    · rw [List.cons_append, moreArguments.eq_2 _ (cons_ne ht _),
        moreArguments.eq_2 _ (cons_ne ht _)]
      refine (goesOn_expect .rightParen h).andThen ?_
      intro _ rest _ _ hrest
      exact goesOn_done hrest
termination_by ts => 4 * ts.length
decreasing_by all_goals first | omega | (simp only [List.length_cons] at *; omega)

theorem goesOn_statement {t : Token} {ts : List Token} (h : Terminated (t :: ts)) :
    GoesOn us Leftover (statement t ts) (statement t (ts ++ us)) := by
  by_cases hl : t = .keyword .letKw
  · subst hl
    rw [statement, statement]
    refine GoesOn.skipping ?_
    refine (goesOn_expectName (h.tail nofun)).andThen ?_
    intro x rest _ _ hrest
    refine (goesOn_expect .equal hrest).andThen ?_
    intro _ rest _ _ hrest
    exact (goesOn_expression .lowest hrest).map
  by_cases hr : t = .keyword .returnKw
  · subst hr
    rw [statement, statement]
    have hts : Terminated ts := h.tail nofun
    obtain ⟨u, vs, hu⟩ := hts.exists_cons
    have he : endsReturn (ts ++ us) = endsReturn ts := by rw [hu]; rfl
    refine GoesOn.skipping ?_
    rw [he]
    split
    · exact goesOn_done hts
    · exact (goesOn_expression .lowest hts).map
  · rw [statement.eq_3 _ _ hl hr, statement.eq_3 _ _ hl hr]
    exact (goesOn_expressionFrom .lowest h).map.skipping
termination_by 4 * ts.length + 3
decreasing_by all_goals omega

theorem goes_block : {ts : List Token} → Terminated ts →
    (statements true ts).report.unclosed = 0 →
    (statements true ts).Goes us (statements true (ts ++ us))
  | t :: ts, h, h0 => by
    by_cases ht : t = .symbol .rightBrace
    · subst ht
      rw [List.cons_append, statements, statements]
      exact ⟨rfl, rfl, rfl, h.tail nofun⟩
    · have hb : ¬ ((Bool.true : Bool) ∧ t = .symbol .rightBrace) := fun hb => ht hb.2
      obtain ⟨hv, hr, hp⟩ := statements_cons ts hb
      obtain ⟨hv', hr', hp'⟩ := statements_cons (ts ++ us) hb
      rw [hp] at h0
      simp only [Report.unclosed_append, Nat.add_eq_zero_iff] at h0
      obtain ⟨hs0, -, hrest0⟩ := h0
      have hs : (statement t ts).Goes us Leftover (statement t (ts ++ us)) := goesOn_statement h hs0
      -- A block that is left at the end of the input would be cut there.
      have hrest : Terminated (statement t ts).rest := by
        refine hs.leftover.resolve_left ?_
        intro hnil
        rw [hnil, statements] at hrest0
        cases hrest0
      have hle := (statement t ts).rest_le
      have hg := goes_block hrest hrest0
      rw [hs.rest] at hv' hr' hp'
      refine ⟨?_, ?_, ?_, ?_⟩
      · rw [List.cons_append, hv', hv, hs.results_eq, hg.value]
      · rw [List.cons_append, hr', hr, hg.rest]
      · rw [List.cons_append, hp', hp, hs.report, hs.loss_eq, hg.report, Report.before_append,
          Report.before_append]
      · rw [hr]
        exact hg.terminated
termination_by ts => 4 * ts.length
decreasing_by all_goals first | omega | (simp only [List.length_cons] at *; omega)
end

/-- Statements in front of a semicolon and those behind it are read apart. -/
theorem statements_append (us : List Token) : {ts : List Token} → Leftover ts →
    (statements false ts).report.unclosed = 0 →
    (statements false (ts ++ us)).value =
        (statements false ts).value ++ (statements false us).value ∧
      (statements false (ts ++ us)).report =
        (statements false ts).report.before us.length ++ (statements false us).report
  | [], _, _ => by simp [statements]
  | t :: ts, h, h0 => by
    have ht : Terminated (t :: ts) := h.resolve_left (List.cons_ne_nil t ts)
    have hb : ¬ ((Bool.false : Bool) ∧ t = .symbol .rightBrace) := nofun
    obtain ⟨hv, -, hp⟩ := statements_cons ts hb
    obtain ⟨hv', -, hp'⟩ := statements_cons (ts ++ us) hb
    rw [hp] at h0
    simp only [Report.unclosed_append, Nat.add_eq_zero_iff] at h0
    obtain ⟨hs0, -, hrest0⟩ := h0
    have hs : (statement t ts).Goes us Leftover (statement t (ts ++ us)) := goesOn_statement ht hs0
    have hle := (statement t ts).rest_le
    obtain ⟨hgv, hgp⟩ := statements_append us hs.leftover hrest0
    rw [hs.rest] at hv' hp'
    constructor
    · rw [List.cons_append, hv', hv, hs.results_eq, hgv, List.append_assoc]
    · rw [List.cons_append, hp', hp, hs.report, hs.loss_eq, hgp]
      simp only [Report.before_append, Report.append_assoc]
termination_by ts => ts.length
decreasing_by simp only [List.length_cons]; omega

end Grammar

/-- A text that ends in a semicolon, with all its blocks closed, is read apart from what stands
behind it, whether or not one of the two has errors. -/
theorem Reading.ofText_append {source later : String}
    (hlast : (Token.scan source).getLast? = some (.symbol .semicolon))
    (hclosed : (ofText source).report.unclosed = 0) :
    (ofText (source ++ later)).program = (ofText source).program ++ (ofText later).program ∧
      (ofText (source ++ later)).errors = (ofText source).errors ++ (ofText later).errors := by
  have hscan : Token.scan (source ++ later) = Token.scan source ++ Token.scan later := by
    refine Token.scan_append fun t ht => ?_
    obtain rfl : Token.symbol .semicolon = t := Option.some.inj (hlast.symm.trans ht)
    exact fun _ _ => id
  obtain ⟨hv, hr⟩ := Grammar.statements_append (Token.scan later) (.inr hlast) hclosed
  refine ⟨?_, ?_⟩
  · rw [ofText, hscan]
    exact hv
  · rw [errors, ofText, hscan]
    change (Grammar.statements false _).report.diagnostics.map _ = _
    rw [hr, Report.diagnostics_append, List.map_append, Report.errors_before]
    rfl

theorem Reading.ofText_append_broken :
    (Token.scan "let 1; if (a) \x7b let \x7d;").getLast? = some (.symbol .semicolon) ∧
    (ofText "let 1; if (a) \x7b let \x7d;").report.unclosed = 0 ∧
    (ofText "let 1; if (a) \x7b let \x7d;").errors =
      [.expected .name .int, .expected .name (.symbol .rightBrace)] ∧
    (ofText ("let 1; if (a) \x7b let \x7d;" ++ ") 2")).program =
      [.expr (.int 1), .expr (.ifThen (.name "a") []), .expr (.int 2)] ∧
    (ofText ("let 1; if (a) \x7b let \x7d;" ++ ") 2")).errors =
      [.expected .name .int, .expected .name (.symbol .rightBrace),
        .noOperand (.symbol .rightParen)] := by
  have hlast : (Token.scan "let 1; if (a) \x7b let \x7d;").getLast? =
      some (.symbol .semicolon) := by with_unfolding_all rfl
  have hclosed : (ofText "let 1; if (a) \x7b let \x7d;").report.unclosed = 0 := by with_unfolding_all rfl
  have hfirst : (ofText "let 1; if (a) \x7b let \x7d;").program =
        [.expr (.int 1), .expr (.ifThen (.name "a") [])] ∧
      (ofText "let 1; if (a) \x7b let \x7d;").errors =
        [.expected .name .int, .expected .name (.symbol .rightBrace)] := by constructor <;> with_unfolding_all rfl
  have hsecond : (ofText ") 2").program = [.expr (.int 2)] ∧
      (ofText ") 2").errors = [.noOperand (.symbol .rightParen)] := by constructor <;> with_unfolding_all rfl
  obtain ⟨hp, he⟩ : (ofText ("let 1; if (a) \x7b let \x7d;" ++ ") 2")).program = _ ∧
      (ofText ("let 1; if (a) \x7b let \x7d;" ++ ") 2")).errors = _ :=
    ofText_append hlast hclosed
  refine ⟨hlast, hclosed, hfirst.2, ?_, ?_⟩
  · rw [hp, hfirst.1, hsecond.1]
    rfl
  · rw [he, hfirst.2, hsecond.2]
    rfl

end MonkeyLang
