import MonkeyLang.Grammar.Reading
import MonkeyLang.Proofs.Grammar.RoundTrip

/-! What the reader keeps of any tokens, with or without errors. A step leaves an end of the
tokens it was given, and what it builds can be written. -/
namespace MonkeyLang

/-- Tokens that a text may have. -/
def Possible (ts : List Token) : Prop := ∀ t ∈ ts, t.Valid

theorem Possible.of_suffix {ts us : List Token} (h : Possible us) (hs : ts <:+ us) :
    Possible ts :=
  fun t ht => h t (hs.subset ht)

theorem Possible.tail {t : Token} {ts : List Token} (h : Possible (t :: ts)) : Possible ts :=
  h.of_suffix (List.suffix_cons t ts)

/-- A step that leaves an end of some tokens, with a value of a certain kind. -/
def Step.Keeps {α : Type} {n : Nat} (s : Step α n) (P : α → Prop) (ts : List Token) : Prop :=
  P s.value ∧ s.rest <:+ ts

/-- An attempt that leaves an end of some tokens and, if it succeeds, a value of a certain kind. -/
def Attempt.Keeps {α : Type} {n : Nat} (s : Attempt α n) (P : α → Prop) (ts : List Token) : Prop :=
  Step.Keeps s (fun r => ∀ a, r = .ok a → P a) ts

namespace Attempt
variable {α β : Type} {m n : Nat} {s : Attempt α n} {P : α → Prop} {Q : β → Prop}
  {ts us : List Token}

theorem keeps_done {a : α} (h : P a) : (done a ts).Keeps P ts := by
  refine ⟨?_, List.suffix_refl ts⟩
  intro b hb
  cases hb
  exact h

theorem keeps_fail {e : SyntaxError} {k : Nat} : (fail e k ts : Attempt α ts.length).Keeps P ts :=
  ⟨nofun, List.suffix_refl ts⟩

theorem Keeps.mono (h : s.Keeps P ts) (hs : ts <:+ us) : s.Keeps P us :=
  ⟨h.1, h.2.trans hs⟩

theorem Keeps.weaken {hmn : n ≤ m} (h : s.Keeps P ts) (hs : ts <:+ us) :
    Keeps (Step.weaken s hmn) P us :=
  h.mono hs

theorem Keeps.map {f : α → β} (h : s.Keeps P ts) (hf : ∀ a, P a → Q (f a)) :
    (s.map f).Keeps Q ts := by
  refine ⟨?_, h.2⟩
  intro b hb
  cases hv : s.value with
  | error d => simp [Attempt.map, Except.map, hv] at hb
  | ok a =>
    obtain rfl : f a = b := by simpa [Attempt.map, Except.map, hv] using hb
    exact hf a (h.1 a hv)

theorem Keeps.andThen {f : α → (rest : List Token) → rest.length ≤ n → Attempt β rest.length}
    (h : s.Keeps P ts) (hv : Possible ts)
    (hf : ∀ a rest hle, P a → Possible rest → (f a rest hle).Keeps Q rest) :
    (s.andThen f).Keeps Q ts := by
  obtain ⟨_ | a, rest, report, hle⟩ := s
  · exact ⟨nofun, h.2⟩
  · exact (hf a rest hle (h.1 a rfl) (hv.of_suffix h.2)).mono h.2

theorem Keeps.skipping {t : Token} (h : s.Keeps P ts) : (skipping t s).Keeps P ts := by
  obtain ⟨_ | a, _ | ⟨u, rest⟩, report, hle⟩ := s
  case ok.cons =>
    obtain ⟨hv, hs⟩ := h
    by_cases hu : u = t
    · rw [Attempt.skipping, if_pos hu]
      exact ⟨hv, (List.suffix_cons u rest).trans hs⟩
    · rw [Attempt.skipping, if_neg hu]
      exact ⟨hv, hs⟩
  all_goals exact h

end Attempt

theorem Step.Keeps.kept {α : Type} {n : Nat} {s : Step α n} {P : α → Prop} {ts : List Token}
    (h : s.Keeps P ts) : s.kept.Keeps P ts := by
  refine ⟨?_, h.2⟩
  intro a ha
  cases ha
  exact h.1

namespace Grammar
open Attempt

theorem keeps_expect (s : Symbol) (ts : List Token) : (expect s ts).Keeps (fun _ => True) ts := by
  cases ts with
  | nil => exact keeps_fail
  | cons t ts =>
    by_cases ht : t = .symbol s
    · rw [expect, if_pos ht]
      exact (keeps_done trivial).weaken (List.suffix_cons t ts)
    · rw [expect, if_neg ht]
      exact keeps_fail

theorem keeps_expectName {ts : List Token} (hv : Possible ts) :
    (expectName ts).Keeps IsName ts := by
  unfold expectName
  split
  · exact keeps_fail
  · rename_i x ts
    have hx : IsName x := hv (.name x) List.mem_cons_self
    exact (keeps_done hx).weaken (List.suffix_cons _ ts)
  · exact keeps_fail

theorem keeps_moreParameters {ts : List Token} (hv : Possible ts) :
    (moreParameters ts).Keeps (fun xs => ∀ x ∈ xs, IsName x) ts := by
  unfold moreParameters
  split
  · rename_i ts
    refine Keeps.weaken ?_ (List.suffix_cons _ ts)
    refine (keeps_expectName hv.tail).andThen hv.tail ?_
    intro x rest hle hx hv
    have hxs := keeps_moreParameters hv
    exact hxs.map fun xs hxs => List.forall_mem_cons.mpr ⟨hx, hxs⟩
  · refine (keeps_expect .rightParen _).andThen hv ?_
    intro _ rest _ _ _
    exact keeps_done (by simp)
termination_by ts.length
decreasing_by
  subst_eqs
  simp only [List.length_cons]
  omega

theorem keeps_parameters {ts : List Token} (hv : Possible ts) :
    (parameters ts).Keeps (fun xs => ∀ x ∈ xs, IsName x) ts := by
  unfold parameters
  split
  · rename_i ts
    exact (keeps_done (by simp)).weaken (List.suffix_cons _ ts)
  · refine (keeps_expectName hv).andThen hv ?_
    intro x rest hle hx hv
    have hxs := keeps_moreParameters hv
    exact hxs.map fun xs hxs => List.forall_mem_cons.mpr ⟨hx, hxs⟩

mutual
theorem keeps_operand {t : Token} {ts : List Token} (hv : Possible (t :: ts)) :
    (operand t ts).Keeps (Expr.Writable (0 ≤ ·)) ts := by
  unfold operand
  split
  · rename_i x
    exact keeps_done (hv (.name x) List.mem_cons_self)
  · split
    · rename_i n hn
      exact keeps_done (Decimal.nonneg_of_read? hn)
    · exact keeps_fail
  · exact keeps_done trivial
  · exact keeps_done trivial
  · refine (keeps_expect .leftParen ts).andThen hv.tail ?_
    intro _ us hus _ hv
    refine (keeps_expression .lowest hv).andThen hv ?_
    intro c us hus hc hv
    refine (keeps_expect .rightParen us).andThen hv ?_
    intro _ us hus _ hv
    refine (keeps_expect .leftBrace us).andThen hv ?_
    intro _ us hus _ hv
    refine (keeps_statements Bool.true hv).kept.andThen hv ?_
    intro body us hus hbody hv
    have hbody := Stmt.writableEach_iff.mpr hbody
    split
    · rename_i us hus
      refine Keeps.weaken ?_ (List.suffix_cons _ us)
      refine (keeps_expect .leftBrace us).andThen hv.tail ?_
      intro _ vs hvs _ hv
      have hother := keeps_statements Bool.true hv
      exact hother.kept.map fun other ho => ⟨hc, hbody, Stmt.writableEach_iff.mpr ho⟩
    · exact keeps_done ⟨hc, hbody⟩
  · refine (keeps_expect .leftParen ts).andThen hv.tail ?_
    intro _ us hus _ hv
    refine (keeps_parameters hv).andThen hv ?_
    intro xs us hus hxs hv
    refine (keeps_expect .leftBrace us).andThen hv ?_
    intro _ us hus _ hv
    have hbody := keeps_statements Bool.true hv
    exact hbody.kept.map fun body hb => ⟨hxs, Stmt.writableEach_iff.mpr hb⟩
  · refine (keeps_expression .lowest hv.tail).andThen hv.tail ?_
    intro e us hus he hv
    refine (keeps_expect .rightParen us).andThen hv ?_
    intro _ us hus _ _
    exact keeps_done he
  · split
    · exact (keeps_expression .unary hv.tail).map fun e he => he
    · exact keeps_fail
  · exact keeps_fail
termination_by 4 * ts.length + 1
decreasing_by all_goals first | omega | (subst_eqs; simp only [List.length_cons] at *; omega)

theorem keeps_expression (p : Precedence) {ts : List Token} (hv : Possible ts) :
    (expression p ts).Keeps (Expr.Writable (0 ≤ ·)) ts := by
  unfold expression
  split
  · exact keeps_fail
  · rename_i t us
    exact (keeps_expressionFrom p hv).weaken (List.suffix_cons t us)
termination_by 4 * ts.length

theorem keeps_expressionFrom (p : Precedence) {t : Token} {ts : List Token}
    (hv : Possible (t :: ts)) : (expressionFrom p t ts).Keeps (Expr.Writable (0 ≤ ·)) ts := by
  unfold expressionFrom
  refine (keeps_operand hv).andThen hv.tail ?_
  intro left us hus hl hv
  exact keeps_operators p hl hv
termination_by 4 * ts.length + 2

theorem keeps_operators (p : Precedence) {left : Expr} {ts : List Token}
    (hl : left.Writable (0 ≤ ·)) (hv : Possible ts) :
    (operators p left ts).Keeps (Expr.Writable (0 ≤ ·)) ts := by
  unfold operators
  split
  · rename_i s us
    split
    · split
      · refine Keeps.weaken ?_ (List.suffix_cons _ us)
        refine (keeps_arguments hv.tail).andThen hv.tail ?_
        intro as vs hvs has hv
        exact keeps_operators p ⟨hl, Expr.writableEach_iff.mpr has⟩ hv
      · exact keeps_done hl
    · split
      · rename_i op _
        split
        · refine Keeps.weaken ?_ (List.suffix_cons _ us)
          refine (keeps_expression op.precedence hv.tail).andThen hv.tail ?_
          intro right vs hvs hr hv
          exact keeps_operators p ⟨hl, hr⟩ hv
        · exact keeps_done hl
      · exact keeps_done hl
  · exact keeps_done hl
termination_by 4 * ts.length
decreasing_by all_goals first | omega | (subst_eqs; simp only [List.length_cons] at *; omega)

theorem keeps_arguments {ts : List Token} (hv : Possible ts) :
    (arguments ts).Keeps (fun as => ∀ a ∈ as, a.Writable (0 ≤ ·)) ts := by
  unfold arguments
  split
  · rename_i us
    exact (keeps_done (by simp)).weaken (List.suffix_cons _ us)
  · refine (keeps_expression .lowest hv).andThen hv ?_
    intro a us hus ha hv
    have has := keeps_moreArguments hv
    exact has.map fun as has => List.forall_mem_cons.mpr ⟨ha, has⟩
termination_by 4 * ts.length + 1
decreasing_by all_goals omega

theorem keeps_moreArguments {ts : List Token} (hv : Possible ts) :
    (moreArguments ts).Keeps (fun as => ∀ a ∈ as, a.Writable (0 ≤ ·)) ts := by
  unfold moreArguments
  split
  · rename_i us
    refine Keeps.weaken ?_ (List.suffix_cons _ us)
    refine (keeps_expression .lowest hv.tail).andThen hv.tail ?_
    intro a vs hvs ha hv
    have has := keeps_moreArguments hv
    exact has.map fun as has => List.forall_mem_cons.mpr ⟨ha, has⟩
  · refine (keeps_expect .rightParen _).andThen hv ?_
    intro _ us _ _ _
    exact keeps_done (by simp)
termination_by 4 * ts.length
decreasing_by all_goals first | omega | (subst_eqs; simp only [List.length_cons] at *; omega)

theorem keeps_statement {t : Token} {ts : List Token} (hv : Possible (t :: ts)) :
    (statement t ts).Keeps (Stmt.Writable (0 ≤ ·)) ts := by
  unfold statement
  split
  · refine Keeps.skipping ?_
    refine (keeps_expectName hv.tail).andThen hv.tail ?_
    intro x us hus hx hv
    refine (keeps_expect .equal us).andThen hv ?_
    intro _ us hus _ hv
    exact (keeps_expression .lowest hv).map fun e he => ⟨hx, he⟩
  · refine Keeps.skipping ?_
    split
    · exact keeps_done trivial
    · exact (keeps_expression .lowest hv.tail).map fun e he => he
  · refine Keeps.skipping ?_
    exact (keeps_expressionFrom .lowest hv).map fun e he => he
termination_by 4 * ts.length + 3
decreasing_by all_goals omega

theorem keeps_statements (inBlock : Bool) {ts : List Token} (hv : Possible ts) :
    (statements inBlock ts).Keeps (Program.Writable (0 ≤ ·)) ts := by
  unfold statements
  split
  · exact ⟨by simp [Program.Writable], List.suffix_refl _⟩
  · rename_i t us
    split
    · exact ⟨by simp [Program.Writable], List.suffix_cons t us⟩
    · have hs := keeps_statement hv
      split
      · rename_i s rest report hle he
        rw [he] at hs
        obtain ⟨hss, hsuffix⟩ := keeps_statements inBlock (hv.tail.of_suffix hs.2)
        have hw : s.Writable (0 ≤ ·) := hs.1 s rfl
        refine ⟨List.forall_mem_cons.mpr ⟨hw, hss⟩, ?_⟩
        exact (hsuffix.trans hs.2).trans (List.suffix_cons t us)
      · rename_i d rest report hle he
        rw [he] at hs
        obtain ⟨hss, hsuffix⟩ := keeps_statements inBlock (hv.tail.of_suffix hs.2)
        exact ⟨hss, (hsuffix.trans hs.2).trans (List.suffix_cons t us)⟩
termination_by 4 * ts.length
decreasing_by all_goals first | omega | (subst_eqs; simp only [List.length_cons] at *; omega)
end

end Grammar

theorem Reading.writable_ofTokens {ts : List Token} (h : Possible ts) :
    (ofTokens ts).program.Writable (0 ≤ ·) :=
  (Grammar.keeps_statements false h).1

/-- What is read of a text when some of its tokens have been taken off before. -/
def Reading.afterPulls (k : Nat) (source : String) : Reading :=
  ofTokens (Token.scanChars (Token.pulls k source.toList))

theorem Reading.afterPulls_eq (k : Nat) (source : String) :
    afterPulls k source = ofTokens ((Token.scan source).drop k) := by
  rw [afterPulls, Token.scanChars_pulls, Token.scan]

/-- What is kept of a text, even of one with errors and without its first tokens, can be written,
is read back from its own text, and is then written as the same text again. -/
theorem Reading.ofText?_render_afterPulls (k : Nat) (source : String) :
    (afterPulls k source).program.Writable (0 ≤ ·) ∧
      Program.ofText? (afterPulls k source).program.render = .ok (afterPulls k source).program ∧
      (Program.ofText? (afterPulls k source).program.render).map Program.render =
        .ok (afterPulls k source).program.render := by
  have hw : (afterPulls k source).program.Writable (0 ≤ ·) :=
    writable_ofTokens (Token.written_scanChars _).valid
  have hp := (Program.spells_render hw).ofText?
  refine ⟨hw, hp, ?_⟩
  rw [hp]
  rfl

/-- Behind the stray `)`, one statement has an error and the end of the text cuts the block. What is
left of the function is kept and read back. -/
theorem Reading.ofText?_render_afterPulls_cutBlock :
    let kept := afterPulls 1 ") let f = fn(x) \x7b let 1; x"
    kept.errors = [.expected .name .int] ∧ kept.report.unclosed = 1 ∧
      kept.program = [.define "f" (.function ["x"] [.expr (.int 1), .expr (.name "x")])] ∧
      Program.ofText? kept.program.render = .ok kept.program := by
  have hkept : afterPulls 1 ") let f = fn(x) \x7b let 1; x" =
      ⟨[.define "f" (.function ["x"] [.expr (.int 1), .expr (.name "x")])],
        ⟨[⟨.expected .name .int, 3⟩], 1⟩⟩ := by
    rw [afterPulls_eq]
    with_unfolding_all rfl
  have hread := (ofText?_render_afterPulls 1 ") let f = fn(x) \x7b let 1; x").2.1
  refine ⟨?_, ?_, ?_, hread⟩
  · rw [hkept]
    rfl
  · rw [hkept]
  · rw [hkept]

end MonkeyLang
