import MonkeyLang.Grammar.Reading
import MonkeyLang.Proofs.Grammar.Fuel
import MonkeyLang.Proofs.Grammar.Rules

/-! The rules of the language end on every text, and read what is read from its tokens. -/
namespace MonkeyLang
namespace Rules
open Rule

/-- The statements of a program only end at the end of the input. -/
theorem current_of_statements {fuel : Nat} {r : Reader} {e : Ending (List Stmt)}
    (h : (upTo fuel).statements false r = .ok e) : e.reader.current = none := by
  induction fuel generalizing r e with
  | zero => cases h
  | succ fuel ih =>
    obtain ⟨inner, hinner, he, -⟩ := within_eq_ok h
    rw [he]
    rw [bind_currentKind] at hinner
    cases hr : r.current with
    | none =>
      rw [hr, if_pos (.inl rfl)] at hinner
      cases hinner
      exact hr
    | some t =>
      have hgo : ¬ (Kind.ofToken? (some t) = .endOfInput ∨
          false = true ∧ Kind.ofToken? (some t) = .symbol .rightBrace) := by
        cases t <;> nofun
      rw [hr, if_neg hgo] at hinner
      -- The loop goes on after the statement and the token behind it, whatever they were.
      obtain ⟨tried, htried, ⟨hnone, -⟩ | ⟨s, behind, -, hbehind, hreader⟩⟩ := bind_eq_ok hinner
      · exact (attempt_eq_ok htried hnone).elim
      obtain ⟨moved, hmoved, ⟨hnone, -⟩ | ⟨_, next, -, hnext, hreader'⟩⟩ := bind_eq_ok hbehind
      · cases hmoved
        cases hnone
      obtain ⟨last, hlast, hcase⟩ := bind_eq_ok hnext
      have hend := ih hlast
      rw [hreader, hreader']
      obtain ⟨-, hreader''⟩ | ⟨_, out, -, hout, hreader''⟩ := hcase
      · rwa [hreader'']
      · cases hout
        rwa [hreader'']

/-- An expression started at the end of the input stops there at once, and so does a statement. -/
theorem expression_of_end {rules : Rules} {p : Precedence} {r : Reader} (h : r.current = none) :
    rules.expressionOnce p r = .ok ⟨none, r.record (.noOperand .endOfInput),
      [⟨.expression, r.unread, r.unread, []⟩]⟩ := by
  rw [expressionOnce, within, bind_currentKind, h]
  rfl

theorem statement_of_end {fuel : Nat} {r : Reader} (h : r.current = none) :
    (upTo (fuel + 1)).statement r = .ok ⟨none, r.record (.noOperand .endOfInput),
      [⟨.statement, r.unread, r.unread, [⟨.expressionStatement, r.unread, r.unread,
        [⟨.expression, r.unread, r.unread, []⟩]⟩]⟩]⟩ := by
  have he : (upTo (fuel + 1)).expression .lowest r = _ := expression_of_end h
  rw [statement, within, bind_currentKind, h]
  change ((upTo (fuel + 1)).expressionStatement r).map _ = _
  rw [expressionStatement, within, bind_of_none he]
  rfl

end Rules

/-- Every text is read to its end, as by the grammar, with fuel in proportion to its tokens. With less
the fuel may run out, and nothing else may happen: no branch is taken that should not be. No rule
goes back, and where a rule is called again inside itself, as a loop is for its next turn, fewer
tokens are left. At the end of the input a statement or an expression stops at once. -/
theorem Reader.parse_ends (source : String) :
    (∃ e, (∀ fuel, parse fuel source = .ok e ∨
        fuel < 7 * (Token.scan source).length + 6 ∧ parse fuel source = .error .outOfFuel) ∧
      e.value = some (Reading.ofText source).program ∧
      e.reader.errors = (Reading.ofText source).errors ∧ e.reader.current = none ∧
      (∃ inside, e.calls = [⟨.statements, Token.scan source, [], inside⟩]) ∧
      ∀ c, RuleCall.Among e.calls c → c.Forward) ∧
    ∀ fuel (r : Reader), r.current = none →
      (∀ p, (Rules.upTo (fuel + 1)).expression p r = .ok ⟨none, r.record (.noOperand .endOfInput),
        [⟨.expression, r.unread, r.unread, []⟩]⟩) ∧
      (Rules.upTo (fuel + 1)).statement r = .ok ⟨none, r.record (.noOperand .endOfInput),
        [⟨.statement, r.unread, r.unread, [⟨.expressionStatement, r.unread, r.unread,
          [⟨.expression, r.unread, r.unread, []⟩]⟩]⟩]⟩ := by
  refine ⟨?_, fun fuel r h => ⟨fun p => Rules.expression_of_end h, Rules.statement_of_end h⟩⟩
  have hmeets := (Rules.upTo_meet (7 * (Token.scan source).length + 6)).statements false
    (Token.scan source) (Nat.lt_succ_self _)
  obtain ⟨us, e, he, hend⟩ := hmeets _ (holds_start source)
  have hcurrent := Rules.current_of_statements he
  refine ⟨e, ?_, hend.value, ?_, hcurrent, ?_, ?_⟩
  · intro fuel
    have he : parse (7 * (Token.scan source).length + 6) source = .ok e := he
    rcases Nat.lt_or_ge fuel (7 * (Token.scan source).length + 6) with hless | hmore
    · obtain hout | hsame := parse_approximates hless.le source
      · exact .inr ⟨hless, hout⟩
      · exact .inl (hsame.trans he)
    · obtain hout | hsame := parse_approximates hmore source
      · rw [he] at hout
        cases hout
      · exact .inl (hsame.symm.trans he)
  · rw [hend.errors, Attempt.problems]
    change [] ++ List.map _ ((Reading.ofText source).report.diagnostics ++ []) = _
    rw [List.nil_append, List.append_nil, Reading.errors]
  · obtain ⟨inner, -, -, hcalls⟩ := Rule.within_eq_ok he
    have hus : us = [] := by
      rw [hend.holds.current] at hcurrent
      exact List.head?_eq_none_iff.mp hcurrent
    rw [(holds_start source).unread, hend.holds.unread, hus] at hcalls
    exact ⟨inner.calls, hcalls⟩
  · intro c hc
    exact (hc.descends fun d hd => (hend.calls d hd).2).forward

theorem Reader.parse_ends_openCall : ∃ e, parse 20 "f(" = .ok e ∧ e.reader.current = none ∧
    e.reader.errors = [.noOperand .endOfInput] := by
  have hscan : Token.scan "f(" = [.name "f", .symbol .leftParen] := by with_unfolding_all rfl
  have herrors : (Reading.ofText "f(").errors = [.noOperand .endOfInput] := by with_unfolding_all rfl
  obtain ⟨⟨e, hall, -, he, hcurrent, -⟩, -⟩ := parse_ends "f("
  obtain hparse | ⟨hless, -⟩ := hall 20
  · exact ⟨e, hparse, hcurrent, he.trans herrors⟩
  · rw [hscan] at hless
    exact (Nat.lt_irrefl 20 hless).elim

end MonkeyLang
