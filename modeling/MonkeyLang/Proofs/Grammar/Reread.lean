import MonkeyLang.Proofs.Grammar.Spelling
import MonkeyLang.Proofs.Syntax.Reread
import MonkeyLang.Proofs.Syntax.Tokens

/-! What the text of a program is read as. Its parentheses are redundant at worst, so its tokens
spell the program itself, but for the signs of negative integers. -/
namespace MonkeyLang
open Grammar

theorem Decimal.spells {n : Int64} (h : 0 ≤ n) (place : Place) :
    Spells (.placed place (.int n)) [.int (Decimal.write n)] :=
  .plain (not_wraps rfl) (.int (Decimal.isNumeral_write h) (Decimal.read?_write h))

theorem spells_arguments {as : List Expr} (h : ∀ a ∈ as, Spells (.placed .free a.reread) a.tokens) :
    Spells (.arguments (as.map Expr.reread)) ([.symbol .comma].intercalate (as.map Expr.tokens)) := by
  induction as with
  | nil => exact .noArguments
  | cons a as ih =>
    obtain ⟨ha, has⟩ := List.forall_mem_cons.mp h
    cases as with
    | nil => simpa using Spells.lastArgument ha
    | cons b as => simpa using Spells.nextArgument ha (ih has)

theorem spells_statements {ss : List Stmt} (h : ∀ s ∈ ss, Spells (.sentence s.reread) s.tokens) :
    Spells (.statements (Stmt.rereadEach ss))
      ([.symbol .semicolon].intercalate (Stmt.tokensEach ss)) := by
  simp only [Stmt.rereadEach_eq_map, Stmt.tokensEach_eq_map]
  induction ss with
  | nil => exact .noStatements
  | cons s ss ih =>
    obtain ⟨hs, hss⟩ := List.forall_mem_cons.mp h
    cases ss with
    | nil => simpa using Spells.lastStatement hs
    | cons t ss => simpa using Spells.nextStatement hs (ih hss)

/-- Behind the sign with which they start, if there is one, the tokens of an expression spell the
unsigned expression, which can stand anywhere. -/
def Expr.SpellsUnsigned (e : Expr) : Prop :=
  ∃ ts, e.tokens = (bif e.signed then [.symbol .minus] else []) ++ ts ∧
    ∀ place, Spells (.placed place e.unsigned) ts

/-- All tokens of an expression spell it as it is reread, anywhere but as a callee. -/
theorem Expr.SpellsUnsigned.reread {e : Expr} (h : e.SpellsUnsigned) {place : Place}
    (hp : place ≠ .callee) : Spells (.placed place e.reread) e.tokens := by
  obtain ⟨ts, hts, h⟩ := h
  cases hs : e.signed with
  | true =>
    rw [hts, hs, reread_of_signed hs]
    have hw : ¬ place.Wraps (.unary .negate e.unsigned) := by
      cases place with
      | callee => exact (hp rfl).elim
      | _ => exact id
    exact .plain hw (.unary (h .operand))
  | false =>
    rw [hts, hs, reread_of_not_signed hs]
    exact h place

section Spelling
variable {literal : Int64 → Prop}

mutual
theorem Expr.spellsUnsigned (hne : ∀ n, literal n → n ≠ Int64.minValue) :
    (e : Expr) → e.Writable literal → e.SpellsUnsigned
  | .name _, h => ⟨_, rfl, fun _ => .plain (not_wraps rfl) (.name h)⟩
  | .int n, h => by
    by_cases hn : n < 0
    · refine ⟨[.int (Decimal.write (-n))], ?_, ?_⟩
      · simp [Expr.tokens, Expr.signed, hn, Decimal.tokens_of_neg hn (hne n h)]
      · rw [Expr.unsigned, if_pos hn]
        exact Decimal.spells (Decimal.neg_nonneg hn (hne n h))
    · have hle : 0 ≤ n := Int64.not_lt.mp hn
      refine ⟨[.int (Decimal.write n)], ?_, ?_⟩
      · simp [Expr.tokens, Expr.signed, hn, Decimal.tokens_of_nonneg hle]
      · rw [Expr.unsigned, if_neg hn]
        exact Decimal.spells hle
  | .bool true, _ => ⟨_, rfl, fun _ => .plain (not_wraps rfl) .true⟩
  | .bool false, _ => ⟨_, rfl, fun _ => .plain (not_wraps rfl) .false⟩
  | .unary op e, h => by
    have he : Spells (.placed .operand e.reread) e.tokens := (e.spellsUnsigned hne h).reread nofun
    exact ⟨_, rfl, fun place => .parens (.plain id (.unary he))⟩
  | .binary l op r, h => by
    have hl : Spells (.placed (.left op) l.reread) l.tokens :=
      (l.spellsUnsigned hne h.1).reread nofun
    have hr : Spells (.placed (.right op) r.reread) r.tokens :=
      (r.spellsUnsigned hne h.2).reread nofun
    have hp (place : Place) : Spells (.placed place _) _ := .parens (.plain id (.binary hl hr))
    refine ⟨_, rfl, ?_⟩
    simpa [Expr.tokens, Expr.unsigned, Expr.reread] using hp
  | .ifThen c body, h => by
    have hc : Spells (.placed .free c.reread) c.tokens := (c.spellsUnsigned hne h.1).reread nofun
    have hb := spells_statements (Stmt.spellsEach_reread hne body (Stmt.writableEach_iff.mp h.2))
    refine ⟨_, rfl, fun place => .plain (not_wraps rfl) ?_⟩
    simpa [Expr.tokens, block, Expr.unsigned, Expr.reread] using Spells.ifThen hc hb
  | .ifElse c body other, h => by
    have hc : Spells (.placed .free c.reread) c.tokens := (c.spellsUnsigned hne h.1).reread nofun
    have hb := spells_statements (Stmt.spellsEach_reread hne body (Stmt.writableEach_iff.mp h.2.1))
    have ho := spells_statements (Stmt.spellsEach_reread hne other (Stmt.writableEach_iff.mp h.2.2))
    refine ⟨_, rfl, fun place => .plain (not_wraps rfl) ?_⟩
    simpa [Expr.tokens, block, Expr.unsigned, Expr.reread] using Spells.ifElse hc hb ho
  | .function xs body, h => by
    have hb := spells_statements (Stmt.spellsEach_reread hne body (Stmt.writableEach_iff.mp h.2))
    refine ⟨_, rfl, fun place => .plain (not_wraps rfl) ?_⟩
    simpa [Expr.tokens, block, Expr.unsigned, Expr.reread] using Spells.function h.1 hb
  | .call f as, h => by
    -- The sign of the callee, if there is one, stays in front of the whole call.
    obtain ⟨ts, hts, hf⟩ := f.spellsUnsigned hne h.1
    have has := spells_arguments (Expr.spellsEach_reread hne as (Expr.writableEach_iff.mp h.2))
    refine ⟨ts ++ .symbol .leftParen ::
      ([.symbol .comma].intercalate (as.map Expr.tokens) ++ [.symbol .rightParen]), ?_, ?_⟩
    · simp [Expr.tokens, Expr.signed, hts]
    · intro place
      rw [Expr.unsigned, Expr.rereadEach_eq_map]
      exact .plain (not_wraps rfl) (.call (hf .callee) has)

theorem Stmt.spells_reread (hne : ∀ n, literal n → n ≠ Int64.minValue) :
    (s : Stmt) → s.Writable literal → Spells (.sentence s.reread) s.tokens
  | .define _ e, h => .define h.1 ((e.spellsUnsigned hne h.2).reread nofun)
  | .ret e, h => .ret ((e.spellsUnsigned hne h).reread nofun)
  | .retBare, _ => .retBare
  | .expr e, h => .expr ((e.spellsUnsigned hne h).reread nofun)

theorem Expr.spellsEach_reread (hne : ∀ n, literal n → n ≠ Int64.minValue) :
    (es : List Expr) → (∀ e ∈ es, e.Writable literal) →
    ∀ e ∈ es, Spells (.placed .free e.reread) e.tokens
  | [], _ => by simp
  | e :: es, h => by
    obtain ⟨he, hes⟩ := List.forall_mem_cons.mp h
    have hspells : Spells (.placed .free e.reread) e.tokens :=
      (e.spellsUnsigned hne he).reread nofun
    exact List.forall_mem_cons.mpr ⟨hspells, Expr.spellsEach_reread hne es hes⟩

theorem Stmt.spellsEach_reread (hne : ∀ n, literal n → n ≠ Int64.minValue) :
    (ss : List Stmt) → (∀ s ∈ ss, s.Writable literal) →
    ∀ s ∈ ss, Spells (.sentence s.reread) s.tokens
  | [], _ => by simp
  | s :: ss, h => by
    obtain ⟨hs, hss⟩ := List.forall_mem_cons.mp h
    exact List.forall_mem_cons.mpr ⟨s.spells_reread hne hs, Stmt.spellsEach_reread hne ss hss⟩
end

theorem Program.spells_reread (hne : ∀ n, literal n → n ≠ Int64.minValue) {p : Program}
    (h : p.Writable literal) : Spells (.statements p.reread) (Token.scan p.render) := by
  rw [Program.scan_render h]
  exact spells_statements (Stmt.spellsEach_reread hne p h)

end Spelling

/-- A program is read from its text with its negative integers reread. -/
theorem Program.ofText?_render_reread {p : Program} (h : p.Writable (· ≠ Int64.minValue)) :
    Program.ofText? p.render = .ok p.reread :=
  (Program.spells_reread (fun _ => id) h).ofText?

end MonkeyLang
