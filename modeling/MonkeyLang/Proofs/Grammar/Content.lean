import MonkeyLang.Proofs.Grammar.Kept
import MonkeyLang.Proofs.Token.Longest

/-! Reading loses nothing, invents nothing and keeps the order: apart from parentheses, semicolons and
closing braces a text has the tokens of the program that is read from it. -/
namespace MonkeyLang

/-- The kinds that group, separate or end. -/
def Kind.isFraming : Kind → Bool
  | symbol .leftParen | symbol .rightParen | symbol .semicolon | symbol .rightBrace => true
  | endOfInput => true
  | _ => false

/-- A listed token for comparison: of a numeral only its number counts. -/
def Kind.reading : Kind × String → Kind × (String ⊕ Nat)
  | (.int, digits) => (.int, .inr (Nat.ofDigitChars 10 digits.toList 0))
  | (kind, lexeme) => (kind, .inl lexeme)

/-- What listed tokens tell, without those that only frame the others. -/
def Kind.content (entries : List (Kind × String)) : List (Kind × (String ⊕ Nat)) :=
  (entries.filter fun e => !e.1.isFraming).map reading

/-- What a token tells, if it does not only frame others. -/
def Token.gist (t : Token) : List (Kind × (String ⊕ Nat)) := Kind.content [(t.kind, t.lexeme)]

theorem Token.gist_framing : gist (.symbol .leftParen) = [] ∧ gist (.symbol .rightParen) = [] ∧
    gist (.symbol .semicolon) = [] ∧ gist (.symbol .rightBrace) = [] :=
  ⟨rfl, rfl, rfl, rfl⟩

theorem Kind.content_append (es fs : List (Kind × String)) :
    content (es ++ fs) = content es ++ content fs := by
  simp [content]

theorem Token.content_entries (cs : List Char) :
    Kind.content (entries cs) = (scanChars cs).flatMap gist := by
  rw [entries_eq, Kind.content_append]
  change Kind.content _ ++ [] = _
  induction scanChars cs with
  | nil => rfl
  | cons t ts ih =>
    rw [List.flatMap_cons, ← ih, gist, ← List.append_assoc, ← Kind.content_append]
    rfl

/-- Numerals that denote one integer denote one number. -/
theorem Decimal.number_eq {d d' : String} {n : Int64} (h : read? d = some n) (h' : read? d' = some n) :
    Nat.ofDigitChars 10 d.toList 0 = Nat.ofDigitChars 10 d'.toList 0 := by
  obtain ⟨hd, rfl⟩ := read?_eq_some_iff.mp h
  obtain ⟨hd', heq⟩ := read?_eq_some_iff.mp h'
  have hint := congrArg Int64.toInt heq
  rw [toInt_ofNat hd, toInt_ofNat hd'] at hint
  exact Int.ofNat.inj hint

/-- A numeral tells the integer that it denotes. -/
theorem Decimal.gist_tokens {digits : String} {n : Int64} (h : read? digits = some n) :
    (Decimal.tokens n).flatMap Token.gist = Token.gist (.int digits) := by
  have hn := nonneg_of_read? h
  rw [tokens_of_nonneg hn]
  simp [Token.gist, Kind.content, Kind.isFraming, Kind.reading, Token.kind, Token.lexeme,
    number_eq h (read?_write hn)]

namespace Grammar
open Token

/-- What the tokens of statements tell that are separated by semicolons. -/
theorem gist_statements (ss : List Stmt) :
    ([.symbol .semicolon].intercalate (ss.map Stmt.tokens)).flatMap gist =
      ss.flatMap (·.tokens.flatMap gist) := by
  induction ss with
  | nil => rfl
  | cons s ss ih =>
    cases ss with
    | nil => simp
    | cons s' ss =>
      rw [List.map_cons, List.map_cons, List.intercalate_cons_cons, ← List.map_cons,
        List.flatMap_append, ih]
      simp [gist_framing]

theorem gist_skip (ts : List Token) :
    (skip (.symbol .semicolon) ts).flatMap gist = ts.flatMap gist := by
  unfold skip
  split
  · rfl
  · split
    · rename_i h
      simp [h, gist_framing]
    · rfl

/-- The tokens that are read tell what the tokens of the phrase tell. An operator chain continues an
expression that is read before it. -/
def Phrase.Tells : Phrase → List Token → List Token → Prop
  | operand e, ts, rest | expression _ e, ts, rest =>
    ts.flatMap gist = e.tokens.flatMap gist ++ rest.flatMap gist
  | operators _ left e, ts, rest =>
    left.tokens.flatMap gist ++ ts.flatMap gist = e.tokens.flatMap gist ++ rest.flatMap gist
  | arguments as, ts, rest => ts.flatMap gist =
    ([.symbol .comma].intercalate (as.map Expr.tokens)).flatMap gist ++ rest.flatMap gist
  | moreArguments as, ts, rest => ts.flatMap gist =
    ((as.map Expr.tokens).flatMap (.symbol .comma :: ·)).flatMap gist ++ rest.flatMap gist
  | sentence s, ts, rest => ts.flatMap gist = s.tokens.flatMap gist ++ rest.flatMap gist
  | statements _ ss, ts, rest =>
    ts.flatMap gist = ss.flatMap (·.tokens.flatMap gist) ++ rest.flatMap gist

/-- Nothing of what is read is lost, and nothing is added. -/
theorem Reads.tells {φ : Phrase} {ts rest : List Token} (h : Reads φ ts rest) : φ.Tells ts rest := by
  induction h with
  | name => simp [Phrase.Tells, Expr.tokens]
  | int hn => simp [Phrase.Tells, Expr.tokens, Decimal.gist_tokens hn]
  | true => simp [Phrase.Tells, Expr.tokens]
  | false => simp [Phrase.Tells, Expr.tokens]
  | unary _ ih =>
    simp only [Phrase.Tells] at ih ⊢
    simp [Expr.tokens, gist_framing, ih]
  | group _ ih =>
    simp only [Phrase.Tells] at ih ⊢
    simp [gist_framing, ih]
  | ifThen _ _ _ ihc ihb =>
    simp only [Phrase.Tells] at ihc ihb ⊢
    simp [Expr.tokens, block, gist_framing, ihc, ihb, gist_statements]
  | ifElse _ _ _ ihc ihb iho =>
    simp only [Phrase.Tells] at ihc ihb iho ⊢
    simp [Expr.tokens, block, gist_framing, ihc, ihb, iho, gist_statements]
  | function _ ih =>
    simp only [Phrase.Tells] at ih ⊢
    simp [Expr.tokens, block, gist_framing, ih, gist_statements]
  | expression _ _ ihl ihe =>
    simp only [Phrase.Tells] at ihl ihe ⊢
    rw [ihl, ihe]
  | halt _ => rfl
  | call _ _ _ iha ihe =>
    simp only [Phrase.Tells] at iha ihe ⊢
    simp [← ihe, Expr.tokens, gist_framing, iha]
  | binary _ _ _ ihr ihe =>
    simp only [Phrase.Tells] at ihr ihe ⊢
    simp [← ihe, Expr.tokens, gist_framing, ihr]
  | noArguments => simp [Phrase.Tells, gist_framing]
  | arguments _ _ iha ihas =>
    simp only [Phrase.Tells] at iha ihas ⊢
    rw [List.map_cons, intercalate_comma, iha, ihas]
    simp
  | lastArgument => simp [Phrase.Tells, gist_framing]
  | nextArgument _ _ iha ihas =>
    simp only [Phrase.Tells] at iha ihas ⊢
    simp [iha, ihas]
  | define _ ih =>
    simp only [Phrase.Tells] at ih ⊢
    simp [Stmt.tokens, ih]
  | ret _ ih =>
    simp only [Phrase.Tells] at ih ⊢
    simp [Stmt.tokens, ih]
  | retBare _ => simp [Phrase.Tells, Stmt.tokens]
  | expr _ ih => exact ih
  | endOfInput => rfl
  | endOfBlock => simp [Phrase.Tells, gist_framing]
  | statement _ _ ihs ihss =>
    simp only [Phrase.Tells, gist_skip] at ihs ihss ⊢
    simp [ihs, ihss]

end Grammar

/-- The program of a text without errors can be written. -/
theorem Program.writable_of_ofText? {source : String} {p : Program} (h : ofText? source = .ok p) :
    p.Writable (0 ≤ ·) := by
  obtain ⟨-, rfl⟩ := Reading.errors_eq_nil_iff.mpr (ofText?_eq_ok_iff.mp h)
  exact Reading.writable_ofTokens (Token.written_scanChars _).valid

/-- The tokens of a text without errors are, in order, those of the program that is read from it, but
for those that only frame others; numerals denote the same numbers. -/
theorem Program.content_of_ofText? {source : String} {p : Program} (h : ofText? source = .ok p) :
    Kind.content (Token.entries source.toList) = Kind.content (Token.entries p.render.toList) := by
  have htells : (Token.scan source).flatMap Token.gist = p.flatMap (·.tokens.flatMap Token.gist) ++ [] :=
    (ofText?_eq_ok_iff.mp h).tells
  rw [Token.content_entries, Token.content_entries]
  change (Token.scan source).flatMap Token.gist = (Token.scan p.render).flatMap Token.gist
  rw [scan_render (writable_of_ofText? h), Program.tokens, Stmt.tokensEach_eq_map,
    Grammar.gist_statements, htells, List.append_nil]

/-- A text with open blocks, with parentheses to spare and with a zero in front of a number. -/
def looseText : String := "let f=fn(a,b)\x7bif((a)<007)\x7breturn\x7delse\x7b-b*(f(a)(b,1))"

/-- The program of the loose text. -/
def looseProgram : Program :=
  [.define "f" (.function ["a", "b"] [.expr (.ifElse (.binary (.name "a") .less (.int 7)) [.retBare]
    [.expr (.binary (.unary .negate (.name "b")) .times
      (.call (.call (.name "f") [.name "a"]) [.name "b", .int 1]))])])]

theorem Program.content_of_ofText?_loose :
    ofText? looseText = .ok looseProgram ∧
    Kind.content (Token.entries looseText.toList) =
      Kind.content (Token.entries looseProgram.render.toList) := by
  have h : ofText? looseText = .ok looseProgram := by with_unfolding_all rfl
  exact ⟨h, content_of_ofText? h⟩

end MonkeyLang
