import MonkeyLang.Proofs.Decimal
import MonkeyLang.Proofs.Grammar.Reads
import MonkeyLang.Proofs.Token.Layout
import MonkeyLang.Syntax.Render

/-! The tokens of the text of a program. They need only the names of the program to be such that
they can be written. -/
namespace MonkeyLang
open Grammar Token

mutual
/-- Every name can be written, and every integer satisfies `literal`. -/
def Expr.Writable (literal : Int64 → Prop) : Expr → Prop
  | .name x => IsName x
  | .int n => literal n
  | .bool _ => True
  | .unary _ e => e.Writable literal
  | .binary l _ r => l.Writable literal ∧ r.Writable literal
  | .ifThen c body => c.Writable literal ∧ Stmt.WritableEach literal body
  | .ifElse c body other =>
    c.Writable literal ∧ Stmt.WritableEach literal body ∧ Stmt.WritableEach literal other
  | .function xs body => (∀ x ∈ xs, IsName x) ∧ Stmt.WritableEach literal body
  | .call f as => f.Writable literal ∧ Expr.WritableEach literal as

def Stmt.Writable (literal : Int64 → Prop) : Stmt → Prop
  | .define x e => IsName x ∧ e.Writable literal
  | .ret e => e.Writable literal
  | .retBare => True
  | .expr e => e.Writable literal

def Expr.WritableEach (literal : Int64 → Prop) : List Expr → Prop
  | [] => True
  | e :: es => e.Writable literal ∧ Expr.WritableEach literal es

def Stmt.WritableEach (literal : Int64 → Prop) : List Stmt → Prop
  | [] => True
  | s :: ss => s.Writable literal ∧ Stmt.WritableEach literal ss
end

@[simp] theorem Expr.writableEach_iff {literal : Int64 → Prop} {es : List Expr} :
    Expr.WritableEach literal es ↔ ∀ e ∈ es, e.Writable literal := by
  induction es with
  | nil => simp [Expr.WritableEach]
  | cons e es ih => simp [Expr.WritableEach, ih]

@[simp] theorem Stmt.writableEach_iff {literal : Int64 → Prop} {ss : List Stmt} :
    Stmt.WritableEach literal ss ↔ ∀ s ∈ ss, s.Writable literal := by
  induction ss with
  | nil => simp [Stmt.WritableEach]
  | cons s ss ih => simp [Stmt.WritableEach, ih]

def Program.Writable (literal : Int64 → Prop) (p : Program) : Prop := ∀ s ∈ p, s.Writable literal

/-- The tokens of an integer. -/
def Decimal.tokens (n : Int64) : List Token :=
  match n.toInt with
  | .ofNat m => [.int m.repr]
  | .negSucc m => [.symbol .minus, .int (m + 1).repr]

/-- The tokens of a block. -/
def block (ts : List Token) : List Token :=
  .symbol .leftBrace :: (ts ++ [.symbol .rightBrace])

mutual
def Expr.tokens : Expr → List Token
  | .name x => [.name x]
  | .int n => Decimal.tokens n
  | .bool true => [.keyword .trueKw]
  | .bool false => [.keyword .falseKw]
  | .unary op e => .symbol .leftParen :: .symbol op.symbol :: (e.tokens ++ [.symbol .rightParen])
  | .binary l op r =>
    .symbol .leftParen :: (l.tokens ++ .symbol op.symbol :: (r.tokens ++ [.symbol .rightParen]))
  | .ifThen c body => .keyword .ifKw :: .symbol .leftParen :: (c.tokens ++ .symbol .rightParen ::
      block ([.symbol .semicolon].intercalate (Stmt.tokensEach body)))
  | .ifElse c body other => .keyword .ifKw :: .symbol .leftParen ::
      (c.tokens ++ .symbol .rightParen ::
        (block ([.symbol .semicolon].intercalate (Stmt.tokensEach body)) ++ .keyword .elseKw ::
          block ([.symbol .semicolon].intercalate (Stmt.tokensEach other))))
  | .function xs body => .keyword .fnKw :: .symbol .leftParen :: (names xs ++ .symbol .rightParen ::
      block ([.symbol .semicolon].intercalate (Stmt.tokensEach body)))
  | .call f as => f.tokens ++ .symbol .leftParen ::
      ([.symbol .comma].intercalate (Expr.tokensEach as) ++ [.symbol .rightParen])

def Stmt.tokens : Stmt → List Token
  | .define x e => .keyword .letKw :: .name x :: .symbol .equal :: e.tokens
  | .ret e => .keyword .returnKw :: e.tokens
  | .retBare => [.keyword .returnKw]
  | .expr e => e.tokens

def Expr.tokensEach : List Expr → List (List Token)
  | [] => []
  | e :: es => e.tokens :: Expr.tokensEach es

def Stmt.tokensEach : List Stmt → List (List Token)
  | [] => []
  | s :: ss => s.tokens :: Stmt.tokensEach ss
end

def Program.tokens (p : Program) : List Token :=
  [.symbol .semicolon].intercalate (Stmt.tokensEach p)

@[simp] theorem Expr.tokensEach_eq_map (es : List Expr) :
    Expr.tokensEach es = es.map Expr.tokens := by
  induction es with
  | nil => rfl
  | cons e es ih => simp [Expr.tokensEach, ih]

@[simp] theorem Stmt.tokensEach_eq_map (ss : List Stmt) :
    Stmt.tokensEach ss = ss.map Stmt.tokens := by
  induction ss with
  | nil => rfl
  | cons s ss ih => simp [Stmt.tokensEach, ih]

theorem Decimal.tokens_of_nonneg {n : Int64} (h : 0 ≤ n) :
    Decimal.tokens n = [.int (Decimal.write n)] := by
  rw [Int64.le_iff_toInt_le] at h
  unfold Decimal.tokens Decimal.write
  cases hn : n.toInt with
  | ofNat m => rfl
  | negSucc m =>
    rw [hn] at h
    exact (Int.negSucc_not_nonneg m |>.mp h).elim

theorem Decimal.tokens_of_neg {n : Int64} (h : n < 0) (hn : n ≠ Int64.minValue) :
    Decimal.tokens n = [.symbol .minus, .int (Decimal.write (-n))] := by
  have hneg : n.toInt < 0 := Int64.lt_iff_toInt_lt.mp h
  unfold Decimal.tokens Decimal.write
  rw [Decimal.toInt_neg hn]
  cases hm : n.toInt with
  | ofNat m =>
    rw [hm] at hneg
    exact (Int.not_lt.mpr (Int.natCast_nonneg m) hneg).elim
  | negSucc m => rfl

theorem Decimal.written (n : Int64) : Written (Decimal.tokens n) (Decimal.write n).toList := by
  unfold Decimal.tokens Decimal.write
  cases n.toInt with
  | ofNat m => exact .single (Decimal.isNumeral_repr m)
  | negSucc m =>
    rw [String.toList_append]
    exact .symbol (.single (Decimal.isNumeral_repr (m + 1)))

theorem written_names {xs : List String} (h : ∀ x ∈ xs, IsName x) :
    Written (names xs) (", ".intercalate xs).toList := by
  have hw := written_intercalate (f := fun x => [.name x]) (g := id) (.inl rfl)
    (fun x hx => Written.single (h x hx))
  rwa [List.map_id] at hw

theorem written_block {body : List Stmt} {us : List Token} {ds : List Char}
    (h : ∀ s ∈ body, Written s.tokens s.render.toList) (hu : Written us ds) :
    Written (block ([.symbol .semicolon].intercalate (body.map Stmt.tokens)) ++ us)
      ((braced body ("; ".intercalate (body.map Stmt.render))).toList ++ ds) := by
  have hw := written_intercalate (.inr rfl) h
  cases body with
  | nil => exact .symbol (Written.space (.symbol hu))
  | cons s ss =>
    have hend := hw.append (Written.symbol (s := .rightBrace) hu).space (apart_blank rfl _)
    simp only [block, braced, String.toList_append, List.append_assoc, List.cons_append]
    exact .symbol hend.space

theorem digit_ne_equal {c : Char} (h : c.isDigit = true) : c ≠ '=' := by
  rintro rfl
  revert h
  decide

theorem Decimal.head_write (n : Int64) :
    ∃ c, (Decimal.write n).toList.head? = some c ∧ (c.isDigit = true ∨ c = '-') := by
  unfold Decimal.write
  cases n.toInt with
  | ofNat m =>
    obtain ⟨hne, hd⟩ := Decimal.isNumeral_repr m
    obtain ⟨c, cs, hc⟩ := List.exists_cons_of_ne_nil (mt String.toList_eq_nil_iff.mp hne)
    rw [hc] at hd
    exact ⟨c, by rw [hc]; rfl, .inl (hd c List.mem_cons_self)⟩
  | negSucc m => exact ⟨'-', by simp, .inr rfl⟩

/-- No text of an expression starts with something that would go on with an operator. -/
theorem Expr.head_render {literal : Int64 → Prop} : (e : Expr) → e.Writable literal →
    ∃ c, e.render.toList.head? = some c ∧ c ≠ '='
  | .name x, h => by
    obtain ⟨hne, hl, -⟩ := h
    obtain ⟨c, cs, hc⟩ := List.exists_cons_of_ne_nil (mt String.toList_eq_nil_iff.mp hne)
    refine ⟨c, by rw [Expr.render, hc]; rfl, ?_⟩
    rintro rfl
    rw [hc] at hl
    exact absurd (hl '=' List.mem_cons_self) (by decide)
  | .int n, _ => by
    obtain ⟨c, hc, hd | rfl⟩ := Decimal.head_write n
    · exact ⟨c, hc, digit_ne_equal hd⟩
    · exact ⟨'-', hc, by decide⟩
  | .bool b, _ => by cases b <;> exact ⟨_, rfl, by decide⟩
  | .call f as, h => by
    obtain ⟨c, hf, hc⟩ := f.head_render h.1
    exact ⟨c, by simp [Expr.render, hf], hc⟩
  | .unary _ _, _ | .binary _ _ _, _ => ⟨'(', by simp [Expr.render], by decide⟩
  | .ifThen _ _, _ | .ifElse _ _ _, _ => ⟨'i', by simp [Expr.render], by decide⟩
  | .function _ _, _ => ⟨'f', by simp [Expr.render], by decide⟩

/-- In parentheses, whatever stands behind them. -/
theorem written_parens {ts us : List Token} {cs ds : List Char} (h : Written ts cs)
    (hu : Written us ds) :
    Written (.symbol .leftParen :: (ts ++ .symbol .rightParen :: us)) ('(' :: (cs ++ ')' :: ds)) :=
  .symbol (s := .leftParen) (h.append (.symbol hu) (apart_symbol (s := .rightParen) (by decide) ds))

mutual
theorem Expr.written {literal : Int64 → Prop} : (e : Expr) → e.Writable literal →
    Written e.tokens e.render.toList
  | .name x, h => .single h
  | .int n, _ => Decimal.written n
  | .bool b, _ => by cases b <;> exact .single trivial
  | .unary op e, h => by
    have he := (e.written h).append (Written.symbol (s := .rightParen) .nil)
      (apart_symbol (by decide) [])
    obtain ⟨c, hc, hn⟩ := e.head_render h
    have hop : (symbol op.symbol).EndsBefore (e.render.toList ++ [')']) := by
      intro d hd
      obtain rfl : c = d := by simpa [hc] using hd
      cases op with
      | negate => exact id
      | not => exact hn
    simpa [Expr.tokens, Expr.render, lexeme, Symbol.text] using
      Written.symbol (s := .leftParen) (.token (t := .symbol op.symbol) trivial hop he)
  | .binary l op r, h => by
    have hr := Written.spaced (t := .symbol op.symbol) (c := ' ') trivial rfl (r.written h.2)
    have hl := (l.written h.1).append hr.space (apart_blank rfl _)
    simpa [Expr.tokens, Expr.render, lexeme, Keyword.text, Symbol.text] using written_parens hl .nil
  | .ifThen c body, h => by
    have hb := written_block (Stmt.writtenEach body (Stmt.writableEach_iff.mp h.2)) .nil
    have hc := written_parens (c.written h.1) hb.space
    have hif := Written.spaced (t := .keyword .ifKw) (c := ' ') trivial rfl hc
    simpa [Expr.tokens, Expr.render, lexeme, Keyword.text, Symbol.text] using hif
  | .ifElse c body other, h => by
    have ho := written_block (Stmt.writtenEach other (Stmt.writableEach_iff.mp h.2.2)) .nil
    have helse := Written.spaced (t := .keyword .elseKw) (c := ' ') trivial rfl ho
    have hb := written_block (Stmt.writtenEach body (Stmt.writableEach_iff.mp h.2.1)) helse.space
    have hc := written_parens (c.written h.1) hb.space
    have hif := Written.spaced (t := .keyword .ifKw) (c := ' ') trivial rfl hc
    simpa [Expr.tokens, Expr.render, lexeme, Keyword.text, Symbol.text] using hif
  | .function xs body, h => by
    have hb := written_block (Stmt.writtenEach body (Stmt.writableEach_iff.mp h.2)) .nil
    have hxs := written_parens (written_names h.1) hb.space
    have hfn := Written.token (t := .keyword .fnKw) trivial
      (endsBefore_of_apart (apart_symbol (s := .leftParen) (by decide) _)) hxs
    simpa [Expr.tokens, Expr.render, lexeme, Keyword.text, Symbol.text] using hfn
  | .call f as, h => by
    have has := written_intercalate (.inl rfl)
      (Expr.writtenEach as (Expr.writableEach_iff.mp h.2))
    have hcall := (f.written h.1).append (written_parens has .nil)
      (apart_symbol (s := .leftParen) (by decide) _)
    simpa [Expr.tokens, Expr.render, lexeme, Keyword.text, Symbol.text] using hcall

theorem Stmt.written {literal : Int64 → Prop} : (s : Stmt) → s.Writable literal →
    Written s.tokens s.render.toList
  | .define x e, h => by
    have he := Written.spaced (t := .symbol .equal) (c := ' ') trivial rfl (e.written h.2)
    have hx := Written.spaced (t := .name x) (c := ' ') h.1 rfl he
    have hlet := Written.spaced (t := .keyword .letKw) (c := ' ') trivial rfl hx
    simpa [Stmt.tokens, Stmt.render, lexeme, Keyword.text, Symbol.text] using hlet
  | .ret e, h => by
    have hret := Written.spaced (t := .keyword .returnKw) (c := ' ') trivial rfl (e.written h)
    simpa [Stmt.tokens, Stmt.render, lexeme, Keyword.text, Symbol.text] using hret
  | .retBare, _ => .single trivial
  | .expr e, h => e.written h

theorem Expr.writtenEach {literal : Int64 → Prop} : (es : List Expr) →
    (∀ e ∈ es, e.Writable literal) → ∀ e ∈ es, Written e.tokens e.render.toList
  | [], _ => by simp
  | e :: es, h => by
    obtain ⟨he, hes⟩ := List.forall_mem_cons.mp h
    exact List.forall_mem_cons.mpr ⟨e.written he, Expr.writtenEach es hes⟩

theorem Stmt.writtenEach {literal : Int64 → Prop} : (ss : List Stmt) →
    (∀ s ∈ ss, s.Writable literal) → ∀ s ∈ ss, Written s.tokens s.render.toList
  | [], _ => by simp
  | s :: ss, h => by
    obtain ⟨hs, hss⟩ := List.forall_mem_cons.mp h
    exact List.forall_mem_cons.mpr ⟨s.written hs, Stmt.writtenEach ss hss⟩
end

theorem Program.scan_render {literal : Int64 → Prop} {p : Program} (h : p.Writable literal) :
    Token.scan p.render = p.tokens := by
  have hw := written_intercalate (.inr rfl) (Stmt.writtenEach p h)
  rw [Program.tokens, Stmt.tokensEach_eq_map]
  refine scanChars_of_written ?_
  rw [Program.render, Stmt.renderEach_eq_map]
  exact hw

end MonkeyLang
