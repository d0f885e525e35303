import MonkeyLang.Command
import MonkeyLang.Proofs.Grammar.Content

/-! The listing of a program, in which nothing but the end of a line stands between two statements.
A statement ends where the next one starts, unless the next one starts with a parenthesis or a bare
`return` finds a value. -/
namespace MonkeyLang

/-- The expression that stands at the start: of calls, what is called first. -/
def Expr.head : Expr → Expr
  | call f _ => f.head
  | e => e

/-- Whether a statement is an expression that starts with an operation, and so with a parenthesis. -/
def Stmt.startsGrouped : Stmt → Bool
  | expr e => e.head.isOperation
  | _ => false

/-- A token that starts a statement: a parenthesis if the statement starts with an operation, and
else no symbol at all. -/
def Token.Starts (grouped : Bool) (t : Token) : Prop :=
  t ≠ .keyword .elseKw ∧ if grouped then t = .symbol .leftParen else ∀ s, t ≠ .symbol s

theorem Step.Yields.unique {α : Type} {n : Nat} {s : Step α n} {a b : α} {rest rest' : List Token}
    (h : s.Yields a rest) (h' : s.Yields b rest') : a = b ∧ rest = rest' :=
  ⟨h.1.symm.trans h'.1, h.2.1.symm.trans h'.2.1⟩

/-- The tokens of an expression without negative integers spell it anywhere. -/
theorem Expr.spells_tokens {e : Expr} (h : e.Writable (0 ≤ ·)) (place : Grammar.Place) :
    Grammar.Spells (.placed place e) e.tokens := by
  obtain ⟨hs, hu⟩ := e.unsigned_of_nonneg h
  obtain ⟨ts, hts, hspells⟩ := e.spellsUnsigned (fun _ => Decimal.ne_minValue_of_nonneg) h
  rw [hs] at hts
  rw [hts, ← hu]
  exact hspells place

theorem Expr.spells_arguments_tokens {as : List Expr} (h : Expr.WritableEach (0 ≤ ·) as) :
    Grammar.Spells (.arguments as) ([.symbol .comma].intercalate (as.map Expr.tokens)) := by
  have hs := spells_arguments (Expr.spellsEach_reread (fun _ => Decimal.ne_minValue_of_nonneg) as
    (Expr.writableEach_iff.mp h))
  rwa [← Expr.rereadEach_eq_map, Expr.rereadEach_of_nonneg as h] at hs

/-- What the tokens of an expression start with. -/
theorem Expr.exists_starts : (e : Expr) → e.Writable (0 ≤ ·) →
    ∃ t ts, e.tokens = t :: ts ∧ t.Starts e.head.isOperation
  | .name x, _ => ⟨_, _, rfl, nofun, nofun⟩
  | .int n, h => ⟨_, _, Decimal.tokens_of_nonneg h, nofun, nofun⟩
  | .bool true, _ | .bool false, _ => ⟨_, _, rfl, nofun, nofun⟩
  | .unary _ _, _ | .binary _ _ _, _ => ⟨_, _, rfl, nofun, rfl⟩
  | .ifThen _ _, _ | .ifElse _ _ _, _ | .function _ _, _ => ⟨_, _, rfl, nofun, nofun⟩
  | .call f as, h => by
    obtain ⟨t, ts, hf, ht⟩ := f.exists_starts h.1
    exact ⟨t, _, by rw [Expr.tokens, hf, List.cons_append], ht⟩

theorem Stmt.exists_starts {s : Stmt} (h : s.Writable (0 ≤ ·)) :
    ∃ t ts, s.tokens = t :: ts ∧ t.Starts s.startsGrouped := by
  have hkeyword {k : Keyword} (hk : k ≠ .elseKw) : (Token.keyword k).Starts Bool.false :=
    ⟨fun he => hk (Token.keyword.inj he), by simp⟩
  cases s with
  | define x e => exact ⟨_, _, rfl, hkeyword (by decide)⟩
  | ret e => exact ⟨_, _, rfl, hkeyword (by decide)⟩
  | retBare => exact ⟨_, _, rfl, hkeyword (by decide)⟩
  | expr e => exact e.exists_starts h

namespace Grammar
variable {p : Precedence} {e e' : Expr} {rest rest' : List Token}

/-- An operator chain gives its left operand back, or something larger. -/
def Phrase.Grows : Phrase → List Token → List Token → Prop
  | operators p left e, ts, rest => left = e ∧ Halts p ts ∧ rest = ts ∨ sizeOf left < sizeOf e
  | _, _, _ => True

theorem Reads.grows {φ : Phrase} {ts rest : List Token} (h : Reads φ ts rest) : φ.Grows ts rest := by
  induction h with
  | halt h => exact .inl ⟨rfl, h, rfl⟩
  | @call p left as e ts mid rest _ _ _ _ ih =>
    right
    have hlt : sizeOf left < sizeOf (Expr.call left as) := by simp; omega
    rcases ih with ⟨rfl, -⟩ | ih
    · exact hlt
    · exact hlt.trans ih
  | @binary p left op right e ts mid rest _ _ _ _ ih =>
    right
    have hlt : sizeOf left < sizeOf (Expr.binary left op right) := by simp; omega
    rcases ih with ⟨rfl, -⟩ | ih
    · exact hlt
    · exact hlt.trans ih
  | _ => trivial

/-- An operator chain that adds nothing to its left operand is empty. -/
theorem Reads.operators_self (h : Reads (.operators p e e) rest rest') :
    Halts p rest ∧ rest' = rest := by
  rcases h.grows with ⟨-, h⟩ | h
  · exact h
  · exact (Nat.lt_irrefl _ h).elim

/-- The tokens of an expression that is no call are read as an operand. -/
theorem reads_operand_tokens (hw : e.Writable (0 ≤ ·)) (he : ∀ f as, e ≠ .call f as)
    (hr : rest.head? ≠ some (.keyword .elseKw)) : Reads (.operand e) (e.tokens ++ rest) rest := by
  have hblock {body : List Stmt} {ts : List Token} (hb : Spells (.statements body) ts)
      (us : List Token) : Reads (.statements Bool.true body) (ts ++ .symbol .rightBrace :: us) us :=
    hb.readBack Bool.true _ _ .endOfBlock
  have hs := Expr.spells_tokens hw .callee
  generalize e.tokens = ts at hs
  cases hs with
  | parens hf =>
    have hinner : Reads (.expression .lowest e) (_ ++ .symbol .rightParen :: rest)
        (.symbol .rightParen :: rest) := hf.readBack.before rfl
    simpa using Reads.group hinner
  | plain hn hb =>
    cases hb with
    | name _ => exact .name
    | int _ hd => exact .int hd
    | true => exact .true
    | false => exact .false
    | unary _ => exact (hn trivial).elim
    | binary _ _ => exact (hn trivial).elim
    | ifThen hc hbody => simpa using Reads.ifThen (hc.readBack.before rfl) (hblock hbody _) hr
    | ifElse hc hbody hother =>
      simpa using Reads.ifElse (hc.readBack.before rfl) (hblock hbody _) (hblock hother _)
    | function _ hbody => simpa using Reads.function (hblock hbody _)
    | call _ _ => exact (he _ _ rfl).elim

theorem Reads.operand_unique (h : Reads (.operand e) rest rest') {mid : List Token}
    (h' : Reads (.operand e') rest mid) : e = e' ∧ rest' = mid := by
  obtain ⟨t, ts, rfl, hy⟩ := h.succeeds
  obtain ⟨u, us, hu, hy'⟩ := h'.succeeds
  obtain ⟨rfl, rfl⟩ := List.cons.inj hu
  obtain ⟨he, hr⟩ := hy.unique hy'
  exact ⟨Except.ok.inj he, hr⟩

theorem Reads.behind_operand (hw : e.Writable (0 ≤ ·)) (he : ∀ f as, e ≠ .call f as)
    (hr : rest.head? ≠ some (.keyword .elseKw))
    (h : Reads (.expression p e') (e.tokens ++ rest) rest') : Reads (.operators p e e') rest rest' := by
  cases h with
  | expression hl ho =>
    obtain ⟨rfl, rfl⟩ := hl.operand_unique (reads_operand_tokens hw he hr)
    exact ho

/-- The tokens of an expression are the left operand of whatever is read with them. -/
theorem Reads.behind_tokens (hp : p < .call) : (e : Expr) → e.Writable (0 ≤ ·) → {rest : List Token} →
    rest.head? ≠ some (.keyword .elseKw) → Reads (.expression p e') (e.tokens ++ rest) rest' →
    Reads (.operators p e e') rest rest'
  | .call f as, hw, rest, hr, h => by
    have hcallee : Reads (.operators p f e') (.symbol .leftParen ::
        ([.symbol .comma].intercalate (as.map Expr.tokens) ++ .symbol .rightParen :: rest)) rest' :=
      behind_tokens hp f hw.1 nofun (by simpa [Expr.tokens] using h)
    generalize hts : Token.symbol .leftParen :: _ = ts at hcallee
    cases hcallee with
    | halt hh => exact (halts_leftParen.mp (hts ▸ hh) hp).elim
    | @binary _ _ op _ _ _ _ _ _ _ _ =>
      cases op <;> cases hts
    | call _ ha ho =>
      cases hts
      have has := ((Expr.spells_arguments_tokens hw.2).readBack.1 rest).succeeds
      obtain ⟨he, rfl⟩ := Step.Yields.unique ha.succeeds has
      cases he
      exact ho
  | .name _, hw, _, hr, h | .int _, hw, _, hr, h | .bool _, hw, _, hr, h
  | .unary _ _, hw, _, hr, h | .binary _ _ _, hw, _, hr, h | .ifThen _ _, hw, _, hr, h
  | .ifElse _ _ _, hw, _, hr, h | .function _ _, hw, _, hr, h => behind_operand hw nofun hr h

theorem reads_define_iff {x : String} {ts : List Token} :
    Reads (.sentence (.define x e)) (.keyword .letKw :: .name x :: .symbol .equal :: ts) rest ↔
      Reads (.expression .lowest e) ts rest :=
  ⟨fun | .define h => h, .define⟩

theorem reads_ret_iff {ts : List Token} :
    Reads (.sentence (.ret e)) (.keyword .returnKw :: ts) rest ↔
      Reads (.expression .lowest e) ts rest :=
  ⟨fun | .ret h => h, .ret⟩

theorem reads_retBare_iff {ts : List Token} :
    Reads (.sentence .retBare) (.keyword .returnKw :: ts) rest ↔
      endsReturn ts = Bool.true ∧ rest = ts :=
  ⟨fun | .retBare h => ⟨h, rfl⟩, by rintro ⟨h, rfl⟩; exact .retBare h⟩

theorem reads_expr_iff {ts : List Token} :
    Reads (.sentence (.expr e)) ts rest ↔ Reads (.expression .lowest e) ts rest :=
  ⟨fun | .expr h => h, .expr⟩

section Next
variable {t : Token} {grouped : Bool} {ts mid : List Token} (ht : t.Starts grouped)
include ht

/-- The start of a statement ends an expression, unless it is a parenthesis. -/
theorem halts_starts_iff : Halts .lowest (t :: ts) ↔ grouped = false := by
  obtain ⟨-, ht⟩ := ht
  cases grouped with
  | true =>
    obtain rfl : t = .symbol .leftParen := ht
    rw [halts_leftParen]
    decide
  | false =>
    cases t with
    | symbol s => exact (ht s rfl).elim
    | _ => exact iff_of_true trivial rfl

theorem skip_starts : Token.skip (.symbol .semicolon) (t :: ts) = t :: ts := by
  apply Token.skip_of_head?_ne
  obtain ⟨-, ht⟩ := ht
  cases grouped with
  | true =>
    obtain rfl : t = .symbol .leftParen := ht
    simp
  | false => simpa using ht .semicolon

theorem endsReturn_starts : endsReturn (t :: ts) = Bool.false := by
  obtain ⟨-, ht⟩ := ht
  cases grouped with
  | true =>
    obtain rfl : t = .symbol .leftParen := ht
    rfl
  | false => simp [endsReturn, ht .semicolon, ht .rightBrace]

theorem reads_expression_tokens_iff (hw : e.Writable (0 ≤ ·)) :
    Reads (.expression .lowest e) (e.tokens ++ t :: ts) mid ↔ grouped = false ∧ mid = t :: ts := by
  have hn : (t :: ts).head? ≠ some (.keyword .elseKw) := by simpa using ht.1
  constructor
  · intro h
    obtain ⟨hh, hmid⟩ := (h.behind_tokens (by decide) e hw hn).operators_self
    exact ⟨(halts_starts_iff ht).mp hh, hmid⟩
  · rintro ⟨hg, rfl⟩
    exact (Expr.spells_tokens hw .free).readBack.free ((halts_starts_iff ht).mpr hg) hn

/-- The tokens of a statement are read as that statement in front of the next one, unless this one
starts with a parenthesis or is the value of a bare return. -/
theorem reads_sentence_tokens_iff {s : Stmt} (hw : s.Writable (0 ≤ ·)) :
    Reads (.sentence s) (s.tokens ++ t :: ts) mid ↔
      (s ≠ .retBare ∧ grouped = false) ∧ mid = t :: ts := by
  cases s with
  | define x e => simp [Stmt.tokens, reads_define_iff, reads_expression_tokens_iff ht hw.2]
  | ret e =>
    have he : Reads (.expression .lowest e) (e.tokens ++ t :: ts) mid ↔
        grouped = false ∧ mid = t :: ts := reads_expression_tokens_iff ht hw
    simp [Stmt.tokens, reads_ret_iff, he]
  | retBare => simp [Stmt.tokens, reads_retBare_iff, endsReturn_starts ht]
  | expr e =>
    have he : Reads (.expression .lowest e) (e.tokens ++ t :: ts) mid ↔
        grouped = false ∧ mid = t :: ts := reads_expression_tokens_iff ht hw
    simp [Stmt.tokens, reads_expr_iff, he]

end Next

theorem reads_last_tokens {s : Stmt} (hw : s.Writable (0 ≤ ·)) : Reads (.sentence s) s.tokens [] := by
  have hs := s.spells_reread (fun _ => Decimal.ne_minValue_of_nonneg) hw
  rw [s.reread_of_nonneg hw] at hs
  simpa using hs.readBack [] rfl

theorem reads_statement_iff {s : Stmt} {ss : List Stmt} {ts : List Token} :
    Reads (.statements Bool.false (s :: ss)) ts rest ↔ ∃ mid, Reads (.sentence s) ts mid ∧
      Reads (.statements Bool.false ss) (Token.skip (.symbol .semicolon) mid) rest :=
  ⟨fun | .statement hs hss => ⟨_, hs, hss⟩, fun ⟨_, hs, hss⟩ => .statement hs hss⟩

/-- Statements in a row are read as they stand exactly if each of them is read in front of the next. -/
theorem reads_statements_tokens_iff {ss : List Stmt} (hw : ∀ s ∈ ss, s.Writable (0 ≤ ·)) :
    Reads (.statements Bool.false ss) (ss.flatMap Stmt.tokens) [] ↔
      (∀ s ∈ ss.dropLast, s ≠ .retBare) ∧ ∀ s ∈ ss.tail, s.startsGrouped = false := by
  induction ss with
  | nil => exact iff_of_true .endOfInput ⟨nofun, nofun⟩
  | cons s ss ih =>
    obtain ⟨hs, hss⟩ := List.forall_mem_cons.mp hw
    cases ss with
    | nil =>
      have hlast : Reads (.statements Bool.false [s]) s.tokens [] :=
        .statement (reads_last_tokens hs) .endOfInput
      exact iff_of_true (by simpa using hlast) ⟨nofun, nofun⟩
    | cons s' ss =>
      obtain ⟨t, ts, htokens, ht⟩ := Stmt.exists_starts (hss s' List.mem_cons_self)
      have hstep : Reads (.statements Bool.false (s :: s' :: ss))
          ((s :: s' :: ss).flatMap Stmt.tokens) [] ↔ (s ≠ .retBare ∧ s'.startsGrouped = false) ∧
            Reads (.statements Bool.false (s' :: ss)) ((s' :: ss).flatMap Stmt.tokens) [] := by
        simp only [List.flatMap_cons, htokens, List.cons_append, reads_statement_iff (s := s),
          reads_sentence_tokens_iff ht hs, and_assoc, exists_and_left, exists_eq_left,
          skip_starts ht]
      rw [hstep, ih hss, List.dropLast_cons_of_ne_nil (List.cons_ne_nil s' ss)]
      simp only [List.forall_mem_cons, List.tail_cons]
      exact and_and_and_comm

end Grammar

/-- The tokens of a listing are those of its statements in a row. -/
theorem Program.scan_listing {p : Program} (h : p.Writable (0 ≤ ·)) :
    Token.scan p.listing = p.flatMap Stmt.tokens := by
  refine Token.scanChars_of_written ?_
  rw [Program.listing]
  induction p with
  | nil => exact .nil
  | cons s p ih =>
    obtain ⟨hs, hp⟩ := List.forall_mem_cons.mp h
    have hrest := (ih hp).blank (c := '\n') rfl
    simpa using (s.written hs).append hrest (Token.apart_blank rfl _)

/-- The listing of an error-free text is read as the program that it lists exactly if no statement but
the last is a bare return and no statement but the first starts with an operation. -/
theorem Program.ofText?_listing_iff (depth : Nat) {source : String} {p : Program}
    (h : ofText? source = .ok p) :
    ∃ listing, Command.ast.onText? depth source = some (.success listing) ∧
      (ofText? listing = .ok p ↔
        (∀ s ∈ p.dropLast, s ≠ .retBare) ∧ ∀ s ∈ p.tail, s.startsGrouped = false) := by
  have hw := writable_of_ofText? h
  refine ⟨p.listing, ?_, ?_⟩
  · simp [Command.onText?, h]
  · rw [ofText?_eq_ok_iff, scan_listing hw, Grammar.reads_statements_tokens_iff hw]

/-- A text that starts with an operation and ends with a bare `return`. -/
def standingText : String := "-a; return b; fn(x) \x7b return \x7d(c); return"

/-- A text in whose listing the third statement goes on with the second one. -/
def runningText : String := "f(1); let g = -a; (g + 1)(2)(3); return"

theorem Program.ofText?_listing_iff_twoTexts :
    (∃ p listing, ofText? standingText = .ok p ∧
      Command.ast.onText? 0 standingText = some (.success listing) ∧ ofText? listing = .ok p) ∧
    ∃ p listing, ofText? runningText = .ok p ∧
      Command.ast.onText? 0 runningText = some (.success listing) ∧ ofText? listing ≠ .ok p := by
  constructor
  · have h : ofText? standingText = .ok [.expr (.unary .negate (.name "a")), .ret (.name "b"),
        .expr (.call (.function ["x"] [.retBare]) [.name "c"]), .retBare] := by
      with_unfolding_all rfl
    obtain ⟨listing, hdump, hiff⟩ := ofText?_listing_iff 0 h
    exact ⟨_, listing, h, hdump, hiff.mpr (by simp [Stmt.startsGrouped, Expr.head, Expr.isOperation])⟩
  · have h : ofText? runningText = .ok [.expr (.call (.name "f") [.int 1]),
        .define "g" (.unary .negate (.name "a")),
        .expr (.call (.call (.binary (.name "g") .plus (.int 1)) [.int 2]) [.int 3]), .retBare] := by
      with_unfolding_all rfl
    obtain ⟨listing, hdump, hiff⟩ := ofText?_listing_iff 0 h
    exact ⟨_, listing, h, hdump, hiff.not.mpr (by simp [Stmt.startsGrouped, Expr.head, Expr.isOperation])⟩

end MonkeyLang
