import MonkeyLang.Proofs.Decimal
import MonkeyLang.Proofs.Grammar.Reads
import MonkeyLang.Proofs.Token.Layout

/-! The token sequences that spell an expression, with the parentheses that precedence asks for
and any others. Each is read back as the expression that it spells. -/
namespace MonkeyLang

def Expr.isOperation : Expr → Bool
  | unary _ _ | binary _ _ _ => true
  | _ => false

namespace Grammar

/-- Where an expression stands in another one. -/
inductive Place
  | free | operand | left (op : InfixOp) | right (op : InfixOp) | callee

/-- How tightly the operators of the language bind, independently of the reader. -/
def tightness : InfixOp → Nat
  | .equal | .notEqual => 1
  | .less | .greater => 2
  | .plus | .minus => 3
  | .times | .divide => 4

/-- Whether an expression needs parentheses where it stands. -/
def Place.Wraps : Place → Expr → Prop
  | operand, .binary _ _ _ => True
  | left op, .binary _ inner _ => tightness inner < tightness op
  | right op, .binary _ inner _ => tightness inner ≤ tightness op
  | callee, .unary _ _ | callee, .binary _ _ _ => True
  | _, _ => False

/-- Only operations ever need parentheses. -/
theorem not_wraps {place : Place} {e : Expr} (h : e.isOperation = false) : ¬ place.Wraps e := by
  cases e with
  | unary _ _ => cases h
  | binary _ _ _ => cases h
  | _ => cases place <;> exact id

/-- What is spelled: an expression as such, one with parentheses around it or not, or others. -/
inductive Piece
  | bare (e : Expr)
  | placed (place : Place) (e : Expr)
  | arguments (as : List Expr)
  | sentence (s : Stmt)
  | statements (ss : List Stmt)

inductive Spells : Piece → List Token → Prop
  | name {x} : IsName x → Spells (.bare (.name x)) [.name x]
  | int {n digits} : IsNumeral digits → Decimal.read? digits = some n →
      Spells (.bare (.int n)) [.int digits]
  | true : Spells (.bare (.bool true)) [.keyword .trueKw]
  | false : Spells (.bare (.bool false)) [.keyword .falseKw]
  | unary {op e ts} : Spells (.placed .operand e) ts →
      Spells (.bare (.unary op e)) (.symbol op.symbol :: ts)
  | binary {l op r ts us} : Spells (.placed (.left op) l) ts → Spells (.placed (.right op) r) us →
      Spells (.bare (.binary l op r)) (ts ++ .symbol op.symbol :: us)
  | ifThen {c body ts us} : Spells (.placed .free c) ts → Spells (.statements body) us →
      Spells (.bare (.ifThen c body)) (.keyword .ifKw :: .symbol .leftParen ::
        (ts ++ .symbol .rightParen :: .symbol .leftBrace :: (us ++ [.symbol .rightBrace])))
  | ifElse {c body other ts us vs} : Spells (.placed .free c) ts → Spells (.statements body) us →
      Spells (.statements other) vs →
      Spells (.bare (.ifElse c body other)) (.keyword .ifKw :: .symbol .leftParen ::
        (ts ++ .symbol .rightParen :: .symbol .leftBrace :: (us ++ .symbol .rightBrace ::
          .keyword .elseKw :: .symbol .leftBrace :: (vs ++ [.symbol .rightBrace]))))
  | function {xs body ts} : (∀ x ∈ xs, IsName x) → Spells (.statements body) ts →
      Spells (.bare (.function xs body)) (.keyword .fnKw :: .symbol .leftParen ::
        (names xs ++ .symbol .rightParen :: .symbol .leftBrace :: (ts ++ [.symbol .rightBrace])))
  | call {f as ts us} : Spells (.placed .callee f) ts → Spells (.arguments as) us →
      Spells (.bare (.call f as)) (ts ++ .symbol .leftParen :: (us ++ [.symbol .rightParen]))
  | plain {place e ts} : ¬ place.Wraps e → Spells (.bare e) ts → Spells (.placed place e) ts
  | parens {place e ts} : Spells (.placed .free e) ts →
      Spells (.placed place e) (.symbol .leftParen :: (ts ++ [.symbol .rightParen]))
  | noArguments : Spells (.arguments []) []
  | lastArgument {a ts} : Spells (.placed .free a) ts → Spells (.arguments [a]) ts
  | nextArgument {a b as ts us} : Spells (.placed .free a) ts → Spells (.arguments (b :: as)) us →
      Spells (.arguments (a :: b :: as)) (ts ++ .symbol .comma :: us)
  | define {x e ts} : IsName x → Spells (.placed .free e) ts →
      Spells (.sentence (.define x e)) (.keyword .letKw :: .name x :: .symbol .equal :: ts)
  | ret {e ts} : Spells (.placed .free e) ts →
      Spells (.sentence (.ret e)) (.keyword .returnKw :: ts)
  | retBare : Spells (.sentence .retBare) [.keyword .returnKw]
  | expr {e ts} : Spells (.placed .free e) ts → Spells (.sentence (.expr e)) ts
  | noStatements : Spells (.statements []) []
  | lastStatement {s ts} : Spells (.sentence s) ts → Spells (.statements [s]) ts
  | nextStatement {s ss ts us} : Spells (.sentence s) ts → Spells (.statements ss) us →
      Spells (.statements (s :: ss)) (ts ++ .symbol .semicolon :: us)

/-- The level of the operators that an expression without parentheses is made of. -/
def opens : Expr → Precedence
  | .binary _ op _ => op.precedence
  | _ => .call

/-- The level at which an expression without parentheses would go on behind its end. -/
def closes : Expr → Precedence
  | .binary _ op _ => op.precedence
  | .unary _ _ => .unary
  | _ => .call

/-- An expression without parentheses is read whole at level `p` in front of some tokens. -/
def Fits (p : Precedence) (e : Expr) (rest : List Token) : Prop :=
  p < opens e ∧ Halts (closes e) rest

theorem precedence_lt_iff {op inner : InfixOp} :
    op.precedence < inner.precedence ↔ tightness op < tightness inner := by
  cases op <;> cases inner <;> decide

theorem precedence_lt_unary (op : InfixOp) : op.precedence < .unary := by cases op <;> decide

theorem precedence_lt_call (op : InfixOp) : op.precedence < .call := by cases op <;> decide

theorem lowest_lt_opens (e : Expr) : .lowest < opens e := by
  cases e with
  | binary _ op _ =>
    change Precedence.lowest < op.precedence
    cases op <;> decide
  | _ =>
    change Precedence.lowest < Precedence.call
    decide

theorem halts_call (ts : List Token) : Halts .call ts := by
  unfold Halts
  split
  · intro q _ hq
    cases q <;> revert hq <;> decide
  · trivial

theorem fits_free {e : Expr} {rest : List Token} (h : Halts .lowest rest) :
    Fits .lowest e rest :=
  ⟨lowest_lt_opens e, h.mono (Nat.zero_le _)⟩

theorem fits_operand {e : Expr} {rest : List Token} (h : Halts .unary rest)
    (hw : ¬ Place.operand.Wraps e) : Fits .unary e rest := by
  have hc : Precedence.unary < .call := by decide
  cases e with
  | binary _ _ _ => exact (hw trivial).elim
  | unary _ _ => exact ⟨hc, h⟩
  | _ => exact ⟨hc, halts_call rest⟩

theorem fits_callee {p : Precedence} {e : Expr} {rest : List Token} (hp : p < .call)
    (hw : ¬ Place.callee.Wraps e) : Fits p e rest := by
  cases e with
  | binary _ _ _ => exact (hw trivial).elim
  | unary _ _ => exact (hw trivial).elim
  | _ => exact ⟨hp, halts_call rest⟩

/-- A left operand ends in front of its operator, if it needs no parentheses there. -/
theorem fits_left {p : Precedence} {op : InfixOp} {e : Expr} {rest : List Token}
    (hp : p < op.precedence) (hw : ¬ (Place.left op).Wraps e) :
    Fits p e (.symbol op.symbol :: rest) := by
  have hc : p < .call := Nat.lt_trans hp (precedence_lt_call op)
  cases e with
  | binary _ inner _ =>
    have hn : ¬ inner.precedence < op.precedence := mt precedence_lt_iff.mp hw
    exact ⟨Nat.lt_of_lt_of_le hp (Nat.le_of_not_lt hn), halts_operator.mpr hn⟩
  | unary _ _ => exact ⟨hc, halts_operator.mpr (Nat.lt_asymm (precedence_lt_unary op))⟩
  | _ => exact ⟨hc, halts_call _⟩

/-- A right operand takes only the operators that bind tighter than its own. -/
theorem fits_right {op : InfixOp} {e : Expr} {rest : List Token} (h : Halts op.precedence rest)
    (hw : ¬ (Place.right op).Wraps e) : Fits op.precedence e rest := by
  cases e with
  | binary _ inner _ =>
    have hlt : op.precedence < inner.precedence := precedence_lt_iff.mpr (Nat.lt_of_not_le hw)
    exact ⟨hlt, h.mono (Nat.le_of_lt hlt)⟩
  | unary _ _ => exact ⟨precedence_lt_call op, h.mono (Nat.le_of_lt (precedence_lt_unary op))⟩
  | _ => exact ⟨precedence_lt_call op, halts_call rest⟩

/-- A piece is read back in front of all tokens that may follow it. An expression is not read
alone: the operators behind it are read with it as their left operand. -/
def Piece.ReadBack : Piece → List Token → Prop
  | bare e, ts => ∀ p rest e' rest', Fits p e rest → rest.head? ≠ some (.keyword .elseKw) →
      Reads (.operators p e e') rest rest' → Reads (.expression p e') (ts ++ rest) rest'
  | placed place e, ts => ∀ p rest e' rest', p < .call → (¬ place.Wraps e → Fits p e rest) →
      rest.head? ≠ some (.keyword .elseKw) →
      Reads (.operators p e e') rest rest' → Reads (.expression p e') (ts ++ rest) rest'
  | arguments as, ts =>
      (∀ rest, Reads (.arguments as) (ts ++ .symbol .rightParen :: rest) rest) ∧
      (as ≠ [] → ∀ rest,
        Reads (.moreArguments as) (.symbol .comma :: (ts ++ .symbol .rightParen :: rest)) rest)
  | sentence s, ts => ∀ rest, endsReturn rest = true → Reads (.sentence s) (ts ++ rest) rest
  | statements ss, ts => ∀ inBlock rest rest', Reads (.statements inBlock []) rest rest' →
      Reads (.statements inBlock ss) (ts ++ rest) rest'

theorem Piece.ReadBack.free {e : Expr} {ts rest : List Token}
    (h : (Piece.placed .free e).ReadBack ts) (hh : Halts .lowest rest)
    (hn : rest.head? ≠ some (.keyword .elseKw)) :
    Reads (.expression .lowest e) (ts ++ rest) rest :=
  h _ _ _ _ (by decide) (fun _ => fits_free hh) hn (.halt hh)

/-- In front of punctuation. -/
theorem Piece.ReadBack.before {e : Expr} {s : Symbol} {ts rest : List Token}
    (h : (Piece.placed .free e).ReadBack ts) (hs : binding? s = none) :
    Reads (.expression .lowest e) (ts ++ .symbol s :: rest) (.symbol s :: rest) :=
  h.free (halts_of_none hs) (by simp)

theorem of_endsReturn {ts : List Token} (h : endsReturn ts = true) :
    Halts .lowest ts ∧ ts.head? ≠ some (.keyword .elseKw) := by
  cases ts with
  | nil => exact ⟨trivial, by simp⟩
  | cons t ts =>
    simp only [endsReturn, Bool.or_eq_true, decide_eq_true_eq] at h
    rcases h with rfl | rfl
    · exact ⟨halts_of_none rfl, by simp⟩
    · exact ⟨halts_of_none rfl, by simp⟩

theorem Reads.endsReturn_of_nil {inBlock : Bool} {ts rest : List Token}
    (h : Reads (.statements inBlock []) ts rest) :
    endsReturn ts = Bool.true ∧ Token.skip (.symbol .semicolon) ts = ts := by
  cases h with
  | endOfInput => exact ⟨rfl, rfl⟩
  | endOfBlock => exact ⟨rfl, rfl⟩

theorem Spells.readBack {piece : Piece} {ts : List Token} (h : Spells piece ts) :
    piece.ReadBack ts := by
  induction h with
  | name _ => exact fun p rest e' rest' _ _ ho => .expression .name ho
  | int _ hn => exact fun p rest e' rest' _ _ ho => .expression (.int hn) ho
  | true => exact fun p rest e' rest' _ _ ho => .expression .true ho
  | false => exact fun p rest e' rest' _ _ ho => .expression .false ho
  | unary _ ih =>
    intro p rest e' rest' hf hn ho
    have he := ih _ _ _ _ (by decide) (fits_operand hf.2) hn (.halt hf.2)
    exact .expression (.unary he) ho
  | @binary l op r ts us _ _ ihl ihr =>
    intro p rest e' rest' hf hn ho
    have hr := ihr _ _ _ _ (precedence_lt_call op) (fits_right hf.2) hn (.halt hf.2)
    have hl := ihl p (.symbol op.symbol :: (us ++ rest)) e' rest'
      (Nat.lt_trans hf.1 (precedence_lt_call op)) (fits_left hf.1) (by simp) (.binary hf.1 hr ho)
    simpa using hl
  | @ifThen c body ts us _ _ ihc ihb =>
    intro p rest e' rest' hf hn ho
    have hb := ihb Bool.true (.symbol .rightBrace :: rest) rest .endOfBlock
    have he := Reads.ifThen (ihc.before rfl) hb hn
    simpa using Reads.expression he ho
  | @ifElse c body other ts us vs _ _ _ ihc ihb iho =>
    intro p rest e' rest' hf hn ho
    have hother := iho Bool.true (.symbol .rightBrace :: rest) rest .endOfBlock
    have hb := ihb Bool.true (.symbol .rightBrace :: .keyword .elseKw :: .symbol .leftBrace ::
      (vs ++ .symbol .rightBrace :: rest)) _ .endOfBlock
    have he := Reads.ifElse (ihc.before rfl) hb hother
    simpa using Reads.expression he ho
  | @function xs body ts _ _ ih =>
    intro p rest e' rest' hf hn ho
    have hb := ih Bool.true (.symbol .rightBrace :: rest) rest .endOfBlock
    simpa using Reads.expression (.function hb) ho
  | @call f as ts us _ _ ihf iha =>
    intro p rest e' rest' hf hn ho
    have hl := ihf p (.symbol .leftParen :: (us ++ .symbol .rightParen :: rest)) e' rest'
      hf.1 (fits_callee hf.1) (by simp) (.call hf.1 (iha.1 rest) ho)
    simpa using hl
  | plain hw _ ih => exact fun p rest e' rest' _ hf hn ho => ih p rest e' rest' (hf hw) hn ho
  | parens _ ih =>
    intro p rest e' rest' hp hf hn ho
    simpa using Reads.expression (.group (ih.before rfl)) ho
  | noArguments => exact ⟨fun rest => .noArguments, fun h => (h rfl).elim⟩
  | lastArgument _ ih =>
    exact ⟨fun rest => .arguments (ih.before rfl) .lastArgument,
      fun _ rest => .nextArgument (ih.before rfl) .lastArgument⟩
  | nextArgument _ _ iha ihas =>
    constructor
    · intro rest
      simpa using Reads.arguments (iha.before rfl) (ihas.2 (by simp) rest)
    · intro _ rest
      simpa using Reads.nextArgument (iha.before rfl) (ihas.2 (by simp) rest)
  | define _ _ ih =>
    intro rest hr
    obtain ⟨hh, hn⟩ := of_endsReturn hr
    exact .define (ih.free hh hn)
  | ret _ ih =>
    intro rest hr
    obtain ⟨hh, hn⟩ := of_endsReturn hr
    exact .ret (ih.free hh hn)
  | retBare => exact fun rest hr => .retBare hr
  | expr _ ih =>
    intro rest hr
    obtain ⟨hh, hn⟩ := of_endsReturn hr
    exact .expr (ih.free hh hn)
  | noStatements => exact fun inBlock rest rest' h => h
  | lastStatement _ ih =>
    intro inBlock rest rest' h
    obtain ⟨hr, hs⟩ := h.endsReturn_of_nil
    exact .statement (ih rest hr) (by rwa [hs])
  | @nextStatement s ss ts us _ _ ihs ihss =>
    intro inBlock rest rest' h
    have hs := ihs (.symbol .semicolon :: (us ++ rest)) rfl
    have hss : Reads (.statements inBlock ss)
        (Token.skip (.symbol .semicolon) (.symbol .semicolon :: (us ++ rest))) rest' :=
      ihss inBlock rest rest' h
    simpa using Reads.statement hs hss

theorem valid_names {xs : List String} (h : ∀ x ∈ xs, IsName x) : ∀ t ∈ names xs, t.Valid := by
  cases xs with
  | nil => simp [names]
  | cons x xs =>
    obtain ⟨hx, hxs⟩ := List.forall_mem_cons.mp h
    rw [names_cons]
    intro t ht
    simp only [List.mem_cons, List.mem_flatMap, List.not_mem_nil, or_false] at ht
    rcases ht with rfl | ⟨y, hy, rfl | rfl⟩
    · exact hx
    · trivial
    · exact hxs y hy

theorem Spells.valid {piece : Piece} {ts : List Token} (h : Spells piece ts) :
    ∀ t ∈ ts, t.Valid := by
  induction h with
  | name hx => exact List.forall_mem_singleton.mpr hx
  | int hd _ => exact List.forall_mem_singleton.mpr hd
  | function hxs _ ih =>
    have hn := valid_names hxs
    grind [Token.Valid]
  | define hx _ ih =>
    have hn : (Token.name _).Valid := hx
    grind [Token.Valid]
  | _ => grind [Token.Valid]

/-- A text whose tokens spell a program is read as that program. -/
theorem Spells.ofText? {p : Program} {source : String}
    (h : Spells (.statements p) (Token.scan source)) : Program.ofText? source = .ok p := by
  have hr := h.readBack Bool.false [] [] .endOfInput
  rw [Program.ofText?_eq_ok_iff]
  rwa [List.append_nil] at hr

/-- An expression with all the parentheses that precedence asks for, and with blanks between the
tokens, is read as that expression. -/
theorem ofText?_of_spells {e : Expr} {ts : List Token} {source : String}
    (h : Spells (.placed .free e) ts) (hs : Token.Spaced ts source.toList) :
    Program.ofText? source = .ok [.expr e] := by
  have hscan : Token.scan source = ts := Token.scanChars_of_written (hs.written h.valid)
  have hp : Spells (.statements [.expr e]) ts := .lastStatement (.expr h)
  rw [← hscan] at hp
  exact hp.ofText?

theorem ofText?_sum_product :
    Program.ofText? "- ( a + b ) * f ( 1 , ( c ) ) == 2 - 3 - 4" = .ok [.expr
      (.binary (.binary (.unary .negate (.binary (.name "a") .plus (.name "b"))) .times
          (.call (.name "f") [.int 1, .name "c"])) .equal
        (.binary (.binary (.int 2) .minus (.int 3)) .minus (.int 4)))] := by
  have name {place : Place} {x : String} (hx : IsName x) :
      Spells (.placed place (.name x)) [.name x] := .plain (not_wraps rfl) (.name hx)
  have int {place : Place} {n : Int64} (hn : 0 ≤ n) :
      Spells (.placed place (.int n)) [.int (Decimal.write n)] :=
    .plain (not_wraps rfl) (.int (Decimal.isNumeral_write hn) (Decimal.read?_write hn))
  have hsum : Spells (.bare (.binary (.name "a") .plus (.name "b"))) _ :=
    .binary (name (by decide)) (name (by decide))
  have hcall : Spells (.bare (.call (.name "f") [.int 1, .name "c"])) _ :=
    .call (name (by decide)) (.nextArgument (int (by decide))
      (.lastArgument (.parens (name (by decide)))))
  have hneg : Spells (.bare (.unary .negate (.binary (.name "a") .plus (.name "b")))) _ :=
    .unary (.parens (.plain id hsum))
  have hproduct : Spells (.bare (.binary _ .times _)) _ := .binary (.plain id hneg) (.plain id hcall)
  have hinner : Spells (.bare (.binary (.int 2) .minus (.int 3))) _ :=
    .binary (int (by decide)) (int (by decide))
  have houter : Spells (.bare (.binary (.binary (.int 2) .minus (.int 3)) .minus (.int 4))) _ :=
    .binary (.plain (by change ¬ _ < _; decide) hinner) (int (by decide))
  have hall : Spells (.placed .free (.binary _ .equal _)) _ := .plain id (.binary
    (.plain (by change ¬ _ < _; decide) hproduct) (.plain (by change ¬ _ ≤ _; decide) houter))
  exact ofText?_of_spells hall (Token.spaced_lexemes _)

end Grammar
end MonkeyLang
