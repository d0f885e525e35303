import MonkeyLang.Proofs.Grammar.Derivation

/-! The reader accepts every derivable token sequence. It takes as much as it can into each
expression, also where a derivation would start a new statement with a minus sign or an opening
parenthesis, so derivations are first put into a form in which nothing more could be taken. -/
namespace MonkeyLang
namespace Grammar

/-- An operand behind any number of prefix operators. Calls of the operand are not part of it. -/
inductive Operand : List Token → List Token → Prop
  | plain {e ts rest} : (∀ op : PrefixOp, ts.head? ≠ some (.symbol op.symbol)) →
      Reads (.operand e) ts rest → Operand ts rest
  | unary {ts rest} (op : PrefixOp) : Operand ts rest → Operand (.symbol op.symbol :: ts) rest

/-- Infix operators with their right operands, and calls, in any order. -/
inductive Tail : List Token → List Token → Prop
  | nil {ts} : Tail ts ts
  | binary {ts us rest} (op : InfixOp) : Operand ts us → Tail us rest →
      Tail (.symbol op.symbol :: ts) rest
  | call {as ts us rest} : Reads (.arguments as) ts us → Tail us rest →
      Tail (.symbol .leftParen :: ts) rest

/-- An expression without its grouping. -/
def Chain (ts rest : List Token) : Prop := ∃ us, Operand ts us ∧ Tail us rest

theorem Tail.trans {ts us rest : List Token} (h : Tail ts us) (hr : Tail us rest) :
    Tail ts rest := by
  induction h with
  | nil => exact hr
  | binary op ho _ ih => exact .binary op ho (ih hr)
  | call ha _ ih => exact .call ha (ih hr)

theorem Operand.length_lt {ts rest : List Token} (h : Operand ts rest) :
    rest.length < ts.length := by
  induction h with
  | plain _ hr => exact hr.length_lt
  | unary op _ ih => exact Nat.lt_succ_of_lt ih

/-- Where no operator at all stands, none binds tightly. -/
theorem Halts.of_lowest {p : Precedence} {ts : List Token} (h : Halts .lowest ts) : Halts p ts :=
  h.mono (Nat.zero_le p.rank)

theorem Tail.eq_of_halts {ts rest : List Token} (h : Tail ts rest) (hh : Halts .lowest ts) :
    ts = rest := by
  cases h with
  | nil => rfl
  | binary op _ _ =>
    rw [halts_operator] at hh
    exact (hh (by cases op <;> decide)).elim
  | call _ _ =>
    rw [halts_leftParen] at hh
    exact (hh (by decide)).elim

/-- A phrase takes some of these tokens, and leaves a tail in front of which level `p` ends. -/
def Leaves (rest : List Token) (p : Precedence) (φ : Expr → Phrase) (ts : List Token) : Prop :=
  ∃ e mid, Reads (φ e) ts mid ∧ Tail mid rest ∧ Halts p mid

/-- The reader takes a chain as far as operators bind tightly enough. -/
theorem exists_leaves {rest : List Token} (hr : Halts .lowest rest) (n : Nat) :
    (∀ p ts us, ts.length < n → Operand ts us → Tail us rest → Leaves rest p (.expression p) ts) ∧
    (∀ p left ts, ts.length < n → Tail ts rest → Leaves rest p (.operators p left) ts) := by
  induction n with
  | zero =>
    constructor
    · intro p ts us hn
      omega
    · intro p left ts hn
      omega
  | succ n ih =>
    obtain ⟨ihe, iht⟩ := ih
    constructor
    · intro p ts us hn ho ht
      have hus := ho.length_lt
      cases ho with
      | plain hop hl =>
        obtain ⟨e, mid, he, hm⟩ := iht p _ us (by omega) ht
        exact ⟨e, mid, .expression hl he, hm⟩
      | @unary ts _ op ho =>
        simp only [List.length_cons] at hn
        obtain ⟨e₀, mid₀, he₀, hm₀, -⟩ := ihe .unary ts us (by omega) ho ht
        have hmid := he₀.length_le
        obtain ⟨e, mid, he, hm⟩ := iht p (.unary op e₀) mid₀ (by omega) hm₀
        exact ⟨e, mid, .expression (.unary he₀) he, hm⟩
    · intro p left ts hn ht
      cases ht with
      | nil => exact ⟨left, rest, .halt hr.of_lowest, .nil, hr.of_lowest⟩
      | @binary ts us _ op ho ht =>
        simp only [List.length_cons] at hn
        by_cases hp : p < op.precedence
        · obtain ⟨right, us, hright, hus, -⟩ := ihe op.precedence ts us (by omega) ho ht
          have hmid := hright.length_le
          obtain ⟨e, mid, he, hm⟩ := iht p (.binary left op right) us (by omega) hus
          exact ⟨e, mid, .binary hp hright he, hm⟩
        · have hh : Halts p (.symbol op.symbol :: ts) := halts_operator.mpr hp
          exact ⟨left, _, .halt hh, .binary op ho ht, hh⟩
      | @call as ts us _ ha ht =>
        simp only [List.length_cons] at hn
        by_cases hp : p < .call
        · have hus := ha.length_le
          obtain ⟨e, mid, he, hm⟩ := iht p (.call left as) us (by omega) ht
          exact ⟨e, mid, .call hp ha he, hm⟩
        · have hh : Halts p (.symbol .leftParen :: ts) := halts_leftParen.mpr hp
          exact ⟨left, _, .halt hh, .call ha ht, hh⟩

/-- A chain in front of something else is read as one expression. -/
theorem Chain.exists_reads {ts rest : List Token} (h : Chain ts rest) (hr : Halts .lowest rest) :
    ∃ e, Reads (.expression .lowest e) ts rest := by
  obtain ⟨us, ho, ht⟩ := h
  obtain ⟨hl, -⟩ := exists_leaves hr (ts.length + 1)
  obtain ⟨e, mid, he, hm, hh⟩ := hl .lowest ts us (Nat.lt_succ_self _) ho ht
  rw [hm.eq_of_halts hh] at he
  exact ⟨e, he⟩

theorem Chain.append {ts us rest : List Token} (h : Chain ts us) (ht : Tail us rest) :
    Chain ts rest := by
  obtain ⟨vs, ho, hv⟩ := h
  exact ⟨vs, ho, hv.trans ht⟩

/-- Where an operator could stand, a chain is the tail of whatever stands in front of it. -/
theorem Chain.tail {ts rest : List Token} (h : Chain ts rest) (hh : ¬ Halts .lowest ts) :
    Tail ts rest := by
  obtain ⟨us, ho, ht⟩ := h
  cases ho with
  | @unary ts _ op ho =>
    cases op with
    | negate => exact .binary .minus ho ht
    | not => exact (hh (by simp [Halts, PrefixOp.symbol, binding?, InfixOp.ofSymbol?])).elim
  | plain hop hr =>
    cases hr with
    | group he => exact .call (.arguments he .lastArgument) ht
    | @unary op _ _ _ _ => exact (hop op rfl).elim
    | _ => exact (hh trivial).elim

/-- A sentence without the grouping of its expression. -/
inductive Clause : List Token → List Token → Prop
  | define {x ts rest} : Chain ts rest →
      Clause (.keyword .letKw :: .name x :: .symbol .equal :: ts) rest
  | ret {ts rest} : Chain ts rest → Clause (.keyword .returnKw :: ts) rest
  | retBare {rest} : endsReturn rest = Bool.true → Clause (.keyword .returnKw :: rest) rest
  | expr {ts rest} : Chain ts rest → Clause ts rest

/-- Clauses that each end where nothing more could be taken into their expression. -/
inductive Clauses : List Token → List Token → Prop
  | nil {ts} : Clauses ts ts
  | cons {ts us rest} : Clause ts us → Halts .lowest us →
      Clauses (Token.skip (.symbol .semicolon) us) rest → Clauses ts rest

theorem Clause.exists_reads {ts rest : List Token} (h : Clause ts rest) (hr : Halts .lowest rest) :
    ∃ s, Reads (.sentence s) ts rest := by
  cases h with
  | define hc =>
    obtain ⟨e, he⟩ := hc.exists_reads hr
    exact ⟨_, .define he⟩
  | ret hc =>
    obtain ⟨e, he⟩ := hc.exists_reads hr
    exact ⟨_, .ret he⟩
  | retBare hb => exact ⟨_, .retBare hb⟩
  | expr hc =>
    obtain ⟨e, he⟩ := hc.exists_reads hr
    exact ⟨_, .expr he⟩

theorem Clauses.exists_reads {inBlock : Bool} {ts mid rest : List Token} (h : Clauses ts mid)
    (hm : Reads (.statements inBlock []) mid rest) :
    ∃ ss, Reads (.statements inBlock ss) ts rest := by
  induction h with
  | nil => exact ⟨[], hm⟩
  | cons hc hh _ ih =>
    obtain ⟨s, hs⟩ := hc.exists_reads hh
    obtain ⟨ss, hss⟩ := ih hm
    exact ⟨s :: ss, .statement hs hss⟩

/-- Tokens in front of which statements end. -/
def Ends (ts : List Token) : Prop := ts = [] ∨ ts.head? = some (.symbol .rightBrace)

theorem Ends.halts {p : Precedence} {ts : List Token} (h : Ends ts) : Halts p ts := by
  rcases h with rfl | h
  · trivial
  · obtain ⟨us, rfl⟩ := List.head?_eq_some_iff.mp h
    simp [Halts, binding?, InfixOp.ofSymbol?]

theorem Operand.starts {ts rest : List Token} (h : Operand ts rest) :
    ∃ t us, ts = t :: us ∧ startsOperand t = Bool.true := by
  cases h with
  | plain _ hr => exact hr.starts
  | unary op _ => exact ⟨_, _, rfl, by simp [startsOperand]⟩

theorem Clause.starts {ts rest : List Token} (h : Clause ts rest) :
    ts.head? ≠ some (.keyword .elseKw) ∧ ts.head? ≠ some (.symbol .semicolon) := by
  cases h with
  | expr hc =>
    obtain ⟨us, ho, -⟩ := hc
    obtain ⟨t, vs, rfl, ht⟩ := ho.starts
    constructor
    · rintro ⟨⟩
      simp [startsOperand] at ht
    · rintro ⟨⟩
      simp [startsOperand, PrefixOp.ofSymbol?] at ht
  | _ => simp

theorem Clauses.starts {ts rest : List Token} (h : Clauses ts rest) (he : Ends rest) :
    ts.head? ≠ some (.keyword .elseKw) ∧ ts.head? ≠ some (.symbol .semicolon) := by
  cases h with
  | nil => rcases he with rfl | he <;> simp_all
  | cons hc _ _ => exact hc.starts

theorem Clause.append {ts us rest : List Token} (h : Clause ts us) (ht : Tail us rest)
    (hh : ¬ Halts .lowest us) : Clause ts rest := by
  cases h with
  | define hc => exact .define (hc.append ht)
  | ret hc => exact .ret (hc.append ht)
  | expr hc => exact .expr (hc.append ht)
  | retBare hb =>
    unfold endsReturn at hb
    split at hb
    · exact (hh trivial).elim
    · simp only [Bool.or_eq_true, decide_eq_true_eq] at hb
      rcases hb with rfl | rfl <;> exact (hh (halts_of_none rfl)).elim

/-- A clause takes in the next one if that could be the tail of its expression. -/
theorem Clauses.join {ts us rest : List Token} (h : Clause ts us) (hs : Clauses us rest)
    (he : Ends rest) (hh : ¬ Halts .lowest us) : Clauses ts rest := by
  cases hs with
  | nil => exact (hh he.halts).elim
  | cons hc hv hs =>
    cases hc with
    | expr hc => exact .cons (h.append (hc.tail hh) hh) hv hs
    | _ => exact (hh trivial).elim

/-- What is known of a derivable sequence. -/
def Category.Accepted : Category → List Token → List Token → Prop
  | expression, ts, rest => rest.head? ≠ some (.keyword .elseKw) → Chain ts rest
  | expressions, ts, rest => ∀ us, rest = .symbol .rightParen :: us → ∃ e as mid,
      Reads (.expression .lowest e) ts mid ∧ Reads (.moreArguments as) mid us
  | names, ts, rest => ∃ x xs, ts = Grammar.names (x :: xs) ++ rest
  | block, ts, rest => ∃ us ss, ts = .symbol .leftBrace :: us ∧
      Reads (.statements Bool.true ss) us rest
  | sentence, ts, rest => rest.head? ≠ some (.keyword .elseKw) → Clause ts rest
  | statement, ts, rest => ∃ mid, (mid = rest ∨ mid = .symbol .semicolon :: rest) ∧
      (mid.head? ≠ some (.keyword .elseKw) → Clause ts mid)
  | statements, ts, rest => Ends rest → Clauses ts rest

theorem Chain.plain {e : Expr} {t : Token} {ts rest : List Token}
    (ht : ∀ op : PrefixOp, t ≠ .symbol op.symbol) (h : Reads (.operand e) (t :: ts) rest) :
    Chain (t :: ts) rest :=
  ⟨rest, .plain (by simpa using ht) h, .nil⟩

/-- A chain in front of a symbol that is no operator is read as one expression. -/
theorem Chain.exists_reads_of_none {s : Symbol} {ts rest : List Token}
    (h : (.symbol s :: rest).head? ≠ some (.keyword .elseKw) → Chain ts (.symbol s :: rest))
    (hs : binding? s = none) : ∃ e, Reads (.expression .lowest e) ts (.symbol s :: rest) :=
  (h (by simp)).exists_reads (halts_of_none hs)

theorem Derives.accepted {c : Category} {ts rest : List Token} (h : Derives c ts rest) :
    c.Accepted ts rest := by
  induction h with
  | nil => exact fun _ => .nil
  | @cons ts us rest _ _ ihs ihss =>
    intro he
    have hss := ihss he
    obtain ⟨helse, hsemi⟩ := hss.starts he
    obtain ⟨mid, rfl | rfl, hc⟩ := ihs
    · by_cases hh : Halts .lowest mid
      · refine .cons (hc helse) hh ?_
        rwa [Token.skip_of_head?_ne hsemi]
      · exact hss.join (hc helse) he hh
    · exact .cons (hc (by simp)) (halts_of_none rfl) (by simpa [Token.skip] using hss)
  | plain _ ih => exact ⟨_, .inl rfl, ih⟩
  | semicolon _ ih => exact ⟨_, .inr rfl, ih⟩
  | define _ ih => exact fun hr => .define (ih hr)
  | ret _ ih => exact fun hr => .ret (ih hr)
  | retBare hb =>
    intro _
    rcases hb with rfl | ⟨us, rfl⟩ | ⟨us, rfl⟩ <;> exact .retBare (by simp [endsReturn])
  | expr _ ih => exact fun hr => .expr (ih hr)
  | closedBlock _ ih =>
    obtain ⟨ss, hss⟩ := (ih (.inr rfl)).exists_reads .endOfBlock
    exact ⟨_, ss, rfl, hss⟩
  | openBlock _ ih =>
    have he : Reads (.statements Bool.true []) [] [] := .endOfInput
    obtain ⟨ss, hss⟩ := (ih (.inl rfl)).exists_reads he
    exact ⟨_, ss, rfl, hss⟩
  | name => exact fun _ => .plain (by simp) .name
  | int hn => exact fun _ => .plain (by simp) (.int (Decimal.read?_eq_some_iff.mpr ⟨hn, rfl⟩))
  | true => exact fun _ => .plain (by simp) .true
  | false => exact fun _ => .plain (by simp) .false
  | unary hs _ ih =>
    intro hr
    obtain ⟨op, rfl⟩ := prefixSymbol_iff.mp hs
    obtain ⟨us, ho, ht⟩ := ih hr
    exact ⟨us, .unary op ho, ht⟩
  | binary hs _ _ ihl ihr =>
    intro hr
    obtain ⟨op, rfl⟩ := mem_infixSymbols.mp hs
    obtain ⟨us, ho, ht⟩ := ihr hr
    exact (ihl (by simp)).append (.binary op ho ht)
  | group _ ih =>
    intro _
    obtain ⟨e, he⟩ := Chain.exists_reads_of_none ih rfl
    exact .plain (by rintro ⟨⟩ <;> decide) (.group he)
  | callEmpty _ ih => exact fun _ => (ih (by simp)).append (.call .noArguments .nil)
  | call _ _ ihe ihas =>
    intro _
    obtain ⟨e, as, mid, he, has⟩ := ihas _ rfl
    exact (ihe (by simp)).append (.call (.arguments he has) .nil)
  | ifThen _ _ ihc ihb =>
    intro hr
    obtain ⟨c, hc⟩ := Chain.exists_reads_of_none ihc rfl
    obtain ⟨us, body, rfl, hb⟩ := ihb
    exact .plain (by simp) (.ifThen hc hb hr)
  | ifElse _ _ _ ihc ihb iho =>
    intro _
    obtain ⟨c, hc⟩ := Chain.exists_reads_of_none ihc rfl
    obtain ⟨us, body, rfl, hb⟩ := ihb
    obtain ⟨vs, other, rfl, ho⟩ := iho
    exact .plain (by simp) (.ifElse hc hb ho)
  | functionEmpty _ ih =>
    intro _
    obtain ⟨us, body, rfl, hb⟩ := ih
    have hf : Reads (.operand (.function [] body)) (.keyword .fnKw :: .symbol .leftParen ::
        (Grammar.names [] ++ .symbol .rightParen :: .symbol .leftBrace :: us)) _ := .function hb
    exact .plain (by simp) hf
  | function _ _ ihx ih =>
    intro _
    obtain ⟨x, xs, rfl⟩ := ihx
    obtain ⟨us, body, rfl, hb⟩ := ih
    exact .plain (by simp) (.function hb)
  | lastExpression _ ih =>
    rintro us rfl
    obtain ⟨e, he⟩ := Chain.exists_reads_of_none ih rfl
    exact ⟨e, [], _, he, .lastArgument⟩
  | nextExpression _ _ ihe ihas =>
    rintro us rfl
    obtain ⟨e, he⟩ := Chain.exists_reads_of_none ihe rfl
    obtain ⟨a, as, mid, ha, has⟩ := ihas us rfl
    exact ⟨e, a :: as, _, he, .nextArgument ha has⟩
  | lastName => exact ⟨_, [], rfl⟩
  | nextName _ ih =>
    obtain ⟨x, xs, rfl⟩ := ih
    exact ⟨_, x :: xs, rfl⟩

/-- Reading reports no error exactly on the texts whose tokens form statements up to the end. -/
theorem errors_ofText_eq_nil_iff_derives (source : String) :
    (Reading.ofText source).errors = [] ↔ Derives .statements (Token.scan source) [] := by
  constructor
  · intro h
    have hr := Reading.errors_eq_nil_iff.mp ⟨h, rfl⟩
    obtain ⟨mid, hd, ⟨rfl, -⟩ | ⟨hb, -⟩⟩ := hr.derived
    · exact hd
    · cases hb
  · intro h
    have he : Reads (.statements Bool.false []) [] [] := .endOfInput
    obtain ⟨ss, hss⟩ := (h.accepted (.inl rfl)).exists_reads he
    exact (Reading.errors_eq_nil_iff.mpr hss).1

end Grammar
end MonkeyLang
