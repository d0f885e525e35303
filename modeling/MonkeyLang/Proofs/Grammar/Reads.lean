import MonkeyLang.Grammar.Reading
import MonkeyLang.Proofs.Grammar.Success

/-! The reader without its errors, as a relation between phrases and tokens. The relation has one
rule for each way to go on, and it holds exactly where the reader succeeds. -/
namespace MonkeyLang
namespace Grammar
open Attempt

theorem intercalate_comma (ts : List Token) (tss : List (List Token)) :
    [.symbol .comma].intercalate (ts :: tss) = ts ++ tss.flatMap (.symbol .comma :: ·) := by
  induction tss generalizing ts with
  | nil => simp
  | cons us tss ih => simp [List.intercalate_cons_cons, ih]

/-- The tokens of a list of names. -/
def names (xs : List String) : List Token :=
  [.symbol .comma].intercalate (xs.map fun x => [.name x])

theorem names_cons (x : String) (xs : List String) :
    names (x :: xs) = .name x :: xs.flatMap fun y => [.symbol .comma, .name y] := by
  rw [names, List.map_cons, intercalate_comma, List.flatMap_map]
  rfl

/-- How tightly a symbol binds that stands behind an operand. -/
def binding? : Symbol → Option Precedence
  | .leftParen => some .call
  | s => (InfixOp.ofSymbol? s).map InfixOp.precedence

/-- Tokens that do not go on with an expression of operators that bind tighter than `p`. -/
def Halts (p : Precedence) : List Token → Prop
  | .symbol s :: _ => ∀ q ∈ binding? s, ¬ p < q
  | _ => True

@[simp] theorem binding?_symbol (op : InfixOp) : binding? op.symbol = some op.precedence := by
  cases op <;> rfl

@[simp] theorem halts_operator {p : Precedence} {op : InfixOp} {ts : List Token} :
    Halts p (.symbol op.symbol :: ts) ↔ ¬ p < op.precedence := by
  simp [Halts]

@[simp] theorem halts_leftParen {p : Precedence} {ts : List Token} :
    Halts p (.symbol .leftParen :: ts) ↔ ¬ p < .call := by
  simp [Halts, binding?]

theorem halts_of_none {p : Precedence} {s : Symbol} {ts : List Token} (h : binding? s = none) :
    Halts p (.symbol s :: ts) := by
  simp [Halts, h]

theorem Halts.mono {p q : Precedence} {ts : List Token} (h : Halts p ts)
    (hpq : p.rank ≤ q.rank) : Halts q ts := by
  unfold Halts at h ⊢
  split
  · intro r hr hqr
    exact h r hr (Nat.lt_of_le_of_lt hpq hqr)
  · trivial

/-- What is read off the front of some tokens. -/
inductive Phrase
  | operand (e : Expr)
  | expression (p : Precedence) (e : Expr)
  | operators (p : Precedence) (left e : Expr)
  | arguments (as : List Expr)
  | moreArguments (as : List Expr)
  | sentence (s : Stmt)
  | statements (inBlock : Bool) (ss : List Stmt)

/-- A phrase is read off the front of some tokens, and others are left. -/
inductive Reads : Phrase → List Token → List Token → Prop
  | name {x ts} : Reads (.operand (.name x)) (.name x :: ts) ts
  | int {digits n ts} : Decimal.read? digits = some n →
      Reads (.operand (.int n)) (.int digits :: ts) ts
  | true {ts} : Reads (.operand (.bool true)) (.keyword .trueKw :: ts) ts
  | false {ts} : Reads (.operand (.bool false)) (.keyword .falseKw :: ts) ts
  | unary {op e ts rest} : Reads (.expression .unary e) ts rest →
      Reads (.operand (.unary op e)) (.symbol op.symbol :: ts) rest
  | group {e ts rest} : Reads (.expression .lowest e) ts (.symbol .rightParen :: rest) →
      Reads (.operand e) (.symbol .leftParen :: ts) rest
  | ifThen {c body ts us rest} :
      Reads (.expression .lowest c) ts (.symbol .rightParen :: .symbol .leftBrace :: us) →
      Reads (.statements Bool.true body) us rest → rest.head? ≠ some (.keyword .elseKw) →
      Reads (.operand (.ifThen c body)) (.keyword .ifKw :: .symbol .leftParen :: ts) rest
  | ifElse {c body other ts us vs rest} :
      Reads (.expression .lowest c) ts (.symbol .rightParen :: .symbol .leftBrace :: us) →
      Reads (.statements Bool.true body) us (.keyword .elseKw :: .symbol .leftBrace :: vs) →
      Reads (.statements Bool.true other) vs rest →
      Reads (.operand (.ifElse c body other)) (.keyword .ifKw :: .symbol .leftParen :: ts) rest
  | function {xs body ts rest} : Reads (.statements Bool.true body) ts rest →
      Reads (.operand (.function xs body)) (.keyword .fnKw :: .symbol .leftParen ::
        (names xs ++ .symbol .rightParen :: .symbol .leftBrace :: ts)) rest
  | expression {p left e ts mid rest} : Reads (.operand left) ts mid →
      Reads (.operators p left e) mid rest → Reads (.expression p e) ts rest
  | halt {p e ts} : Halts p ts → Reads (.operators p e e) ts ts
  | call {p left as e ts mid rest} : p < .call → Reads (.arguments as) ts mid →
      Reads (.operators p (.call left as) e) mid rest →
      Reads (.operators p left e) (.symbol .leftParen :: ts) rest
  | binary {p left op right e ts mid rest} : p < op.precedence →
      Reads (.expression op.precedence right) ts mid →
      Reads (.operators p (.binary left op right) e) mid rest →
      Reads (.operators p left e) (.symbol op.symbol :: ts) rest
  | noArguments {rest} : Reads (.arguments []) (.symbol .rightParen :: rest) rest
  | arguments {a as ts mid rest} : Reads (.expression .lowest a) ts mid →
      Reads (.moreArguments as) mid rest → Reads (.arguments (a :: as)) ts rest
  | lastArgument {rest} : Reads (.moreArguments []) (.symbol .rightParen :: rest) rest
  | nextArgument {a as ts mid rest} : Reads (.expression .lowest a) ts mid →
      Reads (.moreArguments as) mid rest →
      Reads (.moreArguments (a :: as)) (.symbol .comma :: ts) rest
  | define {x e ts rest} : Reads (.expression .lowest e) ts rest →
      Reads (.sentence (.define x e)) (.keyword .letKw :: .name x :: .symbol .equal :: ts) rest
  | ret {e ts rest} : Reads (.expression .lowest e) ts rest →
      Reads (.sentence (.ret e)) (.keyword .returnKw :: ts) rest
  | retBare {ts} : endsReturn ts = Bool.true →
      Reads (.sentence .retBare) (.keyword .returnKw :: ts) ts
  | expr {e ts rest} : Reads (.expression .lowest e) ts rest → Reads (.sentence (.expr e)) ts rest
  | endOfInput {inBlock} : Reads (.statements inBlock []) [] []
  | endOfBlock {rest} : Reads (.statements Bool.true []) (.symbol .rightBrace :: rest) rest
  | statement {inBlock s ss ts mid rest} : Reads (.sentence s) ts mid →
      Reads (.statements inBlock ss) (Token.skip (.symbol .semicolon) mid) rest →
      Reads (.statements inBlock (s :: ss)) ts rest

theorem yields_expect {s : Symbol} {ts rest : List Token} {u : Unit} :
    (expect s ts).Yields (.ok u) rest ↔ ts = .symbol s :: rest := by
  cases ts with
  | nil => simp [expect]
  | cons t ts =>
    by_cases ht : t = .symbol s
    · rw [expect, if_pos ht, Step.yields_weaken, yields_done]
      simp [ht, eq_comm]
    · rw [expect, if_neg ht]
      simp [ht]

theorem expect_symbol (s : Symbol) (rest : List Token) :
    (expect s (.symbol s :: rest)).Yields (.ok ()) rest :=
  yields_expect.mpr rfl

theorem yields_expectName {x : String} {ts rest : List Token} :
    (expectName ts).Yields (.ok x) rest ↔ ts = .name x :: rest := by
  rcases ts with _ | ⟨_ | _ | y | _ | _, ts⟩
  case cons.name =>
    rw [expectName, Step.yields_weaken, yields_done]
    simp [eq_comm]
  all_goals simp [expectName]

theorem yields_moreParameters {xs : List String} {ts rest : List Token} :
    (moreParameters ts).Yields (.ok xs) rest ↔
      ts = (xs.flatMap fun y => [.symbol .comma, .name y]) ++ .symbol .rightParen :: rest := by
  unfold moreParameters
  split
  · rename_i ts
    simp only [Step.yields_weaken, yields_andThen, yields_expectName, Attempt.yields_map]
    constructor
    · rintro ⟨x, us, _, rfl, ys, h, rfl⟩
      simp [yields_moreParameters.mp h]
    · intro h
      cases xs with
      | nil => simp at h
      | cons x ys =>
        obtain rfl : ts = .name x :: _ := by simpa using h
        exact ⟨x, _, by simp, rfl, ys, yields_moreParameters.mpr rfl, rfl⟩
  · rename_i hc
    simp only [yields_andThen, yields_expect, yields_done]
    constructor
    · rintro ⟨_, us, _, rfl, rfl, rfl⟩
      rfl
    · rintro rfl
      cases xs with
      | nil => exact ⟨(), _, by simp, rfl, rfl, rfl⟩
      | cons x ys => exact (hc _ rfl).elim
termination_by xs.length

theorem yields_parameters {xs : List String} {ts rest : List Token} :
    (parameters ts).Yields (.ok xs) rest ↔ ts = names xs ++ .symbol .rightParen :: rest := by
  unfold parameters
  split
  · rw [Step.yields_weaken, yields_done]
    cases xs with
    | nil => simp [names, eq_comm]
    | cons x xs => simp [names_cons]
  · rename_i hc
    simp only [yields_andThen, yields_expectName, Attempt.yields_map]
    constructor
    · rintro ⟨x, us, _, rfl, ys, h, rfl⟩
      simp [names_cons, yields_moreParameters.mp h]
    · rintro rfl
      cases xs with
      | nil => exact (hc _ rfl).elim
      | cons x xs =>
        rw [names_cons]
        exact ⟨x, _, by simp, rfl, xs, yields_moreParameters.mpr rfl, rfl⟩

mutual
theorem reads_of_operand {t : Token} {ts rest : List Token} {e : Expr}
    (h : (operand t ts).Yields (.ok e) rest) : Reads (.operand e) (t :: ts) rest := by
  unfold operand at h
  split at h
  · obtain ⟨rfl, rfl⟩ := yields_done.mp h
    exact .name
  · split at h
    · rename_i hn
      obtain ⟨rfl, rfl⟩ := yields_done.mp h
      exact .int hn
    · exact (not_yields_fail h).elim
  · obtain ⟨rfl, rfl⟩ := yields_done.mp h
    exact .true
  · obtain ⟨rfl, rfl⟩ := yields_done.mp h
    exact .false
  · simp only [yields_andThen, yields_expect, Step.yields_kept] at h
    obtain ⟨_, us, hus, rfl, c, vs, hvs, hc, _, ws, hws, rfl, _, xs, hxs, rfl, body, ys, hys, hb, h⟩ := h
    have hbody : xs.length < us.length := Nat.lt_of_succ_lt hvs
    split at h
    · simp only [yields_andThen, yields_expect, Step.yields_kept, Attempt.yields_map, Step.yields_weaken] at h
      obtain ⟨_, zs, hzs, rfl, other, ho, rfl⟩ := h
      have hother : zs.length < xs.length := Nat.lt_of_succ_lt hys
      exact .ifElse (reads_of_expression hc) (reads_of_statements hb) (reads_of_statements ho)
    · rename_i hn
      obtain ⟨rfl, rfl⟩ := yields_done.mp h
      refine .ifThen (reads_of_expression hc) (reads_of_statements hb) ?_
      intro he
      obtain ⟨zs, rfl⟩ := List.head?_eq_some_iff.mp he
      exact hn zs hys rfl HEq.rfl
  · simp only [yields_andThen, yields_expect, yields_parameters, Step.yields_kept, Attempt.yields_map] at h
    obtain ⟨_, us, hus, rfl, xs, vs, hvs, rfl, _, ws, hws, rfl, body, hb, rfl⟩ := h
    exact .function (reads_of_statements hb)
  · simp only [yields_andThen, yields_expect, yields_done] at h
    obtain ⟨e, us, hus, he, _, vs, hvs, rfl, rfl, rfl⟩ := h
    exact .group (reads_of_expression he)
  · split at h
    · rename_i op hop
      obtain ⟨e, he, rfl⟩ := Attempt.yields_map.mp h
      rw [← PrefixOp.symbol_of_ofSymbol? hop]
      exact .unary (reads_of_expression he)
    · exact (not_yields_fail h).elim
  · exact (not_yields_fail h).elim
termination_by 4 * ts.length + 1
decreasing_by all_goals omega

theorem reads_of_expression {p : Precedence} {ts rest : List Token} {e : Expr}
    (h : (expression p ts).Yields (.ok e) rest) : Reads (.expression p e) ts rest := by
  unfold expression at h
  split at h
  · exact (not_yields_fail h).elim
  · rw [Step.yields_weaken] at h
    exact reads_of_expressionFrom h
termination_by 4 * ts.length

theorem reads_of_expressionFrom {p : Precedence} {t : Token} {ts rest : List Token} {e : Expr}
    (h : (expressionFrom p t ts).Yields (.ok e) rest) :
    Reads (.expression p e) (t :: ts) rest := by
  unfold expressionFrom at h
  obtain ⟨left, us, hus, hl, he⟩ := yields_andThen.mp h
  exact .expression (reads_of_operand hl) (reads_of_operators he)
termination_by 4 * ts.length + 2

theorem reads_of_operators {p : Precedence} {left e : Expr} {ts rest : List Token}
    (h : (operators p left ts).Yields (.ok e) rest) : Reads (.operators p left e) ts rest := by
  unfold operators at h
  split at h
  · rename_i s us
    split at h
    · rename_i hs
      subst hs
      split at h
      · rename_i hp
        simp only [Step.yields_weaken, yields_andThen] at h
        obtain ⟨as, mid, hm, ha, he⟩ := h
        exact .call hp (reads_of_arguments ha) (reads_of_operators he)
      · rename_i hp
        obtain ⟨rfl, rfl⟩ := yields_done.mp h
        exact .halt (halts_leftParen.mpr hp)
    · rename_i hs
      split at h
      · rename_i op hop
        obtain rfl := InfixOp.symbol_of_ofSymbol? hop
        split at h
        · rename_i hp
          simp only [Step.yields_weaken, yields_andThen] at h
          obtain ⟨right, mid, hm, hr, he⟩ := h
          exact .binary hp (reads_of_expression hr) (reads_of_operators he)
        · rename_i hp
          obtain ⟨rfl, rfl⟩ := yields_done.mp h
          exact .halt (halts_operator.mpr hp)
      · rename_i hop
        obtain ⟨rfl, rfl⟩ := yields_done.mp h
        exact .halt (by simp [Halts, binding?, hop])
  · rename_i hn
    obtain ⟨rfl, rfl⟩ := yields_done.mp h
    refine .halt ?_
    unfold Halts
    split
    · exact (hn _ _ rfl).elim
    · trivial
termination_by 4 * ts.length
decreasing_by all_goals (subst_eqs; simp only [List.length_cons]; omega)

theorem reads_of_arguments {ts rest : List Token} {as : List Expr}
    (h : (arguments ts).Yields (.ok as) rest) : Reads (.arguments as) ts rest := by
  unfold arguments at h
  split at h
  · rw [Step.yields_weaken, yields_done] at h
    obtain ⟨rfl, rfl⟩ := h
    exact .noArguments
  · simp only [yields_andThen, Attempt.yields_map] at h
    obtain ⟨a, mid, hm, ha, as, has, rfl⟩ := h
    exact .arguments (reads_of_expression ha) (reads_of_moreArguments has)
termination_by 4 * ts.length + 1
decreasing_by all_goals omega

theorem reads_of_moreArguments {ts rest : List Token} {as : List Expr}
    (h : (moreArguments ts).Yields (.ok as) rest) : Reads (.moreArguments as) ts rest := by
  unfold moreArguments at h
  split at h
  · simp only [Step.yields_weaken, yields_andThen, Attempt.yields_map] at h
    obtain ⟨a, mid, hm, ha, as, has, rfl⟩ := h
    exact .nextArgument (reads_of_expression ha) (reads_of_moreArguments has)
  · simp only [yields_andThen, yields_expect, yields_done] at h
    obtain ⟨_, mid, hm, rfl, rfl, rfl⟩ := h
    exact .lastArgument
termination_by 4 * ts.length
decreasing_by all_goals (subst_eqs; simp only [List.length_cons]; omega)

theorem reads_of_statement {t : Token} {ts rest : List Token} {s : Stmt}
    (h : (statement t ts).Yields (.ok s) rest) :
    ∃ mid, Reads (.sentence s) (t :: ts) mid ∧ rest = Token.skip (.symbol .semicolon) mid := by
  unfold statement at h
  split at h
  · obtain ⟨mid, hm, rfl⟩ := yields_skipping.mp h
    simp only [yields_andThen, yields_expectName, yields_expect, Attempt.yields_map] at hm
    obtain ⟨x, us, hus, rfl, _, vs, hvs, rfl, e, he, rfl⟩ := hm
    exact ⟨mid, .define (reads_of_expression he), rfl⟩
  · obtain ⟨mid, hm, rfl⟩ := yields_skipping.mp h
    split at hm
    · rename_i hr
      obtain ⟨rfl, rfl⟩ := yields_done.mp hm
      exact ⟨_, .retBare hr, rfl⟩
    · obtain ⟨e, he, rfl⟩ := Attempt.yields_map.mp hm
      exact ⟨mid, .ret (reads_of_expression he), rfl⟩
  · obtain ⟨mid, hm, rfl⟩ := yields_skipping.mp h
    obtain ⟨e, he, rfl⟩ := Attempt.yields_map.mp hm
    exact ⟨mid, .expr (reads_of_expressionFrom he), rfl⟩
termination_by 4 * ts.length + 3
decreasing_by all_goals omega

theorem reads_of_statements {inBlock : Bool} {ts rest : List Token} {ss : List Stmt}
    (h : (statements inBlock ts).Yields ss rest) : Reads (.statements inBlock ss) ts rest := by
  unfold statements at h
  split at h
  · obtain ⟨rfl, rfl, -⟩ := h
    exact .endOfInput
  · rename_i t us
    split at h
    · rename_i ht
      obtain ⟨rfl, rfl⟩ := ht
      obtain ⟨rfl, rfl, -⟩ := h
      exact .endOfBlock
    · split at h
      · rename_i s mid report hm hs
        simp only [Step.yields_weaken, Step.yields_after, Step.yields_map] at h
        obtain ⟨hd, ss, hss, rfl⟩ := h
        have hy : (statement t us).Yields (.ok s) mid := by rw [hs]; exact ⟨rfl, rfl, hd⟩
        obtain ⟨mid', h, rfl⟩ := reads_of_statement hy
        exact .statement h (reads_of_statements hss)
      · simp [Report.abandoned] at h
termination_by 4 * ts.length
decreasing_by all_goals (subst_eqs; simp only [List.length_cons]; omega)
end

/-- A token that an operand may start with. -/
def startsOperand : Token → Bool
  | .name _ | .int _ => Bool.true
  | .keyword .trueKw | .keyword .falseKw | .keyword .ifKw | .keyword .fnKw => Bool.true
  | .symbol s => s = .leftParen || (PrefixOp.ofSymbol? s).isSome
  | _ => Bool.false

theorem Reads.starts {e : Expr} {ts rest : List Token} (h : Reads (.operand e) ts rest) :
    ∃ t us, ts = t :: us ∧ startsOperand t = Bool.true := by
  cases h <;> exact ⟨_, _, rfl, by simp [startsOperand]⟩

theorem Reads.starts_expression {p : Precedence} {e : Expr} {ts rest : List Token}
    (h : Reads (.expression p e) ts rest) : ∃ t us, ts = t :: us ∧ startsOperand t = Bool.true := by
  cases h with
  | expression hl _ => exact hl.starts

/-- The reader succeeds with a phrase. -/
def Phrase.Succeeds : Phrase → List Token → List Token → Prop
  | operand e, ts, rest => ∃ t us, ts = t :: us ∧ (Grammar.operand t us).Yields (.ok e) rest
  | expression p e, ts, rest => (Grammar.expression p ts).Yields (.ok e) rest
  | operators p left e, ts, rest => (Grammar.operators p left ts).Yields (.ok e) rest
  | arguments as, ts, rest => (Grammar.arguments ts).Yields (.ok as) rest
  | moreArguments as, ts, rest => (Grammar.moreArguments ts).Yields (.ok as) rest
  | sentence s, ts, rest => ∃ t us, ts = t :: us ∧ t ≠ .symbol .rightBrace ∧
      (Grammar.statement t us).Yields (.ok s) (Token.skip (.symbol .semicolon) rest)
  | statements inBlock ss, ts, rest => (Grammar.statements inBlock ts).Yields ss rest

theorem succeeds_operators {p : Precedence} {e : Expr} {ts : List Token} (h : Halts p ts) :
    (operators p e ts).Yields (.ok e) ts := by
  have hd : (done e ts).Yields (.ok e) ts := yields_done.mpr ⟨rfl, rfl⟩
  unfold operators
  split
  · rename_i s us
    split
    · rename_i hs
      subst hs
      rw [if_neg (h _ rfl)]
      exact hd
    · split
      · rename_i op hop
        rw [if_neg (h _ (by simp [binding?, hop]))]
        exact hd
      · exact hd
  · exact hd

theorem Reads.succeeds {φ : Phrase} {ts rest : List Token} (h : Reads φ ts rest) :
    φ.Succeeds ts rest := by
  induction h with
  | name => exact ⟨_, _, rfl, by simp [operand]⟩
  | int hn => exact ⟨_, _, rfl, by simp [operand, hn]⟩
  | true => exact ⟨_, _, rfl, by simp [operand]⟩
  | false => exact ⟨_, _, rfl, by simp [operand]⟩
  | @unary op e ts rest _ ih =>
    refine ⟨_, _, rfl, ?_⟩
    have hs : op.symbol ≠ .leftParen := by cases op <;> decide
    rw [operand]
    · simp only [PrefixOp.ofSymbol?_symbol]
      exact Attempt.yields_map.mpr ⟨e, ih, rfl⟩
    · simp [hs]
  | group _ ih =>
    refine ⟨_, _, rfl, ?_⟩
    rw [operand]
    exact Yields.andThen ih (Yields.andThen (expect_symbol _ _) (yields_done.mpr ⟨rfl, rfl⟩))
  | ifThen _ _ hn ihc ihb =>
    refine ⟨_, _, rfl, ?_⟩
    rw [operand]
    refine Yields.andThen (expect_symbol _ _) (Yields.andThen ihc ?_)
    refine Yields.andThen (expect_symbol _ _) (Yields.andThen (expect_symbol _ _) ?_)
    refine Yields.andThen (Step.yields_kept.mpr ihb) ?_
    split
    · exact (hn rfl).elim
    · exact yields_done.mpr ⟨rfl, rfl⟩
  | ifElse _ _ _ ihc ihb iho =>
    refine ⟨_, _, rfl, ?_⟩
    rw [operand]
    refine Yields.andThen (expect_symbol _ _) (Yields.andThen ihc ?_)
    refine Yields.andThen (expect_symbol _ _) (Yields.andThen (expect_symbol _ _) ?_)
    refine Yields.andThen (Step.yields_kept.mpr ihb) ?_
    rw [Step.yields_weaken]
    refine Yields.andThen (expect_symbol _ _) ?_
    exact Attempt.yields_map.mpr ⟨_, Step.yields_kept.mpr iho, rfl⟩
  | function _ ih =>
    refine ⟨_, _, rfl, ?_⟩
    rw [operand]
    refine Yields.andThen (expect_symbol _ _) ?_
    refine Yields.andThen (yields_parameters.mpr rfl) ?_
    refine Yields.andThen (expect_symbol _ _) ?_
    exact Attempt.yields_map.mpr ⟨_, Step.yields_kept.mpr ih, rfl⟩
  | expression _ _ ihl ihe =>
    obtain ⟨t, us, rfl, hl⟩ := ihl
    change (Grammar.expression _ (t :: us)).Yields _ _
    rw [Grammar.expression, Step.yields_weaken, expressionFrom]
    exact Yields.andThen hl ihe
  | halt hp => exact succeeds_operators hp
  | call hp _ _ iha ihe =>
    change (operators _ _ (_ :: _)).Yields _ _
    rw [operators, if_pos rfl, if_pos hp]
    exact Yields.andThen iha ihe
  | @binary p left op right e ts mid rest hp _ _ ihr ihe =>
    have hs : op.symbol ≠ .leftParen := by cases op <;> decide
    change (operators _ _ (_ :: _)).Yields _ _
    rw [operators, if_neg hs]
    simp only [InfixOp.ofSymbol?_symbol, if_pos hp, Step.yields_weaken]
    exact Yields.andThen ihr ihe
  | noArguments =>
    change (Grammar.arguments (_ :: _)).Yields _ _
    rw [Grammar.arguments, Step.yields_weaken]
    exact yields_done.mpr ⟨rfl, rfl⟩
  | arguments ha _ iha ihas =>
    obtain ⟨t, us, rfl, ht⟩ := ha.starts_expression
    change (Grammar.arguments (_ :: _)).Yields _ _
    rw [Grammar.arguments]
    · exact Yields.andThen iha (Attempt.yields_map.mpr ⟨_, ihas, rfl⟩)
    · rintro us' he
      cases he
      simp [startsOperand, PrefixOp.ofSymbol?] at ht
  | lastArgument =>
    change (Grammar.moreArguments (_ :: _)).Yields _ _
    rw [Grammar.moreArguments]
    · exact Yields.andThen (expect_symbol _ _) (yields_done.mpr ⟨rfl, rfl⟩)
    · simp
  | nextArgument _ _ iha ihas =>
    change (Grammar.moreArguments (_ :: _)).Yields _ _
    rw [Grammar.moreArguments, Step.yields_weaken]
    exact Yields.andThen iha (Attempt.yields_map.mpr ⟨_, ihas, rfl⟩)
  | define _ ih =>
    refine ⟨_, _, rfl, by simp, ?_⟩
    rw [Grammar.statement]
    refine yields_skipping.mpr ⟨_, ?_, rfl⟩
    refine Yields.andThen (yields_expectName.mpr rfl) ?_
    refine Yields.andThen (expect_symbol _ _) ?_
    exact Attempt.yields_map.mpr ⟨_, ih, rfl⟩
  | ret he ih =>
    obtain ⟨t, us, rfl, ht⟩ := he.starts_expression
    refine ⟨_, _, rfl, by simp, ?_⟩
    rw [Grammar.statement]
    refine yields_skipping.mpr ⟨_, ?_, rfl⟩
    have hr : endsReturn (t :: us) ≠ Bool.true := by
      rintro hr
      simp only [endsReturn, Bool.or_eq_true, decide_eq_true_eq] at hr
      rcases hr with rfl | rfl <;> simp [startsOperand, PrefixOp.ofSymbol?] at ht
    rw [if_neg hr]
    exact Attempt.yields_map.mpr ⟨_, ih, rfl⟩
  | retBare hr =>
    refine ⟨_, _, rfl, by simp, ?_⟩
    rw [Grammar.statement]
    refine yields_skipping.mpr ⟨_, ?_, rfl⟩
    rw [if_pos hr]
    exact yields_done.mpr ⟨rfl, rfl⟩
  | expr he ih =>
    obtain ⟨t, us, rfl, ht⟩ := he.starts_expression
    refine ⟨_, _, rfl, ?_, ?_⟩
    · rintro rfl
      simp [startsOperand, PrefixOp.ofSymbol?] at ht
    rw [Grammar.statement]
    · refine yields_skipping.mpr ⟨_, ?_, rfl⟩
      refine Attempt.yields_map.mpr ⟨_, ?_, rfl⟩
      change (Grammar.expression _ (_ :: _)).Yields _ _ at ih
      rwa [Grammar.expression, Step.yields_weaken] at ih
    · rintro rfl
      simp [startsOperand] at ht
    · rintro rfl
      simp [startsOperand] at ht
  | endOfInput =>
    change (Grammar.statements _ []).Yields _ _
    rw [Grammar.statements]
    refine ⟨rfl, rfl, ?_⟩
    split <;> rfl
  | endOfBlock =>
    change (Grammar.statements _ (_ :: _)).Yields _ _
    rw [Grammar.statements, if_pos ⟨rfl, rfl⟩]
    exact ⟨rfl, rfl, rfl⟩
  | statement _ _ ihs ihss =>
    obtain ⟨t, us, rfl, ht, hs⟩ := ihs
    change (Grammar.statements _ (_ :: _)).Yields _ _
    rw [Grammar.statements, if_neg (by simp [ht])]
    obtain ⟨hv, hr, hd⟩ := hs
    split
    · rename_i s' mid report hm he
      simp only [he, Except.ok.injEq] at hv hr hd
      subst hv hr
      simp only [Step.yields_weaken, Step.yields_after, Step.yields_map]
      exact ⟨hd, _, ihss, rfl⟩
    · rename_i d mid report hm he
      simp [he] at hv

theorem Reads.length_le {φ : Phrase} {ts rest : List Token} (h : Reads φ ts rest) :
    rest.length ≤ ts.length := by
  induction h with
  | @statement _ _ _ _ mid _ _ _ ihs ihss =>
    have hk := Token.length_skip_le (.symbol .semicolon) mid
    omega
  | _ => grind

theorem Reads.length_lt {e : Expr} {ts rest : List Token} (h : Reads (.operand e) ts rest) :
    rest.length < ts.length := by
  obtain ⟨t, us, rfl, hy⟩ := h.succeeds
  exact Nat.lt_succ_of_le hy.rest_le

/-- A program is read to the end. -/
theorem Reads.rest_eq_nil {ss : List Stmt} {ts rest : List Token}
    (h : Reads (.statements Bool.false ss) ts rest) : rest = [] := by
  generalize hφ : Phrase.statements Bool.false ss = φ at h
  induction h generalizing ss with
  | endOfInput => rfl
  | statement hs hss ihs ihss =>
    cases hφ
    exact ihss rfl
  | _ => cases hφ

end Grammar

namespace Reading
open Grammar

theorem errors_eq_nil_iff {ts : List Token} {p : Program} :
    (ofTokens ts).errors = [] ∧ (ofTokens ts).program = p ↔
      Reads (.statements Bool.false p) ts [] := by
  constructor
  · rintro ⟨he, rfl⟩
    have hy : (statements Bool.false ts).Yields (ofTokens ts).program (statements Bool.false ts).rest :=
      ⟨rfl, rfl, List.map_eq_nil_iff.mp he⟩
    have h := reads_of_statements hy
    rwa [h.rest_eq_nil] at h
  · intro h
    obtain ⟨hv, hr, hd⟩ := h.succeeds
    exact ⟨List.map_eq_nil_iff.mpr hd, hv⟩

end Reading

theorem Program.ofText?_eq_ok_iff {source : String} {p : Program} :
    ofText? source = .ok p ↔ Grammar.Reads (.statements Bool.false p) (Token.scan source) [] := by
  rw [← Reading.errors_eq_nil_iff, ofText?, Reading.ofText]
  by_cases h : (Reading.ofTokens (Token.scan source)).errors = []
  · simp [h]
  · simp [h]

end MonkeyLang
