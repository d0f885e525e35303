import MonkeyLang.Proofs.Decimal
import MonkeyLang.Proofs.Grammar.Reads

/-! The grammar of the language, which leaves open how a text is grouped: it says which token
sequences are programs, not which trees they stand for. Whatever is read is derivable. -/
namespace MonkeyLang
namespace Grammar

/-- The symbols that stand between two operands. -/
def infixSymbols : List Symbol :=
  [.plus, .minus, .star, .slash, .equalEqual, .bangEqual, .less, .greater]

theorem mem_infixSymbols {s : Symbol} : s ∈ infixSymbols ↔ ∃ op : InfixOp, s = op.symbol := by
  constructor
  · intro h
    have hs : (InfixOp.ofSymbol? s).isSome = Bool.true := by
      revert h
      cases s <;> decide
    obtain ⟨op, hop⟩ := Option.isSome_iff_exists.mp hs
    exact ⟨op, (InfixOp.symbol_of_ofSymbol? hop).symm⟩
  · rintro ⟨op, rfl⟩
    cases op <;> decide

theorem prefixSymbol_iff {s : Symbol} : s = .bang ∨ s = .minus ↔ ∃ op : PrefixOp, s = op.symbol := by
  constructor
  · rintro (rfl | rfl)
    · exact ⟨.not, rfl⟩
    · exact ⟨.negate, rfl⟩
  · rintro ⟨op, rfl⟩
    cases op
    · exact .inr rfl
    · exact .inl rfl

inductive Category
  | statements | statement | sentence | block | expression | expressions | names

/-- `Derives c ts rest`: the tokens of `ts` in front of `rest` form a `c`. The rest is part of the
relation because two rules depend on it. A block may lack its brace at the end of the input, and
a `return` has no value only in front of a semicolon, a closing brace or the end. -/
inductive Derives : Category → List Token → List Token → Prop
  | nil {ts} : Derives .statements ts ts
  | cons {ts us rest} : Derives .statement ts us → Derives .statements us rest →
      Derives .statements ts rest
  | plain {ts rest} : Derives .sentence ts rest → Derives .statement ts rest
  | semicolon {ts rest} : Derives .sentence ts (.symbol .semicolon :: rest) →
      Derives .statement ts rest
  | define {x ts rest} : Derives .expression ts rest →
      Derives .sentence (.keyword .letKw :: .name x :: .symbol .equal :: ts) rest
  | ret {ts rest} : Derives .expression ts rest → Derives .sentence (.keyword .returnKw :: ts) rest
  | retBare {rest} :
      rest = [] ∨ (∃ us, rest = .symbol .semicolon :: us) ∨ (∃ us, rest = .symbol .rightBrace :: us) →
      Derives .sentence (.keyword .returnKw :: rest) rest
  | expr {ts rest} : Derives .expression ts rest → Derives .sentence ts rest
  | closedBlock {ts rest} : Derives .statements ts (.symbol .rightBrace :: rest) →
      Derives .block (.symbol .leftBrace :: ts) rest
  | openBlock {ts} : Derives .statements ts [] → Derives .block (.symbol .leftBrace :: ts) []
  | name {x rest} : Derives .expression (.name x :: rest) rest
  | int {digits rest} : Nat.ofDigitChars 10 digits.toList 0 ≤ 9223372036854775807 →
      Derives .expression (.int digits :: rest) rest
  | true {rest} : Derives .expression (.keyword .trueKw :: rest) rest
  | false {rest} : Derives .expression (.keyword .falseKw :: rest) rest
  | unary {s ts rest} : s = .bang ∨ s = .minus → Derives .expression ts rest →
      Derives .expression (.symbol s :: ts) rest
  | binary {s ts us rest} : s ∈ infixSymbols → Derives .expression ts (.symbol s :: us) →
      Derives .expression us rest → Derives .expression ts rest
  | group {ts rest} : Derives .expression ts (.symbol .rightParen :: rest) →
      Derives .expression (.symbol .leftParen :: ts) rest
  | callEmpty {ts rest} :
      Derives .expression ts (.symbol .leftParen :: .symbol .rightParen :: rest) →
      Derives .expression ts rest
  | call {ts us rest} : Derives .expression ts (.symbol .leftParen :: us) →
      Derives .expressions us (.symbol .rightParen :: rest) → Derives .expression ts rest
  | ifThen {ts us rest} : Derives .expression ts (.symbol .rightParen :: us) →
      Derives .block us rest →
      Derives .expression (.keyword .ifKw :: .symbol .leftParen :: ts) rest
  | ifElse {ts us vs rest} : Derives .expression ts (.symbol .rightParen :: us) →
      Derives .block us (.keyword .elseKw :: vs) → Derives .block vs rest →
      Derives .expression (.keyword .ifKw :: .symbol .leftParen :: ts) rest
  | functionEmpty {ts rest} : Derives .block ts rest →
      Derives .expression (.keyword .fnKw :: .symbol .leftParen :: .symbol .rightParen :: ts) rest
  | function {ts us rest} : Derives .names ts (.symbol .rightParen :: us) →
      Derives .block us rest →
      Derives .expression (.keyword .fnKw :: .symbol .leftParen :: ts) rest
  | lastExpression {ts rest} : Derives .expression ts rest → Derives .expressions ts rest
  | nextExpression {ts us rest} : Derives .expression ts (.symbol .comma :: us) →
      Derives .expressions us rest → Derives .expressions ts rest
  | lastName {x rest} : Derives .names (.name x :: rest) rest
  | nextName {x ts rest} : Derives .names ts rest →
      Derives .names (.name x :: .symbol .comma :: ts) rest

/-- What a phrase derives. The rest of an operator chain or an argument list is a phrase that
completes whatever expression stands in front of it. -/
def Phrase.Derived : Phrase → List Token → List Token → Prop
  | operand _, ts, rest | expression _ _, ts, rest => Derives .expression ts rest
  | operators _ _ _, ts, rest => ∀ us, Derives .expression us ts → Derives .expression us rest
  | arguments _, ts, rest => ∀ us, Derives .expression us (.symbol .leftParen :: ts) →
      Derives .expression us rest
  | moreArguments _, ts, rest => ∀ us, Derives .expression us ts →
      Derives .expressions us (.symbol .rightParen :: rest)
  | sentence _, ts, rest => Derives .sentence ts rest
  | statements inBlock _, ts, rest => ∃ mid, Derives .statements ts mid ∧
      (mid = [] ∧ rest = [] ∨ inBlock = Bool.true ∧ mid = .symbol .rightBrace :: rest)

theorem derives_names (x : String) (xs : List String) (rest : List Token) :
    Derives .names (Grammar.names (x :: xs) ++ rest) rest := by
  induction xs generalizing x with
  | nil => exact .lastName
  | cons y xs ih => exact .nextName (ih y)

theorem Phrase.Derived.block {ss : List Stmt} {ts rest : List Token}
    (h : (Phrase.statements Bool.true ss).Derived ts rest) :
    Derives .block (.symbol .leftBrace :: ts) rest := by
  obtain ⟨mid, hs, ⟨rfl, rfl⟩ | ⟨-, rfl⟩⟩ := h
  · exact .openBlock hs
  · exact .closedBlock hs

/-- Every phrase that is read is derivable. -/
theorem Reads.derived {φ : Phrase} {ts rest : List Token} (h : Reads φ ts rest) :
    φ.Derived ts rest := by
  induction h with
  | name => exact .name
  | int hn => exact .int (Decimal.read?_eq_some_iff.mp hn).1
  | true => exact .true
  | false => exact .false
  | unary _ ih => exact .unary (prefixSymbol_iff.mpr ⟨_, rfl⟩) ih
  | group _ ih => exact .group ih
  | ifThen _ _ _ ihc ihb => exact .ifThen ihc (Phrase.Derived.block ihb)
  | ifElse _ _ _ ihc ihb iho =>
    exact .ifElse ihc (Phrase.Derived.block ihb) (Phrase.Derived.block iho)
  | @function xs _ _ _ _ ih =>
    cases xs with
    | nil => exact .functionEmpty (Phrase.Derived.block ih)
    | cons x xs => exact .function (derives_names x xs _) (Phrase.Derived.block ih)
  | expression _ _ ihl ihe => exact ihe _ ihl
  | halt _ => exact fun us h => h
  | call _ _ _ iha ihe => exact fun us h => ihe us (iha us h)
  | binary _ _ _ ihr ihe => exact fun us h => ihe us (.binary (mem_infixSymbols.mpr ⟨_, rfl⟩) h ihr)
  | noArguments => exact fun us h => .callEmpty h
  | arguments _ _ iha ihas => exact fun us h => .call h (ihas _ iha)
  | lastArgument => exact fun us h => .lastExpression h
  | nextArgument _ _ iha ihas => exact fun us h => .nextExpression h (ihas _ iha)
  | define _ ih => exact .define ih
  | ret _ ih => exact .ret ih
  | retBare hr =>
    refine .retBare ?_
    unfold endsReturn at hr
    split at hr
    · exact .inl rfl
    · simp only [Bool.or_eq_true, decide_eq_true_eq] at hr
      rcases hr with rfl | rfl
      · exact .inr (.inl ⟨_, rfl⟩)
      · exact .inr (.inr ⟨_, rfl⟩)
  | expr _ ih => exact .expr ih
  | endOfInput => exact ⟨[], .nil, .inl ⟨rfl, rfl⟩⟩
  | endOfBlock => exact ⟨_, .nil, .inr ⟨rfl, rfl⟩⟩
  | @statement _ _ _ _ mid _ _ _ ihs ihss =>
    obtain ⟨us, hus, he⟩ := ihss
    refine ⟨us, .cons ?_ hus, he⟩
    unfold Token.skip
    split
    · exact .plain ihs
    · split
      · rename_i hc
        subst hc
        exact .semicolon ihs
      · exact .plain ihs

end Grammar
end MonkeyLang
