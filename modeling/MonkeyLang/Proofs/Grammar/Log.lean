import MonkeyLang.Proofs.Grammar.Success
import MonkeyLang.Grammar.Reading

/-! Reading with a log. An error is written down at the place where it is met, whatever becomes of
it, and each statement that is given up is counted apart from the errors. This is reading with a
report, in which the errors inside a statement come before the one that ended it. -/
namespace MonkeyLang

/-- What has been written down so far, and how many statements have been given up. -/
structure Log where
  diagnostics : List Diagnostic
  abandoned : Nat

namespace Log

def empty : Log := ⟨[], 0⟩

def record (l : Log) (d : Diagnostic) : Log := { l with diagnostics := l.diagnostics ++ [d] }

def abandon (l : Log) : Log := { l with abandoned := l.abandoned + 1 }

/-- The log after a report: each diagnostic in it stands for a statement that was given up. -/
def extend (l : Log) (r : Report) : Log :=
  ⟨l.diagnostics ++ r.diagnostics, l.abandoned + r.diagnostics.length⟩

@[simp] theorem extend_empty (l : Log) : l.extend .empty = l := by
  simp [extend]

@[simp] theorem extend_cut (l : Log) : l.extend .cut = l := by
  simp [extend, Report.cut]

@[simp] theorem extend_append (l : Log) (a b : Report) :
    l.extend (a ++ b) = (l.extend a).extend b := by
  simp [extend, Nat.add_assoc]

@[simp] theorem extend_abandoned (l : Log) (d : Diagnostic) :
    l.extend (.abandoned d) = (l.record d).abandon := rfl

end Log

/-- The result of a step, the tokens after it, and the log after it. -/
structure Logged (α : Type) (bound : Nat) where
  value : α
  rest : List Token
  log : Log
  rest_le : rest.length ≤ bound

namespace Token
variable {t : Token} {ts : List Token} {n : Nat}

theorem length_le_self (ts : List Token) : ts.length ≤ ts.length := Nat.le_refl _

theorem length_le_cons (t : Token) (ts : List Token) : ts.length ≤ (t :: ts).length :=
  Nat.le_succ _

theorem length_le_of_cons (h : (t :: ts).length ≤ n) : ts.length ≤ n :=
  Nat.le_of_succ_le h

end Token

namespace Logged
open Token
variable {α β : Type} {m n : Nat}

def weaken (s : Logged α m) (h : m ≤ n) : Logged α n :=
  { s with rest_le := Nat.le_trans s.rest_le h }

/-- A step behind a token that has been taken. -/
def behind (t : Token) {ts : List Token} (s : Logged α ts.length) : Logged α (t :: ts).length :=
  s.weaken (length_le_cons t ts)

def map (f : α → β) (s : Logged α n) : Logged β n := { s with value := f s.value }

/-- Gives a value without reading. -/
def done (a : α) (ts : List Token) (log : Log) : Logged (Option α) ts.length :=
  ⟨some a, ts, log, length_le_self ts⟩

/-- Writes down an error and gives nothing. -/
def fail (e : SyntaxError) (unread : Nat) (ts : List Token) (log : Log) :
    Logged (Option α) ts.length :=
  ⟨none, ts, log.record ⟨e, unread⟩, length_le_self ts⟩

/-- Reads no more statements. -/
def stop (ts : List Token) (log : Log) : Logged (List Stmt) ts.length :=
  ⟨[], ts, log, length_le_self ts⟩

/-- Goes on with a value; nothing is passed on as it is. -/
def andThen (s : Logged (Option α) n)
    (f : α → (rest : List Token) → rest.length ≤ n → Log → Logged (Option β) rest.length) :
    Logged (Option β) n :=
  match s with
  | ⟨some a, rest, log, h⟩ => (f a rest h log).weaken h
  | ⟨none, rest, log, h⟩ => ⟨none, rest, log, h⟩

/-- Skips one optional token after a value. -/
def skipping (t : Token) (s : Logged (Option α) n) : Logged (Option α) n :=
  match s with
  | ⟨some a, u :: rest, log, h⟩ =>
    if u = t then ⟨some a, rest, log, length_le_of_cons h⟩ else ⟨some a, u :: rest, log, h⟩
  | s => s

def expect (s : Symbol) (ts : List Token) (log : Log) : Logged (Option Unit) ts.length :=
  match ts with
  | [] => fail (.expected (.symbol s) .endOfInput) 0 [] log
  | t :: ts =>
    if t = .symbol s then (done () ts log).behind _
    else fail (.expected (.symbol s) t.kind) (ts.length + 1) (t :: ts) log

def expectName (ts : List Token) (log : Log) : Logged (Option String) ts.length :=
  match ts with
  | [] => fail (.expected .name .endOfInput) 0 [] log
  | .name x :: ts => (done x ts log).behind _
  | t :: ts => fail (.expected .name t.kind) (ts.length + 1) (t :: ts) log

def moreParameters (ts : List Token) (log : Log) : Logged (Option (List String)) ts.length :=
  match ts with
  | .symbol .comma :: ts =>
    ((expectName ts log).andThen fun x rest _ log =>
      (moreParameters rest log).map (·.map (x :: ·))).behind _
  | ts => (expect .rightParen ts log).andThen fun _ rest _ log => done [] rest log
termination_by ts.length

def parameters (ts : List Token) (log : Log) : Logged (Option (List String)) ts.length :=
  match ts with
  | .symbol .rightParen :: ts => (done [] ts log).behind _
  | ts => (expectName ts log).andThen fun x rest _ log =>
      (moreParameters rest log).map (·.map (x :: ·))

mutual
def operand (t : Token) (ts : List Token) (log : Log) : Logged (Option Expr) ts.length :=
  match t with
  | .name x => done (.name x) ts log
  | .int digits =>
    match Decimal.read? digits with
    | some n => done (.int n) ts log
    | none => fail (.tooLarge digits) (ts.length + 1) ts log
  | .keyword .trueKw => done (.bool true) ts log
  | .keyword .falseKw => done (.bool false) ts log
  | .keyword .ifKw =>
    (expect .leftParen ts log).andThen fun _ ts _ log =>
    (expression .lowest ts log).andThen fun c ts _ log =>
    (expect .rightParen ts log).andThen fun _ ts _ log =>
    (expect .leftBrace ts log).andThen fun _ ts _ log =>
    ((statements true ts log).map some).andThen fun body ts _ log =>
    match ts with
    | .keyword .elseKw :: ts =>
      ((expect .leftBrace ts log).andThen fun _ ts _ log =>
        (statements true ts log).map fun other => some (.ifElse c body other)).behind _
    | ts => done (.ifThen c body) ts log
  | .keyword .fnKw =>
    (expect .leftParen ts log).andThen fun _ ts _ log =>
    (parameters ts log).andThen fun xs ts _ log =>
    (expect .leftBrace ts log).andThen fun _ ts _ log =>
    (statements true ts log).map fun body => some (.function xs body)
  | .symbol .leftParen =>
    (expression .lowest ts log).andThen fun e ts _ log =>
    (expect .rightParen ts log).andThen fun _ ts _ log => done e ts log
  | .symbol s =>
    match PrefixOp.ofSymbol? s with
    | some op => (expression .unary ts log).map (·.map (.unary op))
    | none => fail (.noOperand (.symbol s)) (ts.length + 1) ts log
  | t => fail (.noOperand t.kind) (ts.length + 1) ts log
termination_by 4 * ts.length + 1
decreasing_by all_goals grind

def expression (p : Precedence) (ts : List Token) (log : Log) : Logged (Option Expr) ts.length :=
  match ts with
  | [] => fail (.noOperand .endOfInput) 0 [] log
  | t :: ts => (expressionFrom p t ts log).behind _
termination_by 4 * ts.length

def expressionFrom (p : Precedence) (t : Token) (ts : List Token) (log : Log) :
    Logged (Option Expr) ts.length :=
  (operand t ts log).andThen fun left ts _ log => operators p left ts log
termination_by 4 * ts.length + 2

def operators (p : Precedence) (left : Expr) (ts : List Token) (log : Log) :
    Logged (Option Expr) ts.length :=
  match ts with
  | .symbol s :: ts =>
    if s = .leftParen then
      if p < .call then
        ((arguments ts log).andThen fun as ts _ log =>
          operators p (.call left as) ts log).behind _
      else done left (.symbol s :: ts) log
    else
      match InfixOp.ofSymbol? s with
      | some op =>
        if p < op.precedence then
          ((expression op.precedence ts log).andThen fun right ts _ log =>
            operators p (.binary left op right) ts log).behind _
        else done left (.symbol s :: ts) log
      | none => done left (.symbol s :: ts) log
  | ts => done left ts log
termination_by 4 * ts.length

def arguments (ts : List Token) (log : Log) : Logged (Option (List Expr)) ts.length :=
  match ts with
  | .symbol .rightParen :: ts => (done [] ts log).behind _
  | ts => (expression .lowest ts log).andThen fun a ts _ log =>
      (moreArguments ts log).map (·.map (a :: ·))
termination_by 4 * ts.length + 1

def moreArguments (ts : List Token) (log : Log) : Logged (Option (List Expr)) ts.length :=
  match ts with
  | .symbol .comma :: ts =>
    ((expression .lowest ts log).andThen fun a ts _ log =>
      (moreArguments ts log).map (·.map (a :: ·))).behind _
  | ts => (expect .rightParen ts log).andThen fun _ ts _ log => done [] ts log
termination_by 4 * ts.length

/-- Reads a statement, or gives nothing. -/
def statement (t : Token) (ts : List Token) (log : Log) : Logged (Option Stmt) ts.length :=
  match t with
  | .keyword .letKw =>
    skipping (.symbol .semicolon) <|
    (expectName ts log).andThen fun x ts _ log =>
    (expect .equal ts log).andThen fun _ ts _ log =>
    (expression .lowest ts log).map (·.map (.define x))
  | .keyword .returnKw =>
    skipping (.symbol .semicolon) <|
    if Grammar.endsReturn ts then done .retBare ts log
    else (expression .lowest ts log).map (·.map .ret)
  | t => skipping (.symbol .semicolon) <| (expressionFrom .lowest t ts log).map (·.map .expr)
termination_by 4 * ts.length + 3

/-- Reads statements, and counts those for which `statement` gives nothing. -/
def statements (inBlock : Bool) (ts : List Token) (log : Log) : Logged (List Stmt) ts.length :=
  match ts with
  | [] => stop [] log
  | t :: ts =>
    if inBlock ∧ t = .symbol .rightBrace then (stop ts log).behind t
    else
      match statement t ts log with
      | ⟨some s, rest, log, h⟩ =>
        (((statements inBlock rest log).map (s :: ·)).weaken h).behind t
      | ⟨none, rest, log, h⟩ => ((statements inBlock rest log.abandon).weaken h).behind t
termination_by 4 * ts.length
end

end Logged

/-- A step without failure, with the log after it. -/
def Step.logged {α : Type} {n : Nat} (s : Step α n) (log : Log) : Logged α n :=
  ⟨s.value, s.rest, log.extend s.report, s.rest_le⟩

/-- An attempt with the log after it. The error that ended it has been written down, but no
statement has been given up for it yet. -/
def Attempt.logged {α : Type} {n : Nat} (s : Attempt α n) (log : Log) : Logged (Option α) n :=
  match s with
  | ⟨.ok a, rest, report, h⟩ => ⟨some a, rest, log.extend report, h⟩
  | ⟨.error d, rest, report, h⟩ => ⟨none, rest, (log.extend report).record d, h⟩

namespace Logged
variable {α β : Type} {m n : Nat} {ts : List Token} {log : Log}

theorem done_eq (a : α) (ts : List Token) (log : Log) :
    done a ts log = (Attempt.done a ts).logged log := by
  rw [Attempt.done, Attempt.logged, Log.extend_empty, done]

theorem fail_eq (e : SyntaxError) (k : Nat) (ts : List Token) (log : Log) :
    fail e k ts log = (Attempt.fail e k ts : Attempt α ts.length).logged log := by
  rw [Attempt.fail, Attempt.logged, Log.extend_empty, fail]

section
variable {s : Attempt α n} {r : Logged (Option α) n} (h : r = s.logged log)
include h

theorem weaken_eq {hnm : n ≤ m} : r.weaken hnm = Attempt.logged (Step.weaken s hnm) log := by
  rw [h]
  obtain ⟨_ | a, rest, report, hle⟩ := s <;> rfl

theorem map_eq (f : α → β) : r.map (·.map f) = (s.map f).logged log := by
  rw [h]
  obtain ⟨_ | a, rest, report, hle⟩ := s <;> rfl

theorem andThen_eq {f : α → (rest : List Token) → rest.length ≤ n → Attempt β rest.length}
    {g : α → (rest : List Token) → rest.length ≤ n → Log → Logged (Option β) rest.length}
    (hfg : ∀ a rest hle log, g a rest hle log = (f a rest hle).logged log) :
    r.andThen g = (s.andThen f).logged log := by
  rw [h]
  obtain ⟨_ | a, rest, report, hle⟩ := s
  · rfl
  · rw [Attempt.logged, andThen, hfg, Attempt.andThen]
    obtain ⟨_ | b, rest', report', hle'⟩ := f a rest hle
    · simp only [Step.weaken, Step.after, weaken, Attempt.logged, Log.extend_append]
    · simp only [Step.weaken, Step.after, weaken, Attempt.logged, Log.extend_append]

theorem skipping_eq (t : Token) : r.skipping t = (Attempt.skipping t s).logged log := by
  rw [h]
  obtain ⟨_ | a, _ | ⟨u, rest⟩, report, hle⟩ := s
  case ok.cons =>
    by_cases hu : u = t
    · simp [Attempt.skipping, hu, Attempt.logged, skipping]
    · simp [Attempt.skipping, hu, Attempt.logged, skipping]
  all_goals rfl

end

theorem kept_eq {s : Step α n} {r : Logged α n} (h : r = s.logged log) :
    r.map some = s.kept.logged log := by
  rw [h]
  rfl

theorem kept_map_eq {s : Step α n} {r : Logged α n} (h : r = s.logged log) (f : α → β) :
    r.map (fun a => some (f a)) = (s.kept.map f).logged log :=
  map_eq (kept_eq h) f

theorem expect_eq (s : Symbol) (ts : List Token) (log : Log) :
    expect s ts log = (Grammar.expect s ts).logged log := by
  cases ts with
  | nil => exact fail_eq _ _ _ log
  | cons t ts =>
    rw [expect, Grammar.expect]
    split
    · exact weaken_eq (done_eq () ts log)
    · exact fail_eq _ _ _ log

theorem expectName_eq (ts : List Token) (log : Log) :
    expectName ts log = (Grammar.expectName ts).logged log := by
  cases ts with
  | nil => exact fail_eq _ _ _ log
  | cons t ts =>
    cases t with
    | name x =>
      rw [expectName, Grammar.expectName]
      exact weaken_eq (done_eq x ts log)
    | _ => exact fail_eq _ _ _ log

theorem moreParameters_eq (ts : List Token) (log : Log) :
    moreParameters ts log = (Grammar.moreParameters ts).logged log := by
  unfold moreParameters
  split
  · rename_i ts
    rw [Grammar.moreParameters]
    refine weaken_eq (andThen_eq (expectName_eq ts log) ?_)
    intro x rest hle log
    exact map_eq (moreParameters_eq rest log) _
  · rename_i hc
    rw [Grammar.moreParameters.eq_2 _ hc]
    refine andThen_eq (expect_eq .rightParen _ log) ?_
    intro _ rest _ log
    exact done_eq [] rest log
termination_by ts.length
decreasing_by
  subst_eqs
  simp only [List.length_cons]
  omega

theorem parameters_eq (ts : List Token) (log : Log) :
    parameters ts log = (Grammar.parameters ts).logged log := by
  unfold parameters
  split
  · rename_i ts
    exact weaken_eq (done_eq [] ts log)
  · rename_i hc
    rw [Grammar.parameters.eq_2 _ hc]
    refine andThen_eq (expectName_eq _ log) ?_
    intro x rest _ log
    exact map_eq (moreParameters_eq rest log) _

mutual
theorem operand_eq (t : Token) (ts : List Token) (log : Log) :
    operand t ts log = (Grammar.operand t ts).logged log := by
  unfold operand
  split
  · rw [Grammar.operand]
    exact done_eq _ ts log
  · rename_i digits
    rw [Grammar.operand]
    cases Decimal.read? digits with
    | some n => exact done_eq (Expr.int n) ts log
    | none => exact fail_eq _ _ ts log
  · rw [Grammar.operand]
    exact done_eq _ ts log
  · rw [Grammar.operand]
    exact done_eq _ ts log
  · rw [Grammar.operand]
    refine andThen_eq (expect_eq .leftParen ts log) ?_
    intro _ us _ log
    refine andThen_eq (expression_eq .lowest us log) ?_
    intro c us _ log
    refine andThen_eq (expect_eq .rightParen us log) ?_
    intro _ us _ log
    refine andThen_eq (expect_eq .leftBrace us log) ?_
    intro _ us _ log
    refine andThen_eq (kept_eq (statements_eq true us log)) ?_
    intro body us _ log
    cases us with
    | nil => exact done_eq (Expr.ifThen c body) [] log
    | cons u us =>
      cases u with
      | keyword k =>
        cases k with
        | elseKw =>
          refine weaken_eq (andThen_eq (expect_eq .leftBrace us log) ?_)
          intro _ us _ log
          exact kept_map_eq (statements_eq true us log) _
        | _ => exact done_eq (Expr.ifThen c body) _ log
      | _ => exact done_eq (Expr.ifThen c body) _ log
  · rw [Grammar.operand]
    refine andThen_eq (expect_eq .leftParen ts log) ?_
    intro _ us _ log
    refine andThen_eq (parameters_eq us log) ?_
    intro xs us _ log
    refine andThen_eq (expect_eq .leftBrace us log) ?_
    intro _ us _ log
    exact kept_map_eq (statements_eq true us log) _
  · rw [Grammar.operand]
    refine andThen_eq (expression_eq .lowest ts log) ?_
    intro e us _ log
    refine andThen_eq (expect_eq .rightParen us log) ?_
    intro _ us _ log
    exact done_eq e us log
  · rename_i s hs
    rw [Grammar.operand]
    · cases PrefixOp.ofSymbol? s with
      | some op => exact map_eq (expression_eq .unary ts log) _
      | none => exact fail_eq _ _ ts log
    · exact hs
  · rw [Grammar.operand]
    · exact fail_eq _ _ ts log
    all_goals assumption
termination_by 4 * ts.length + 1
decreasing_by all_goals first | omega | (subst_eqs; simp only [List.length_cons] at *; omega)

theorem expression_eq (p : Precedence) (ts : List Token) (log : Log) :
    expression p ts log = (Grammar.expression p ts).logged log := by
  unfold expression
  split
  · rw [Grammar.expression]
    exact fail_eq _ _ [] log
  · rename_i t us
    rw [Grammar.expression]
    exact weaken_eq (expressionFrom_eq p t us log)
termination_by 4 * ts.length

theorem expressionFrom_eq (p : Precedence) (t : Token) (ts : List Token) (log : Log) :
    expressionFrom p t ts log = (Grammar.expressionFrom p t ts).logged log := by
  rw [expressionFrom, Grammar.expressionFrom]
  refine andThen_eq (operand_eq t ts log) ?_
  intro left us _ log
  exact operators_eq p left us log
termination_by 4 * ts.length + 2

theorem operators_eq (p : Precedence) (left : Expr) (ts : List Token) (log : Log) :
    operators p left ts log = (Grammar.operators p left ts).logged log := by
  unfold operators
  split
  · rename_i s us
    rw [Grammar.operators]
    split
    · split
      · refine weaken_eq (andThen_eq (arguments_eq us log) ?_)
        intro as vs _ log
        exact operators_eq p (.call left as) vs log
      · exact done_eq left _ log
    · cases InfixOp.ofSymbol? s with
      | none => exact done_eq left _ log
      | some op =>
        dsimp only
        split
        · refine weaken_eq (andThen_eq (expression_eq op.precedence us log) ?_)
          intro right vs _ log
          exact operators_eq p (.binary left op right) vs log
        · exact done_eq left _ log
  · rename_i hs
    rw [Grammar.operators.eq_2 _ _ _ hs]
    exact done_eq left _ log
termination_by 4 * ts.length
decreasing_by all_goals first | omega | (subst_eqs; simp only [List.length_cons] at *; omega)

theorem arguments_eq (ts : List Token) (log : Log) :
    arguments ts log = (Grammar.arguments ts).logged log := by
  unfold arguments
  split
  · rename_i us
    rw [Grammar.arguments]
    exact weaken_eq (done_eq [] us log)
  · rename_i hc
    rw [Grammar.arguments.eq_2 _ hc]
    refine andThen_eq (expression_eq .lowest _ log) ?_
    intro a us _ log
    exact map_eq (moreArguments_eq us log) _
termination_by 4 * ts.length + 1
decreasing_by all_goals omega

theorem moreArguments_eq (ts : List Token) (log : Log) :
    moreArguments ts log = (Grammar.moreArguments ts).logged log := by
  unfold moreArguments
  split
  · rename_i us
    rw [Grammar.moreArguments]
    refine weaken_eq (andThen_eq (expression_eq .lowest us log) ?_)
    intro a vs _ log
    exact map_eq (moreArguments_eq vs log) _
  · rename_i hc
    rw [Grammar.moreArguments.eq_2 _ hc]
    refine andThen_eq (expect_eq .rightParen _ log) ?_
    intro _ us _ log
    exact done_eq [] us log
termination_by 4 * ts.length
decreasing_by all_goals first | omega | (subst_eqs; simp only [List.length_cons] at *; omega)

theorem statement_eq (t : Token) (ts : List Token) (log : Log) :
    statement t ts log = (Grammar.statement t ts).logged log := by
  unfold statement
  split
  · rw [Grammar.statement]
    refine skipping_eq (andThen_eq (expectName_eq ts log) ?_) _
    intro x us _ log
    refine andThen_eq (expect_eq .equal us log) ?_
    intro _ us _ log
    exact map_eq (expression_eq .lowest us log) _
  · rw [Grammar.statement]
    refine skipping_eq ?_ _
    split
    · exact done_eq Stmt.retBare ts log
    · exact map_eq (expression_eq .lowest ts log) _
  · rename_i hl hr
    rw [Grammar.statement.eq_3 _ _ hl hr]
    exact skipping_eq (map_eq (expressionFrom_eq .lowest t ts log) _) _
termination_by 4 * ts.length + 3
decreasing_by all_goals omega

theorem statements_eq (inBlock : Bool) (ts : List Token) (log : Log) :
    statements inBlock ts log = (Grammar.statements inBlock ts).logged log := by
  unfold statements
  split
  · rw [Grammar.statements, Step.logged]
    cases inBlock
    · rw [if_neg Bool.false_ne_true, Log.extend_empty, stop]
    · rw [if_pos rfl, Log.extend_cut, stop]
  · rename_i t us
    rw [Grammar.statements]
    split
    · rw [Step.logged, Log.extend_empty]
      rfl
    · rw [statement_eq t us log]
      obtain ⟨d | s, rest, report, h⟩ := Grammar.statement t us
      · simp only [Attempt.logged, statements_eq inBlock rest, Step.logged, Step.weaken, Step.after,
          behind, weaken, Log.extend_append, Log.extend_abandoned]
      · simp only [Attempt.logged, statements_eq inBlock rest, Step.logged, Step.weaken, Step.after,
          behind, weaken, Logged.map, Step.map, Log.extend_append]
termination_by 4 * ts.length
decreasing_by all_goals first | omega | (subst_eqs; simp only [List.length_cons] at *; omega)
end

end Logged
end MonkeyLang
