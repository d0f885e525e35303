import MonkeyLang.Decimal
import MonkeyLang.Grammar.Precedence
import MonkeyLang.Grammar.Step
import MonkeyLang.Token.Scan

/-! Reading a program from tokens by operator precedence. A statement that cannot be read is
abandoned with one diagnostic, and reading goes on behind it with the next statement. -/
namespace MonkeyLang
namespace Grammar
open Attempt

/-- Reads a given symbol; any other token is left unread. -/
def expect (s : Symbol) : (ts : List Token) → Attempt Unit ts.length
  | [] => fail (.expected (.symbol s) .endOfInput) 0 []
  | t :: ts =>
    if t = .symbol s then (done () ts).weaken (by simp)
    else fail (.expected (.symbol s) t.kind) (ts.length + 1) (t :: ts)

/-- Reads a name; any other token is left unread. -/
def expectName : (ts : List Token) → Attempt String ts.length
  | [] => fail (.expected .name .endOfInput) 0 []
  | .name x :: ts => (done x ts).weaken (by simp)
  | t :: ts => fail (.expected .name t.kind) (ts.length + 1) (t :: ts)

/-- Reads the parameters after the first one, up to the closing parenthesis. -/
def moreParameters (ts : List Token) : Attempt (List String) ts.length :=
  match ts with
  | .symbol .comma :: ts =>
    ((expectName ts).andThen fun x rest _ => (moreParameters rest).map (x :: ·)).weaken (by simp)
  | ts => (expect .rightParen ts).andThen fun _ rest _ => done [] rest
termination_by ts.length

/-- Reads a parameter list after its opening parenthesis. -/
def parameters (ts : List Token) : Attempt (List String) ts.length :=
  match ts with
  | .symbol .rightParen :: ts => (done [] ts).weaken (by simp)
  | ts => (expectName ts).andThen fun x rest _ => (moreParameters rest).map (x :: ·)

/-- Whether a `return` in front of these tokens stands without a value. -/
def endsReturn : List Token → Bool
  | [] => true
  | t :: _ => t = .symbol .semicolon || t = .symbol .rightBrace

mutual
/-- Reads an operand whose first token `t` is already taken. -/
def operand (t : Token) (ts : List Token) : Attempt Expr ts.length :=
  match t with
  | .name x => done (.name x) ts
  | .int digits =>
    match Decimal.read? digits with
    | some n => done (.int n) ts
    | none => fail (.tooLarge digits) (ts.length + 1) ts
  | .keyword .trueKw => done (.bool true) ts
  | .keyword .falseKw => done (.bool false) ts
  | .keyword .ifKw =>
    (expect .leftParen ts).andThen fun _ ts _ =>
    (expression .lowest ts).andThen fun c ts _ =>
    (expect .rightParen ts).andThen fun _ ts _ =>
    (expect .leftBrace ts).andThen fun _ ts _ =>
    (statements true ts).kept.andThen fun body ts _ =>
    match ts with
    | .keyword .elseKw :: ts =>
      ((expect .leftBrace ts).andThen fun _ ts _ =>
        (statements true ts).kept.map fun other => .ifElse c body other).weaken (by simp)
    | ts => done (.ifThen c body) ts
  | .keyword .fnKw =>
    (expect .leftParen ts).andThen fun _ ts _ =>
    (parameters ts).andThen fun xs ts _ =>
    (expect .leftBrace ts).andThen fun _ ts _ =>
    (statements true ts).kept.map fun body => .function xs body
  | .symbol .leftParen =>
    (expression .lowest ts).andThen fun e ts _ =>
    (expect .rightParen ts).andThen fun _ ts _ => done e ts
  | .symbol s =>
    match PrefixOp.ofSymbol? s with
    | some op => (expression .unary ts).map (.unary op)
    | none => fail (.noOperand (.symbol s)) (ts.length + 1) ts
  | t => fail (.noOperand t.kind) (ts.length + 1) ts
termination_by 4 * ts.length + 1
decreasing_by all_goals grind

/-- Reads an expression of operators that bind tighter than `p`. A token that starts no operand
is passed over. -/
def expression (p : Precedence) (ts : List Token) : Attempt Expr ts.length :=
  match ts with
  | [] => fail (.noOperand .endOfInput) 0 []
  | t :: ts => (expressionFrom p t ts).weaken (by simp)
termination_by 4 * ts.length

/-- Reads an expression whose first token `t` is already taken. -/
def expressionFrom (p : Precedence) (t : Token) (ts : List Token) : Attempt Expr ts.length :=
  (operand t ts).andThen fun left ts _ => operators p left ts
termination_by 4 * ts.length + 2

/-- Reads the operators and calls that bind tighter than `p` and follow the operand `left`. -/
def operators (p : Precedence) (left : Expr) (ts : List Token) : Attempt Expr ts.length :=
  match ts with
  | .symbol s :: ts =>
    if s = .leftParen then
      if p < .call then
        ((arguments ts).andThen fun as ts _ => operators p (.call left as) ts).weaken (by simp)
      else done left (.symbol s :: ts)
    else
      match InfixOp.ofSymbol? s with
      | some op =>
        if p < op.precedence then
          ((expression op.precedence ts).andThen fun right ts _ =>
            operators p (.binary left op right) ts).weaken (by simp)
        else done left (.symbol s :: ts)
      | none => done left (.symbol s :: ts)
  | ts => done left ts
termination_by 4 * ts.length

/-- Reads the arguments of a call after its opening parenthesis. -/
def arguments (ts : List Token) : Attempt (List Expr) ts.length :=
  match ts with
  | .symbol .rightParen :: ts => (done [] ts).weaken (by simp)
  | ts => (expression .lowest ts).andThen fun a ts _ => (moreArguments ts).map (a :: ·)
termination_by 4 * ts.length + 1

/-- Reads the arguments after the first one, up to the closing parenthesis. -/
def moreArguments (ts : List Token) : Attempt (List Expr) ts.length :=
  match ts with
  | .symbol .comma :: ts =>
    ((expression .lowest ts).andThen fun a ts _ => (moreArguments ts).map (a :: ·)).weaken (by simp)
  | ts => (expect .rightParen ts).andThen fun _ ts _ => done [] ts
termination_by 4 * ts.length

/-- Reads a statement whose first token `t` is already taken, with an optional semicolon after it. -/
def statement (t : Token) (ts : List Token) : Attempt Stmt ts.length :=
  match t with
  | .keyword .letKw =>
    skipping (.symbol .semicolon) <|
    (expectName ts).andThen fun x ts _ =>
    (expect .equal ts).andThen fun _ ts _ =>
    (expression .lowest ts).map (.define x)
  | .keyword .returnKw =>
    skipping (.symbol .semicolon) <|
    if endsReturn ts then done .retBare ts else (expression .lowest ts).map .ret
  | t => skipping (.symbol .semicolon) <| (expressionFrom .lowest t ts).map .expr
termination_by 4 * ts.length + 3

/-- Reads statements up to the end of the input or, in a block, up to its closing brace. -/
def statements (inBlock : Bool) (ts : List Token) : Step (List Stmt) ts.length :=
  match ts with
  | [] => ⟨[], [], if inBlock then .cut else .empty, Nat.le_refl _⟩
  | t :: ts =>
    if inBlock ∧ t = .symbol .rightBrace then ⟨[], ts, .empty, by simp⟩
    else
      match statement t ts with
      | ⟨.ok s, rest, report, h⟩ =>
        (((statements inBlock rest).map (s :: ·)).after report).weaken (by simp; omega)
      | ⟨.error d, rest, report, h⟩ =>
        ((statements inBlock rest).after (report ++ .abandoned d)).weaken (by simp; omega)
termination_by 4 * ts.length
end

end Grammar
end MonkeyLang
