import MonkeyLang.Decimal
import MonkeyLang.Grammar.Lookahead
import MonkeyLang.Grammar.Precedence

/-! The rules of the language. The kind of the current token selects the rule for an operand, and
the kind of the next one the rule for what follows an operand. -/
namespace MonkeyLang

/-- How tightly a token of some kind binds what stands before it. -/
def Kind.infixPrecedence : Kind → Precedence
  | .symbol .equalEqual | .symbol .bangEqual => .equality
  | .symbol .less | .symbol .greater => .comparison
  | .symbol .plus | .symbol .minus => .sum
  | .symbol .star | .symbol .slash => .product
  | .symbol .leftParen => .call
  | _ => .lowest

/-- The rules that are called again from inside themselves. -/
structure Rules where
  statements : (inBlock : Bool) → Rule (List Stmt)
  expression : Precedence → Rule Expr
  operators : Precedence → Expr → Rule Expr
  moreParameters : Rule (List String)
  moreArguments : Rule (List Expr)

namespace Rules
open Rule

def name : Rule Expr := within .name do
  let x ← lexeme
  return .name x

def int : Rule Expr := within .int do
  let digits ← lexeme
  match Decimal.read? digits with
  | some n => return .int n
  | none => fail (.tooLarge digits)

def bool : Rule Expr := within .bool do
  let k ← currentKind
  return .bool (k = .keyword .trueKw)

def prefixOp : Kind → Rule PrefixOp
  | .symbol .bang => pure .not
  | .symbol .minus => pure .negate
  | _ => halt .unreachable

def infixOp : Kind → Rule InfixOp
  | .symbol .plus => pure .plus
  | .symbol .minus => pure .minus
  | .symbol .star => pure .times
  | .symbol .slash => pure .divide
  | .symbol .equalEqual => pure .equal
  | .symbol .bangEqual => pure .notEqual
  | .symbol .less => pure .less
  | .symbol .greater => pure .greater
  | _ => halt .unreachable

variable (rules : Rules)

def letStatement : Rule Stmt := within .letStatement do
  consume .name
  let x ← lexeme
  consume (.symbol .equal)
  advance
  let value ← rules.expression .lowest
  skipSemicolon
  return .define x value

def returnStatement : Rule Stmt := within .returnStatement do
  let k ← nextKind
  if k = .symbol .semicolon ∨ k = .symbol .rightBrace ∨ k = .endOfInput then do
    skipSemicolon
    return .retBare
  else do
    advance
    let value ← rules.expression .lowest
    skipSemicolon
    return .ret value

def expressionStatement : Rule Stmt := within .expressionStatement do
  let e ← rules.expression .lowest
  skipSemicolon
  return .expr e

def statement : Rule Stmt := within .statement do
  let k ← currentKind
  match k with
  | .keyword .letKw => rules.letStatement
  | .keyword .returnKw => rules.returnStatement
  | _ => rules.expressionStatement

/-- Starts on an opening brace and ends on the closing one, or at the end of the input. -/
def block : Rule (List Stmt) := within .block do
  advance
  rules.statements true

def prefixOperation : Rule Expr := within .prefixOperation do
  let k ← currentKind
  let op ← prefixOp k
  advance
  let operand ← rules.expression .unary
  return .unary op operand

def group : Rule Expr := within .group do
  advance
  let e ← rules.expression .lowest
  consume (.symbol .rightParen)
  return e

def conditional : Rule Expr := within .conditional do
  consume (.symbol .leftParen)
  advance
  let c ← rules.expression .lowest
  consume (.symbol .rightParen)
  consume (.symbol .leftBrace)
  let body ← rules.block
  let k ← nextKind
  if k = .keyword .elseKw then do
    advance
    consume (.symbol .leftBrace)
    let other ← rules.block
    return .ifElse c body other
  else return .ifThen c body

def parameters : Rule (List String) := within .parameters do
  let k ← nextKind
  if k = .symbol .rightParen then do
    advance
    return []
  else do
    consume .name
    let x ← lexeme
    let xs ← rules.moreParameters
    return x :: xs

def function : Rule Expr := within .function do
  consume (.symbol .leftParen)
  let xs ← rules.parameters
  consume (.symbol .leftBrace)
  let body ← rules.block
  return .function xs body

def binary (left : Expr) : Rule Expr := within .binary do
  let k ← currentKind
  let op ← infixOp k
  advance
  let right ← rules.expression k.infixPrecedence
  return .binary left op right

def call (callee : Expr) : Rule Expr := within .call do
  let k ← nextKind
  if k = .symbol .rightParen then do
    advance
    return .call callee []
  else do
    advance
    let a ← rules.expression .lowest
    let as ← rules.moreArguments
    return .call callee (a :: as)

/-- The rule for an operand that starts with a token of some kind. -/
def prefixRule? : Kind → Option (Rule Expr)
  | .name => some name
  | .int => some int
  | .keyword .trueKw | .keyword .falseKw => some bool
  | .symbol .bang | .symbol .minus => some rules.prefixOperation
  | .symbol .leftParen => some rules.group
  | .keyword .ifKw => some rules.conditional
  | .keyword .fnKw => some rules.function
  | _ => none

/-- The rule for what a token of some kind makes of the operand before it. -/
def infixRule? : Kind → Option (Expr → Rule Expr)
  | .symbol .plus | .symbol .minus | .symbol .star | .symbol .slash
  | .symbol .equalEqual | .symbol .bangEqual | .symbol .less | .symbol .greater => some rules.binary
  | .symbol .leftParen => some rules.call
  | _ => none

def statementsOnce (inBlock : Bool) : Rule (List Stmt) := within .statements do
  let k ← currentKind
  if k = .endOfInput ∨ (inBlock = true ∧ k = .symbol .rightBrace) then return []
  else do
    let s ← attempt rules.statement
    advance
    let ss ← rules.statements inBlock
    return s.toList ++ ss

def expressionOnce (p : Precedence) : Rule Expr := within .expression do
  let k ← currentKind
  match rules.prefixRule? k with
  | none => fail (.noOperand k)
  | some operand => do
    let left ← operand
    rules.operators p left

def operatorsOnce (p : Precedence) (left : Expr) : Rule Expr := within .operators do
  let k ← nextKind
  if k ≠ .symbol .semicolon ∧ p < k.infixPrecedence then
    match rules.infixRule? k with
    | none => return left
    | some operation => do
      advance
      let more ← operation left
      rules.operators p more
  else return left

def moreParametersOnce : Rule (List String) := within .moreParameters do
  let k ← nextKind
  if k = .symbol .comma then do
    advance
    consume .name
    let x ← lexeme
    let xs ← rules.moreParameters
    return x :: xs
  else do
    consume (.symbol .rightParen)
    return []

def moreArgumentsOnce : Rule (List Expr) := within .moreArguments do
  let k ← nextKind
  if k = .symbol .comma then do
    advance
    advance
    let a ← rules.expression .lowest
    let as ← rules.moreArguments
    return a :: as
  else do
    consume (.symbol .rightParen)
    return []

/-- The rules whose inner calls may be nested this deep. -/
def upTo : Nat → Rules
  | 0 => ⟨fun _ => halt .outOfFuel, fun _ => halt .outOfFuel, fun _ _ => halt .outOfFuel,
      halt .outOfFuel, halt .outOfFuel⟩
  | fuel + 1 =>
    let rules := upTo fuel
    ⟨rules.statementsOnce, rules.expressionOnce, rules.operatorsOnce, rules.moreParametersOnce,
      rules.moreArgumentsOnce⟩

end Rules

/-- Reads all statements of a text, with calls that are nested no deeper than the fuel. -/
def Reader.parse (fuel : Nat) (source : String) : Except Halt (Ending (List Stmt)) :=
  (Rules.upTo fuel).statements false (.start source)

end MonkeyLang
