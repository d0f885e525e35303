import MonkeyLang.Syntax.Render

/-! The values of the language and the errors of evaluation. -/
namespace MonkeyLang

/-- The types that values have at run time. -/
inductive ValueType
  | integer | boolean | null | function | returned | error
  deriving DecidableEq

def ValueType.name : ValueType → String
  | integer => "INTEGER"
  | boolean => "BOOLEAN"
  | null => "NULL"
  | function => "FUNCTION"
  | returned => "RETURN_VALUE"
  | error => "ERROR"

/-- Why an evaluation stopped. -/
inductive EvalError
  | unbound (x : String)
  | unaryType (op : PrefixOp) (operand : ValueType)
  | binaryType (left : ValueType) (op : InfixOp) (right : ValueType)
  | mismatch (left : ValueType) (op : InfixOp) (right : ValueType)
  | notAFunction (type : ValueType)
  | wrongArity (expected found : Nat)
  | divisionByZero
  deriving DecidableEq

def EvalError.message : EvalError → String
  | unbound x => "identifier not found: " ++ x
  | unaryType op t => "unknown operator: " ++ op.symbol.text ++ t.name
  | binaryType l op r => "unknown operator: " ++ l.name ++ " " ++ op.symbol.text ++ " " ++ r.name
  | mismatch l op r => "type mismatch: " ++ l.name ++ " " ++ op.symbol.text ++ " " ++ r.name
  | notAFunction t => "not a function: " ++ t.name
  | wrongArity expected found =>
    "wrong number of arguments: want=" ++ expected.repr ++ ", got=" ++ found.repr
  | divisionByZero => "division by zero"

/-- The place of a scope frame in the heap. -/
abbrev FrameId := Nat

/-- A function value: its literal and the frame in which the literal was evaluated. Each
evaluation of a literal makes a closure with an identity of its own. -/
structure Closure where
  id : Nat
  parameters : List String
  body : List Stmt
  home : FrameId

def Closure.arity (c : Closure) : Nat := c.parameters.length

/-- The literal that a closure was made from. -/
def Closure.literal (c : Closure) : Expr := .function c.parameters c.body

/-- A value. A returned value is on its way out of the blocks around its `return`. -/
inductive Value
  | int (n : Int64)
  | bool (b : Bool)
  | null
  | function (c : Closure)
  | returned (v : Value)
  | error (e : EvalError)

namespace Value

def type : Value → ValueType
  | int _ => .integer
  | bool _ => .boolean
  | null => .null
  | function _ => .function
  | returned _ => .returned
  | error _ => .error

/-- Only `null` and `false` count as false in a condition. -/
def truthy : Value → Bool
  | null => false
  | bool b => b
  | _ => true

def isReturned : Value → Bool
  | returned _ => true
  | _ => false

/-- Ends the way of a returned value. -/
def arrive : Value → Value
  | returned v => v
  | v => v

/-- The text of a value. -/
def inspect : Value → String
  | int n => Decimal.write n
  | bool true => "true"
  | bool false => "false"
  | null => "null"
  | function c => c.literal.render
  | returned v => v.inspect
  | error e => "ERROR: " ++ e.message

/-- Identity: booleans and null are single objects, and functions are compared by identity. No
other value is identical to anything, itself included. -/
def identical : Value → Value → Bool
  | bool a, bool b => a == b
  | null, null => true
  | function c, function d => c.id == d.id
  | _, _ => false

/-- Equality: integers, returned values and errors are compared by content, all else by
identity. -/
def same : Value → Value → Bool
  | int a, int b => a == b
  | returned v, returned w => v.same w
  | error e, error f => e == f
  | v, w => v.identical w

end Value
end MonkeyLang
