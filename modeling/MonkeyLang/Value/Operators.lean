import MonkeyLang.Value.Basic

/-! What the operators do to values. Integers wrap around at 64 bits. -/
namespace MonkeyLang

def PrefixOp.apply : PrefixOp → Value → Except EvalError Value
  | not, .bool b => .ok (.bool !b)
  | not, .null => .ok (.bool true)
  | not, _ => .ok (.bool false)
  | negate, .int n => .ok (.int (-n))
  | negate, v => .error (.unaryType negate v.type)

/-- An operator on two integers. Quotients are truncated toward zero. -/
def InfixOp.applyInts (op : InfixOp) (a b : Int64) : Except EvalError Value :=
  match op with
  | plus => .ok (.int (a + b))
  | minus => .ok (.int (a - b))
  | times => .ok (.int (a * b))
  | divide => if b = 0 then .error .divisionByZero else .ok (.int (a / b))
  | less => .ok (.bool (a < b))
  | greater => .ok (.bool (b < a))
  | equal => .ok (.bool (a = b))
  | notEqual => .ok (.bool (a ≠ b))

/-- An operator on any two values. Unless both are integers they can only be compared for
identity. -/
def InfixOp.apply (op : InfixOp) (left right : Value) : Except EvalError Value :=
  match left, right with
  | .int a, .int b => op.applyInts a b
  | v, w =>
    match op with
    | equal => .ok (.bool (v.identical w))
    | notEqual => .ok (.bool !(v.identical w))
    | _ => .error (if v.type = w.type then .binaryType v.type op w.type
        else .mismatch v.type op w.type)

end MonkeyLang
