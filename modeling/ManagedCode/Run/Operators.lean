import ManagedCode.Run.Value

namespace ManagedCode

/-- Integers wrap around; both operands of `&&` and `||` are given as values. -/
def BinaryOp.apply : BinaryOp → Value → Value → Except RunError Value
  | .add, .int a, .int b => .ok (.int (a + b))
  | .sub, .int a, .int b => .ok (.int (a - b))
  | .mul, .int a, .int b => .ok (.int (a * b))
  | .div, .int a, .int b => if b = 0 then .error .divisionByZero else .ok (.int (a / b))
  | .rem, .int a, .int b => if b = 0 then .error .divisionByZero else .ok (.int (a % b))
  | .eq, .int a, .int b => .ok (.bool (a = b))
  | .ne, .int a, .int b => .ok (.bool (a ≠ b))
  | .lt, .int a, .int b => .ok (.bool (a < b))
  | .le, .int a, .int b => .ok (.bool (a ≤ b))
  | .gt, .int a, .int b => .ok (.bool (b < a))
  | .ge, .int a, .int b => .ok (.bool (b ≤ a))
  | .eq, .bool a, .bool b => .ok (.bool (a = b))
  | .ne, .bool a, .bool b => .ok (.bool (a ≠ b))
  | .and, .bool a, .bool b => .ok (.bool (a && b))
  | .or, .bool a, .bool b => .ok (.bool (a || b))
  | _, left, right => .error (.typeMismatch (.pairedWith left) right)

def UnaryOp.apply : UnaryOp → Value → Except RunError Value
  | .neg, .int a => .ok (.int (-a))
  | .not, .bool a => .ok (.bool !a)
  | op, value => .error (.typeMismatch (.operandOf op) value)

end ManagedCode
