import ManagedCode.Body.FreshIds
import ManagedCode.Body.Walk

namespace ManagedCode

/-- The slot of a hoisted parameter: the state and the current element come first. -/
def ParamId.slot (id : ParamId) : FieldSlot := ⟨2 + id.index⟩

/-- The slot of a hoisted local, after those of all parameters. -/
def LocalId.slot (paramCount : Nat) (id : LocalId) : FieldSlot := ⟨2 + paramCount + id.index⟩

mutual

/-- Reads locals and parameters from the machine they were hoisted into. -/
def Expr.hoist (paramCount : Nat) : Expr → Expr
  | .const value => .const value
  | .local id => .machineField (id.slot paramCount)
  | .param id => .machineField id.slot
  | .machineField slot => .machineField slot
  | .field none member => .field none member
  | .field (some receiver) member => .field (some (receiver.hoist paramCount)) member
  | .call callee none args => .call callee none (Expr.hoistAll paramCount args)
  | .call callee (some receiver) args =>
    .call callee (some (receiver.hoist paramCount)) (Expr.hoistAll paramCount args)
  | .binary op lhs rhs => .binary op (lhs.hoist paramCount) (rhs.hoist paramCount)
  | .unary op operand => .unary op (operand.hoist paramCount)
  | .element array arrayTy indices =>
    .element (array.hoist paramCount) arrayTy (Expr.hoistAll paramCount indices)
  | .addressOf place => .addressOf (place.hoist paramCount)
  | .newArray arrayTy lengths => .newArray arrayTy (Expr.hoistAll paramCount lengths)
  | .typeToken ty => .typeToken ty

def Expr.hoistAll (paramCount : Nat) : List Expr → List Expr
  | [] => []
  | e :: es => e.hoist paramCount :: Expr.hoistAll paramCount es

/-- Writes locals and parameters to the machine they were hoisted into. -/
def Place.hoist (paramCount : Nat) : Place → Place
  | .local id => .machineField (id.slot paramCount)
  | .param id => .machineField id.slot
  | .machineField slot => .machineField slot
  | .field none member => .field none member
  | .field (some receiver) member => .field (some (receiver.hoist paramCount)) member
  | .element array arrayTy indices =>
    .element (array.hoist paramCount) arrayTy (Expr.hoistAll paramCount indices)

end

/-- Gives up at a local or parameter whose slot is too large. -/
def slotGuard (paramCount : Nat) : Visitor Option where
  expr
    | .local id, _ => guard ((id.slot paramCount).index < idLimit)
    | .param id, _ => guard (id.slot.index < idLimit)
    | _, descend => descend
  place
    | .local id, _ => guard ((id.slot paramCount).index < idLimit)
    | .param id, _ => guard (id.slot.index < idLimit)
    | _, descend => descend

end ManagedCode
