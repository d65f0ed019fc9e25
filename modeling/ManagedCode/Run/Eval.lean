import ManagedCode.Run.Host
import ManagedCode.Run.Operators

namespace ManagedCode

/-- The arguments of one execution of a body, and the locals that were assigned. -/
structure Activation where
  args : List Value
  locals : List (LocalId × Value) := []
  deriving DecidableEq, Inhabited

namespace Activation

/-- Every local starts without a value. -/
def readLocal (activation : Activation) (id : LocalId) : Except RunError Value :=
  match activation.locals.lookup id with
  | some value => .ok value
  | none => .error (.uninitializedLocal id)

def readParam (activation : Activation) (id : ParamId) : Except RunError Value :=
  match activation.args[id.index]? with
  | some value => .ok value
  | none => .error (.missingArgument id)

/-- A local can be assigned to whether it was declared or not. -/
def writeLocal (activation : Activation) (id : LocalId) (value : Value) : Activation :=
  { activation with locals := (id, value) :: activation.locals.filter (·.1 ≠ id) }

def writeParam (activation : Activation) (id : ParamId) (value : Value) :
    Except RunError Activation :=
  if id.index < activation.args.length then
    .ok { activation with args := activation.args.set id.index value }
  else
    .error (.missingArgument id)

end Activation

/-- What an execution works on besides its own activation: the machine's fields, the number of
statements that may still be executed, and the host. -/
structure World (σ : Type) where
  fields : List Value
  fuel : Nat
  host : σ
  deriving Inhabited

namespace World

variable {σ : Type}

def readField (slot : FieldSlot) : EStateM RunError (World σ) Value := do
  match (← get).fields[slot.index]? with
  | some value => return value
  | none => throw (.unsupported (.machineField slot))

def writeField (slot : FieldSlot) (value : Value) : EStateM RunError (World σ) Unit := do
  if slot.index < (← get).fields.length then
    modify fun world => { world with fields := world.fields.set slot.index value }
  else
    throw (.unsupported (.machineField slot))

def onHost {α : Type} (action : EStateM RunError σ α) : EStateM RunError (World σ) α := fun world =>
  match action world.host with
  | .ok value host => .ok value { world with host }
  | .error error host => .error error { world with host }

end World

namespace Expr

variable {σ : Type} (host : Host σ)
  (invoke : SynthMethodId → List Value → EStateM RunError (World σ) Value)
  (activation : Activation)

mutual

/-- Operands are evaluated from the left, a receiver before the arguments. Arrays, addresses and
type handles have no values, and nothing in them is evaluated. -/
def eval : Expr → EStateM RunError (World σ) Value
  | .const value => return .ofConstant value
  | .local id => ofExcept (activation.readLocal id)
  | .param id => ofExcept (activation.readParam id)
  | .machineField slot => World.readField slot
  | .field none member => World.onHost (host.load member none)
  | .field (some receiver) member => do
    let receiver ← eval receiver
    World.onHost (host.load member (some receiver))
  | .call (.method member) none args => do
    let args ← evalAll args
    World.onHost (host.call member none args)
  | .call (.method member) (some receiver) args => do
    let receiver ← eval receiver
    let args ← evalAll args
    World.onHost (host.call member (some receiver) args)
  | .call (.synthesized method) none args => do
    let args ← evalAll args
    invoke method args
  | .call (.synthesized method) (some receiver) args => do
    let _ ← eval receiver
    let args ← evalAll args
    invoke method args
  | .binary op lhs rhs => do
    let lhs ← eval lhs
    let rhs ← eval rhs
    ofExcept (op.apply lhs rhs)
  | .unary op operand => do
    let operand ← eval operand
    ofExcept (op.apply operand)
  | .element _ _ _ => throw (.unsupported .elementRead)
  | .addressOf _ => throw (.unsupported .addressOf)
  | .newArray _ _ => throw (.unsupported .arrayAllocation)
  | .typeToken _ => throw (.unsupported .typeHandle)

def evalAll : List Expr → EStateM RunError (World σ) (List Value)
  | [] => return []
  | e :: es => do
    let value ← eval e
    let values ← evalAll es
    return value :: values

end

end Expr

end ManagedCode
