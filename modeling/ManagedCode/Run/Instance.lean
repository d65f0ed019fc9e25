import ManagedCode.Run.Execute

namespace ManagedCode

/-- A machine that has been created, and the host it runs on. -/
structure Instance (σ : Type) where
  fields : List Value
  host : σ
  deriving Inhabited

namespace Instance

variable {σ : Type}

/-- A machine starts in its initial state with its arguments in their slots. -/
def create (machine : StateMachine) (args : List Value) (host : σ) : Instance σ :=
  { fields := machine.fields.map fun field =>
      match field.kind with
      | .state => .int (Int64.ofInt initialState)
      | .param id => args.getD id.index .unit
      | _ => .unit
    host }

/-- A slot that the machine does not have. -/
structure NoSlot where
  fieldCount : Nat
  slot : FieldSlot
  deriving DecidableEq, Inhabited

def NoSlot.message (fault : NoSlot) : String :=
  s!"index out of bounds: the len is {fault.fieldCount} but the index is {fault.slot.index}"

def field (live : Instance σ) (slot : FieldSlot) : Except NoSlot Value :=
  match live.fields[slot.index]? with
  | some value => .ok value
  | none => .error ⟨live.fields.length, slot⟩

def state (live : Instance σ) : Value := live.fields.getD stateField.index .unit

def current (live : Instance σ) : Value := live.fields.getD currentField.index .unit

/-- The value of the field that a local was hoisted into. -/
def hoistedLocal? (machine : StateMachine) (live : Instance σ) (id : LocalId) : Option Value :=
  (machine.localSlot? id).bind fun slot => live.fields[slot.index]?

variable (machine : StateMachine) (host : Host σ) (fuel : Nat)

/-- Calls a method of the machine with fresh fuel. -/
def call (method : SynthesizedMethod) (watch : Stmt → σ → σ := fun _ host => host) :
    EStateM RunError (Instance σ) Value := fun live =>
  let env : Environment σ := { host, methods := machine.methods, watch }
  match env.execute method.body [] { fields := live.fields, fuel, host := live.host } with
  | .ok value world => .ok value ⟨world.fields, world.host⟩
  | .error error world => .error error ⟨world.fields, world.host⟩

/-- Goes on to the next element, and answers whether there is one. -/
def moveNext (watch : Stmt → σ → σ := fun _ host => host) :
    EStateM RunError (Instance σ) Bool := do
  let value ← call machine host fuel machine.step watch
  match value with
  | .bool produced => return produced
  | _ => throw (.typeMismatch .bool value)

/-- Ends the machine, with the handlers around the yield it waits at. -/
def dispose (watch : Stmt → σ → σ := fun _ host => host) :
    EStateM RunError (Instance σ) Unit := do
  let _ ← call machine host fuel machine.dispose watch

/-- The elements up to the end of the machine, but not more than `limit`. -/
def drain : (limit : Nat) → EStateM RunError (Instance σ) (List Value)
  | 0 => return []
  | limit + 1 => do
    if ← moveNext machine host fuel then
      let element := (← get).current
      return element :: (← drain limit)
    else
      return []

end Instance

end ManagedCode
