import ManagedCode.Iterator.Machine
import ManagedCode.Run.Eval
import ManagedCode.Run.Jump

namespace ManagedCode

/-- How a statement ended. -/
inductive Flow where
  | normal
  | goto (label : LabelId)
  | ret (value : Value)
  | throw (value : Value)
  deriving DecidableEq, Inhabited

structure Config (σ : Type) where
  activation : Activation
  world : World σ
  deriving Inhabited

abbrev Exec (σ : Type) := EStateM RunError (Config σ)

/-- What the executed code can call: the host, and the methods of its machine. The host is told of
every statement before it is executed. -/
structure Environment (σ : Type) where
  host : Host σ
  methods : List SynthesizedMethod := []
  watch : Stmt → σ → σ := fun _ host => host

namespace Exec

variable {σ α : Type}

def onWorld (action : Activation → EStateM RunError (World σ) α) : Exec σ α := fun config =>
  match action config.activation config.world with
  | .ok value world => .ok value { config with world }
  | .error error world => .error error { config with world }

/-- Takes one unit of fuel. -/
def tick : Exec σ Unit := fun config =>
  match config.world.fuel with
  | 0 => .error .stepLimit config
  | fuel + 1 => .ok () { config with world := { config.world with fuel } }

def onHost (f : σ → σ) : Exec σ Unit :=
  modify fun config => { config with world := { config.world with host := f config.world.host } }

def setLocal (id : LocalId) (value : Value) : Exec σ Unit :=
  modify fun config => { config with activation := config.activation.writeLocal id value }

def setParam (id : ParamId) (value : Value) : Exec σ Unit := do
  let activation ← ofExcept ((← get).activation.writeParam id value)
  modify fun config => { config with activation }

/-- An exception is a way for a statement to end; other errors end the execution. -/
def unwinding (action : Exec σ Flow) : Exec σ Flow := fun config =>
  match action config with
  | .error (.thrown value) config => .ok (.throw value) config
  | result => result

end Exec

/-- The result of a body whose statements ended with `flow`. -/
def Flow.result : Flow → Except RunError Value
  | .normal => .ok .unit
  | .ret value => .ok value
  | .throw value => .error (.thrown value)
  | .goto label => .error (.undefinedLabel label)

namespace Environment

variable {σ : Type} (env : Environment σ)

/-- Executes a body in an activation of its own, with `run` for its statements. -/
def callBody (run : List Stmt → Exec σ Flow) (body : Body) (args : List Value) :
    EStateM RunError (World σ) Value := fun world =>
  match run body.root ⟨{ args }, world⟩ with
  | .error error config => .error error config.world
  | .ok flow config =>
    match flow.result with
    | .ok value => .ok value config.world
    | .error error => .error error config.world

section

variable (run : List Stmt → Exec σ Flow)

def invoke (method : SynthMethodId) (args : List Value) : EStateM RunError (World σ) Value :=
  match env.methods[method.index]? with
  | some target => callBody run target.body args
  | none => throw (.undefinedMethod method)

def eval (e : Expr) : Exec σ Value :=
  .onWorld fun activation => e.eval env.host (env.invoke run) activation

/-- The receiver of a field is evaluated after the value that is stored. -/
def write (value : Value) : Place → Exec σ Unit
  | .local id => .setLocal id value
  | .param id => .setParam id value
  | .machineField slot => .onWorld fun _ => World.writeField slot value
  | .field none member => .onWorld fun _ => World.onHost (env.host.store member none value)
  | .field (some receiver) member => do
    let receiver ← env.eval run receiver
    .onWorld fun _ => World.onHost (env.host.store member (some receiver) value)
  | .element _ _ _ => throw (.unsupported .elementWrite)

def evalBool (e : Expr) : Exec σ Bool := do
  let value ← env.eval run e
  match value with
  | .bool b => return b
  | _ => throw (.typeMismatch .bool value)

def evalInt (e : Expr) : Exec σ Int64 := do
  let value ← env.eval run e
  match value with
  | .int i => return i
  | _ => throw (.typeMismatch .int value)

/-- The first clause handles every exception. -/
def handle (catches : List Catch) (flow : Flow) : Exec σ Flow :=
  match flow, catches with
  | .throw value, .mk _ caught body :: _ => do
    if let some id := caught then
      Exec.setLocal id value
    run body
  | _, _ => return flow

/-- A cleanup that ends in any other way than normally overrides how its statement ended. -/
def cleanUp (cleanup : List Stmt) (flow : Flow) : Exec σ Flow := do
  match ← run cleanup with
  | .normal => return flow
  | other => return other

/-- Executes one statement, with `run` for the statement lists in it. -/
def execStmt : Stmt → Exec σ Flow
  | .block stmts => run stmts
  | .expr value => do
    let _ ← env.eval run value
    return .normal
  | .assign place value => do
    let value ← env.eval run value
    env.write run value place
    return .normal
  | .label _ | .nop => return .normal
  | .goto target => return .goto target
  | .condGoto cond jumpIf target => do
    return if (← env.evalBool run cond) = jumpIf then .goto target else .normal
  | .switch scrutinee cases default? => do
    let value ← env.evalInt run scrutinee
    return ((cases.lookup value) <|> default?).elim .normal .goto
  | .ret none => return .ret .unit
  | .ret (some value) => do return .ret (← env.eval run value)
  | .yield _ | .yieldBreak => throw (.unsupported .suspension)
  | .tryCatch _ body catches finally? => do
    let flow ← handle run catches (← run body)
    match finally? with
    | some cleanup => cleanUp run cleanup flow
    | none => return flow
  | .tryFault body fault => do
    match ← run body with
    | .throw value => cleanUp run fault (.throw value)
    | flow => return flow
  | .throw value => do return .throw (← env.eval run value)

end

/-- Executes what is due at a point until it is through, where each statement takes one unit of
fuel and `bound` is no less than the fuel that is left. A jump stays in the statement list and its
plain blocks, or else ends the execution of the list. -/
def run : (bound : Nat) → Point → Exec σ Flow
  | 0, point => if point.next?.isNone then return .normal else throw .stepLimit
  | bound + 1, point =>
    match point.next? with
    | none => return .normal
    | some (stmt, after) => do
      Exec.tick
      Exec.onHost (env.watch stmt)
      match stmt with
      | .block stmts => run bound (⟨stmts, stmts⟩ :: after)
      | stmt =>
        match ← Exec.unwinding (env.execStmt (fun stmts => run bound (.start stmts)) stmt) with
        | .normal => run bound after
        | .goto label =>
          match Point.jump? label after with
          | some target => run bound target
          | none => return .goto label
        | flow => return flow

/-- Executes a body with the fuel of the world. -/
def execute (body : Body) (args : List Value) : EStateM RunError (World σ) Value := fun world =>
  callBody (fun stmts => env.run world.fuel (.start stmts)) body args world

end Environment

/-- The number of statements that may be executed if nothing else is said. -/
def defaultFuel : Nat := 1000000

end ManagedCode
