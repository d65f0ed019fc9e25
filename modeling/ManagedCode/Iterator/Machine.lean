import ManagedCode.Body.Printer

namespace ManagedCode

/-- The state of a machine that has not been started. -/
def initialState : Int := 0

/-- The state of a machine that runs outside every frame. -/
def runningState : Int := -1

/-- The state of a machine that has ended. -/
def finishedState : Int := -2

/-- The finalize state of the first frame; later frames count down from it. -/
def firstFinalizeState : Int := -3

/-- States are 32-bit numbers with a sign: they lie below this, and not below its negation. -/
def stateLimit : Nat := 0x80000000

def stateField : FieldSlot := ⟨0⟩

def currentField : FieldSlot := ⟨1⟩

def stepMethod : SynthMethodId := ⟨0⟩

def disposeMethod : SynthMethodId := ⟨1⟩

/-- A method whose body yields elements of a type. -/
structure IteratorMethod where
  method : MethodId
  body : Body
  elementTy : Ty
  deriving Inhabited

/-- What a field of a machine holds. -/
inductive FieldKind where
  | state
  | current
  | param (id : ParamId)
  | local (id : LocalId)
  deriving DecidableEq, Inhabited

def FieldKind.display : FieldKind → String
  | .state => "state"
  | .current => "current"
  | .param id => id.display
  | .local id => id.display

structure MachineField where
  name : String
  ty : Ty
  kind : FieldKind
  deriving DecidableEq, Inhabited

inductive MethodKind where
  | step
  | dispose
  | handler (finalizeState : Int)
  deriving DecidableEq, Inhabited

structure SynthesizedMethod where
  name : String
  kind : MethodKind
  ret : Ty
  body : Body
  deriving Inhabited

/-- An iterator as a machine: fields by slot, and the step method, the dispose method and the
handlers by method id. -/
structure StateMachine where
  name : String
  method : MethodId
  elementTy : Ty
  fields : List MachineField
  methods : List SynthesizedMethod
  resumeStates : List Int
  finalizeStates : List Int
  deriving Inhabited

namespace StateMachine

variable (machine : StateMachine)

def step : SynthesizedMethod := machine.methods.getD stepMethod.index default

def dispose : SynthesizedMethod := machine.methods.getD disposeMethod.index default

/-- The handlers, outer frames first. -/
def handlers : List SynthesizedMethod := machine.methods.drop 2

def slot? (kind : FieldKind) : Option FieldSlot :=
  (machine.fields.findIdx? (·.kind = kind)).map FieldSlot.mk

def paramSlot? (id : ParamId) : Option FieldSlot := machine.slot? (.param id)

def localSlot? (id : LocalId) : Option FieldSlot := machine.slot? (.local id)

/-- The statements of the step method, inside its fault region if it has one. -/
def stepStmts : List Stmt :=
  match machine.step.body.root with
  | [.tryFault body _] => body
  | stmts => stmts

/-- Where the step method goes on in each state. -/
def resumeDispatch : List (Int64 × LabelId) :=
  (machine.stepStmts.findSome? fun
    | .switch _ cases _ => some cases
    | _ => none).getD []

end StateMachine

/-- The fields of the machine of an iterator: the state, the current element, and every
parameter and local in declaration order. -/
def machineFields (iterator : IteratorMethod) : List MachineField :=
  { name := "<>1__state", ty := .int32, kind := .state } ::
  { name := "<>2__current", ty := iterator.elementTy, kind := .current } ::
  iterator.body.params.mapIdx (fun i param =>
    { name := param.name.getD s!"<>3__arg{i}", ty := param.ty, kind := .param ⟨i⟩ }) ++
  iterator.body.locals.mapIdx fun i decl =>
    { name := decl.name.elim s!"<>7__wrap{i + 1}" fun name => s!"<{name}>5__{i + 1}"
      ty := decl.ty
      kind := .local ⟨i⟩ }

end ManagedCode
