import ManagedCode.Body.Printer

namespace ManagedCode

/-- A value at run time. Fields that were never assigned hold `unit`. -/
inductive Value where
  | unit
  | bool (value : Bool)
  | int (value : Int64)
  | null
  deriving DecidableEq, Inhabited

namespace Value

def ofConstant : Constant → Value
  | .int value => .int value
  | .bool value => .bool value
  | .null => .null

def bool? : Value → Option Bool
  | .bool value => some value
  | _ => none

def int? : Value → Option Int64
  | .int value => some value
  | _ => none

def display : Value → String
  | .unit => "()"
  | .bool value => toString value
  | .int value => toString value.toInt
  | .null => "null"

/-- The text of a value with the kind of value it is. -/
def describe : Value → String
  | .unit => "Unit"
  | .bool value => s!"Bool({value})"
  | .int value => s!"Int({value.toInt})"
  | .null => "Null"

end Value

/-- What a value had to be. -/
inductive Expectation where
  | bool
  | int
  | operandOf (op : UnaryOp)
  | pairedWith (left : Value)
  deriving DecidableEq, Inhabited

def Expectation.describe : Expectation → String
  | .bool => "bool"
  | .int => "int"
  | .operandOf op => "operand of " ++ op.display
  | .pairedWith left => left.describe

/-- What cannot be executed. -/
inductive Unsupported where
  | machineField (slot : FieldSlot)
  | elementRead
  | elementWrite
  | addressOf
  | arrayAllocation
  | typeHandle
  | suspension
  | fieldLoad
  | fieldStore
  deriving DecidableEq, Inhabited

def Unsupported.describe : Unsupported → String
  | .machineField slot => "no field " ++ slot.display
  | .elementRead => "array element access"
  | .elementWrite => "array element store"
  | .addressOf => "address-of"
  | .arrayAllocation => "array allocation"
  | .typeHandle => "type handle"
  | .suspension => "suspension point outside a state machine"
  | .fieldLoad => "field load Idx::<MemberRef>(_)"
  | .fieldStore => "field store Idx::<MemberRef>(_)"

/-- Why an execution ended without a result. Only a thrown value can be caught. -/
inductive RunError where
  | uninitializedLocal (id : LocalId)
  | missingArgument (id : ParamId)
  | typeMismatch (expected : Expectation) (got : Value)
  | divisionByZero
  | undefinedLabel (label : LabelId)
  | undefinedMethod (method : SynthMethodId)
  | unsupported (what : Unsupported)
  | thrown (value : Value)
  | stepLimit
  deriving DecidableEq, Inhabited

/-- The name of the kind of an error. -/
def RunError.kind : RunError → String
  | .uninitializedLocal _ => "UninitializedLocal"
  | .missingArgument _ => "MissingArgument"
  | .typeMismatch _ _ => "TypeMismatch"
  | .divisionByZero => "DivisionByZero"
  | .undefinedLabel _ => "UndefinedLabel"
  | .undefinedMethod _ => "UndefinedMethod"
  | .unsupported _ => "Unsupported"
  | .thrown _ => "Thrown"
  | .stepLimit => "StepLimit"

def RunError.message : RunError → String
  | .uninitializedLocal id => "uninitialized local variable: " ++ id.display
  | .missingArgument id => "missing argument for " ++ id.display
  | .typeMismatch expected got =>
    "type mismatch: expected " ++ expected.describe ++ ", got " ++ got.describe
  | .divisionByZero => "division by zero"
  | .undefinedLabel label => "undefined label: " ++ label.display
  | .undefinedMethod m => "undefined synthesized method: " ++ m.display
  | .unsupported what => "unsupported operation: " ++ what.describe
  | .thrown value => "unhandled exception: " ++ value.display
  | .stepLimit => "step limit exceeded"

end ManagedCode
