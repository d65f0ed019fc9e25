import ManagedCode.Symbols.Member

namespace ManagedCode

structure LocalId where
  index : Nat
  deriving DecidableEq, Inhabited

structure ParamId where
  index : Nat
  deriving DecidableEq, Inhabited

structure LabelId where
  index : Nat
  deriving DecidableEq, Inhabited

structure TryId where
  index : Nat
  deriving DecidableEq, Inhabited

/-- A field of the machine a body belongs to. -/
structure FieldSlot where
  index : Nat
  deriving DecidableEq, Inhabited

/-- A method made along with a machine. -/
structure SynthMethodId where
  index : Nat
  deriving DecidableEq, Inhabited

inductive Constant where
  | int (value : Int64)
  | bool (value : Bool)
  | null
  deriving DecidableEq, Inhabited

inductive BinaryOp where
  | add
  | sub
  | mul
  | div
  | rem
  | eq
  | ne
  | lt
  | le
  | gt
  | ge
  | and
  | or
  deriving DecidableEq, Inhabited

def BinaryOp.all : List BinaryOp :=
  [.add, .sub, .mul, .div, .rem, .eq, .ne, .lt, .le, .gt, .ge, .and, .or]

inductive UnaryOp where
  | neg
  | not
  deriving DecidableEq, Inhabited

inductive Callee where
  | method (member : MemberRef)
  | synthesized (method : SynthMethodId)
  deriving DecidableEq, Inhabited

mutual

/-- A field or call without a receiver is static. -/
inductive Expr where
  | const (value : Constant)
  | local (id : LocalId)
  | param (id : ParamId)
  | machineField (slot : FieldSlot)
  | field (receiver : Option Expr) (member : MemberRef)
  | call (callee : Callee) (receiver : Option Expr) (args : List Expr)
  | binary (op : BinaryOp) (lhs rhs : Expr)
  | unary (op : UnaryOp) (operand : Expr)
  | element (array : Expr) (arrayTy : Ty) (indices : List Expr)
  | addressOf (place : Place)
  | newArray (arrayTy : Ty) (lengths : List Expr)
  | typeToken (ty : Ty)

/-- Something that can be assigned to or have its address taken. -/
inductive Place where
  | local (id : LocalId)
  | param (id : ParamId)
  | machineField (slot : FieldSlot)
  | field (receiver : Option Expr) (member : MemberRef)
  | element (array : Expr) (arrayTy : Ty) (indices : List Expr)

end

instance : Inhabited Expr := ⟨.const .null⟩

instance : Inhabited Place := ⟨.local default⟩

mutual

/-- A label in a plain block can be reached from outside it; one in a try region cannot. -/
inductive Stmt where
  | block (stmts : List Stmt)
  | expr (value : Expr)
  | assign (place : Place) (value : Expr)
  | label (label : LabelId)
  | goto (target : LabelId)
  | condGoto (cond : Expr) (jumpIf : Bool) (target : LabelId)
  | switch (scrutinee : Expr) (cases : List (Int64 × LabelId)) (default? : Option LabelId)
  | ret (value : Option Expr)
  | yield (value : Expr)
  | yieldBreak
  | tryCatch (id : TryId) (body : List Stmt) (catches : List Catch)
      (finally? : Option (List Stmt))
  | tryFault (body fault : List Stmt)
  | throw (value : Expr)
  | nop

/-- A clause without an exception type catches everything. -/
inductive Catch where
  | mk (exceptionTy : Option Ty) (caught : Option LocalId) (body : List Stmt)

end

instance : Inhabited Stmt := ⟨.nop⟩

/-- What a try statement is made of. -/
structure TryStmt where
  id : TryId
  body : List Stmt
  catches : List Catch
  finally? : Option (List Stmt)

/-- The word for the kind of a statement. -/
def Stmt.kind : Stmt → String
  | .block _ => "block"
  | .expr _ => "expr"
  | .assign _ _ => "assign"
  | .label _ => "label"
  | .goto _ => "goto"
  | .condGoto _ _ _ => "cgoto"
  | .switch _ _ _ => "switch"
  | .ret _ => "return"
  | .yield _ => "yield"
  | .yieldBreak => "ybreak"
  | .tryCatch _ _ _ _ => "try"
  | .tryFault _ _ => "fault"
  | .throw _ => "throw"
  | .nop => "nop"

namespace Expr

def int (value : Int64) : Expr := .const (.int value)

def bool (value : Bool) : Expr := .const (.bool value)

/-- A call of a synthesized method of the same machine. -/
def callSynthesized (method : SynthMethodId) : Expr := .call (.synthesized method) none []

end Expr

structure LocalDecl where
  name : Option String
  ty : Ty
  deriving DecidableEq, Inhabited

/-- The code of one method. Its label and try ids lie below the two counts. -/
structure Body where
  params : List LocalDecl := []
  locals : List LocalDecl := []
  root : List Stmt
  labelCount : Nat := 0
  tryCount : Nat := 0
  deriving Inhabited

end ManagedCode
