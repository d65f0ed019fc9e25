import ManagedCode.Metadata.Fault
import ManagedCode.Symbols.TypeMap

namespace ManagedCode

/-- A field or method as it is defined. -/
inductive OpenMember where
  | field (field : FieldId)
  | method (method : MethodId)
  deriving DecidableEq, Inhabited

def OpenMember.ref : OpenMember → MemberRef
  | .field f => .field f
  | .method m => .method m

def OpenMember.isField : OpenMember → Bool
  | .field _ => true
  | .method _ => false

/-- A field or method seen through an instantiated container. -/
structure Specialized where
  member : OpenMember
  container : Ty
  deriving DecidableEq, Inhabited

/-- What metadata describes. Each kind of entity has some of a name, a type, a signature, a
container and generic arguments. -/
inductive Entity where
  | field (field : FieldId)
  | method (method : MethodId)
  | type (definition : TypeDefId)
  | parameter (method : MethodId) (index : Nat)
  | genericInstance (method : MemberRef) (args : List Ty)
  | specialized (member : Specialized)
  deriving DecidableEq, Inhabited

def Entity.ofMember : MemberRef → Entity
  | .field f => .field f
  | .method m => .method m
  | .specializedField f container => .specialized ⟨.field f, container⟩
  | .specializedMethod m container => .specialized ⟨.method m, container⟩
  | .methodInstance m args => .genericInstance m args

/-- The definition of a method that generic arguments are given to. -/
def MemberRef.genericMethod : MemberRef → Except Misuse MethodId
  | .method m | .specializedMethod m _ => .ok m
  | other => .error (.genericInstance other)

namespace Symbols

variable (symbols : Symbols)

def param (m : MethodId) (index : Nat) : ParamDef :=
  (symbols.method m).params.getD index default

def openName : OpenMember → String
  | .field f => (symbols.field f).name
  | .method m => (symbols.method m).name

/-- The type of a field or the return type of a method, as it is defined. -/
def openTy : OpenMember → Ty
  | .field f => (symbols.field f).ty
  | .method m => (symbols.method m).ret

/-- The signature of a method as it is defined. A field has one as well: it takes no parameters
and returns its type. -/
def openSignature : OpenMember → MethodSignature
  | .field f =>
    let field := symbols.field f
    { params := [], ret := field.ty, hasThis := !field.isStatic }
  | .method m => (symbols.method m).signature

/-- The signature of a member with the arguments of its container put in. -/
def closedSignature (member : Specialized) : MethodSignature :=
  let map := TypeMap.forContainer member.container
  let signature := symbols.openSignature member.member
  { signature with
    params := signature.params.map map.substitute
    ret := map.substitute signature.ret }

def entityName : Entity → Except Misuse String
  | .field f => .ok (symbols.field f).name
  | .method m => .ok (symbols.method m).name
  | .type d => .ok (symbols.typeDef d).name
  | .parameter m index => .ok (symbols.param m index).name
  | .genericInstance method _ => do return (symbols.method (← method.genericMethod)).name
  | .specialized s => .ok (symbols.openName s.member)

def entityTy? : Entity → Option Ty
  | .field f => some (symbols.field f).ty
  | .parameter m index => some (symbols.param m index).ty
  | .specialized ⟨.field f, _⟩ => some (symbols.field f).ty
  | _ => none

/-- The signature by which a method is written; it is the open one also for a specialized
method or a generic instance. -/
def entitySignature? : Entity → Except Misuse (Option MethodSignature)
  | .method m => .ok (some (symbols.method m).signature)
  | .genericInstance method _ => do
    return some (symbols.method (← method.genericMethod)).signature
  | .specialized ⟨.method m, _⟩ => .ok (some (symbols.method m).signature)
  | _ => .ok none

/-- The type that a member is referenced through. -/
def entityContainer? : Entity → Option Ty
  | .field f => some (.named (symbols.field f).owner)
  | .method m => some (.named (symbols.method m).owner)
  | .specialized s => some s.container
  | _ => none

end Symbols

def Entity.genericArgs? : Entity → Option (List Ty)
  | .genericInstance _ args => some args
  | _ => none

/-- The namespace of a type definition as metadata names it: empty if it has none. -/
def TypeDef.nameSpaceText (d : TypeDef) : String := d.nameSpace.getD ""

end ManagedCode
