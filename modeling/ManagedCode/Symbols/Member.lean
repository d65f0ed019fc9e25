import ManagedCode.Symbols.Ty

namespace ManagedCode

/-- A use of a field or method: as defined, through an instantiated container, or with
generic method arguments. -/
inductive MemberRef where
  | field (field : FieldId)
  | method (method : MethodId)
  | specializedField (field : FieldId) (container : Ty)
  | specializedMethod (method : MethodId) (container : Ty)
  | methodInstance (method : MemberRef) (args : List Ty)
  deriving DecidableEq, Inhabited

namespace MemberRef

/-- The same member seen through its own definition. -/
def unspecialized? : MemberRef → Option MemberRef
  | .specializedField f _ => some (.field f)
  | .specializedMethod m _ => some (.method m)
  | _ => none

def isMethod : MemberRef → Bool
  | .field _ | .specializedField _ _ => false
  | .method _ | .specializedMethod _ _ | .methodInstance _ _ => true

end MemberRef

end ManagedCode
