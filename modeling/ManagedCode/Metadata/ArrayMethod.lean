import ManagedCode.Metadata.Fault

namespace ManagedCode

/-- A member of a multi-dimensional array type. Such types have no definition, so their members
are made up where code uses them. -/
structure ArrayMethod where
  kind : ArrayMethodKind
  arrayTy : Ty
  elementTy : Ty
  signature : MethodSignature
  deriving DecidableEq, Inhabited

namespace ArrayMethod

/-- One 32-bit index or length for each dimension comes before anything else. -/
def build (kind : ArrayMethodKind) (arrayTy : Ty) : Except Misuse ArrayMethod :=
  match arrayTy with
  | .array element rank =>
    let indices := List.replicate rank Ty.int32
    let signature : MethodSignature :=
      match kind with
      | .constructor => { params := indices, ret := .void, hasThis := true }
      | .get => { params := indices, ret := element, hasThis := true }
      | .set => { params := indices ++ [element], ret := .void, hasThis := true }
      | .address => { params := indices, ret := .byRef element, hasThis := true }
    .ok { kind, arrayTy, elementTy := element, signature }
  | other => .error (.arrayMethod other)

end ArrayMethod

/-- The array members asked for so far; each is made once. -/
structure ArrayMethodCache where
  methods : List ArrayMethod := []
  deriving DecidableEq, Inhabited

namespace ArrayMethodCache

variable (cache : ArrayMethodCache)

def size : Nat := cache.methods.length

def isEmpty : Bool := cache.methods.isEmpty

def find? (kind : ArrayMethodKind) (arrayTy : Ty) : Option ArrayMethod :=
  cache.methods.find? fun method => method.kind = kind ∧ method.arrayTy = arrayTy

def get (kind : ArrayMethodKind) (arrayTy : Ty) :
    Except Misuse (ArrayMethod × ArrayMethodCache) := do
  match cache.find? kind arrayTy with
  | some method => return (method, cache)
  | none =>
    let method ← ArrayMethod.build kind arrayTy
    return (method, ⟨cache.methods ++ [method]⟩)

end ArrayMethodCache

end ManagedCode
