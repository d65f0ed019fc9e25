import ManagedCode.Symbols.Ty

namespace ManagedCode

/-- Arguments for the generic parameters of types and of methods. -/
structure TypeMap where
  typeArgs : List Ty := []
  methodArgs : List Ty := []
  deriving DecidableEq, Inhabited

namespace TypeMap

/-- An instantiated container supplies its arguments for type parameters. -/
def forContainer : Ty → TypeMap
  | .inst _ args => { typeArgs := args }
  | _ => {}

def withMethodArgs (map : TypeMap) (methodArgs : List Ty) : TypeMap :=
  { map with methodArgs }

def isEmpty (map : TypeMap) : Bool :=
  map.typeArgs.isEmpty && map.methodArgs.isEmpty

mutual

/-- Replaces every parameter that has an argument, all at once. -/
def substitute (map : TypeMap) : Ty → Ty
  | .primitive p => .primitive p
  | .named d => .named d
  | .inst d args => .inst d (substituteAll map args)
  | .typeParam i => map.typeArgs.getD i (.typeParam i)
  | .methodParam i => map.methodArgs.getD i (.methodParam i)
  | .vector t => .vector (substitute map t)
  | .array t rank => .array (substitute map t) rank
  | .pointer t => .pointer (substitute map t)
  | .byRef t => .byRef (substitute map t)

def substituteAll (map : TypeMap) : List Ty → List Ty
  | [] => []
  | t :: ts => substitute map t :: substituteAll map ts

end

end TypeMap

end ManagedCode
