import ManagedCode.Metadata.RefKey

namespace ManagedCode

/-- A module to be written, with the program it is part of. -/
structure Target where
  symbols : Symbols
  module : ModuleId
  deriving Inhabited

namespace Target

variable (target : Target)

/-- The assembly the module belongs to. -/
def assembly : AssemblyId := (target.symbols.module target.module).assembly

/-- Whether a type definition is one of the module's own. -/
def isLocal (d : TypeDefId) : Bool := target.symbols.isDefinedIn d target.module

/-! The module's own definitions in row order. The fields of a type have consecutive rows, and
so have its methods. -/

def typeDefs : List TypeDefId := target.symbols.typeDefsIn target.module

def fields : List FieldId := target.typeDefs.flatMap fun d => (target.symbols.typeDef d).fields

def methods : List MethodId := target.typeDefs.flatMap fun d => (target.symbols.typeDef d).methods

def typeDefToken? (d : TypeDefId) : Option Token :=
  (target.typeDefs.idxOf? d).map fun i => Token.ofRow .typeDef (i + 1)

def fieldToken? (f : FieldId) : Option Token :=
  (target.fields.idxOf? f).map fun i => Token.ofRow .field (i + 1)

def methodToken? (m : MethodId) : Option Token :=
  (target.methods.idxOf? m).map fun i => Token.ofRow .methodDef (i + 1)

/-- The token of the definition that a reference names, if the module defines it. -/
def definition? : RefKey → Option Token
  | .type (.named d) => target.typeDefToken? d
  | .member (.field f) => target.fieldToken? f
  | .member (.method m) => target.methodToken? m
  | _ => none

end Target

end ManagedCode
