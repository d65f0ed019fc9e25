import ManagedCode.Symbols.Definitions

namespace ManagedCode

def Primitive.display : Primitive → String
  | .void => "void"
  | .bool => "bool"
  | .char => "char"
  | .int8 => "int8"
  | .uint8 => "uint8"
  | .int16 => "int16"
  | .uint16 => "uint16"
  | .int32 => "int32"
  | .uint32 => "uint32"
  | .int64 => "int64"
  | .uint64 => "uint64"
  | .float32 => "float32"
  | .float64 => "float64"
  | .string => "string"
  | .object => "object"
  | .nativeInt => "native int"
  | .nativeUInt => "native uint"

namespace TypeDef

/-- The name of a definition behind its namespace. -/
def qualifiedName (d : TypeDef) : String :=
  match d.nameSpace with
  | some space => space ++ "." ++ d.name
  | none => d.name

end TypeDef

namespace Symbols

variable (symbols : Symbols)

/-- A nested type is written behind the types around it, outermost first. -/
def displayTypeDef (id : TypeDefId) : String :=
  "/".intercalate
    ((id :: (symbols.typeDef id).enclosing).reverse.map fun d => (symbols.typeDef d).qualifiedName)

mutual

def displayTy : Ty → String
  | .primitive p => p.display
  | .named d => symbols.displayTypeDef d
  | .inst d args => symbols.displayTypeDef d ++ "<" ++ ", ".intercalate (displayTys args) ++ ">"
  | .typeParam i => s!"!{i}"
  | .methodParam i => s!"!!{i}"
  | .vector t => displayTy t ++ "[]"
  | .array t rank => displayTy t ++ "[" ++ String.ofList (List.replicate (rank - 1) ',') ++ "]"
  | .pointer t => displayTy t ++ "*"
  | .byRef t => displayTy t ++ "&"

def displayTys : List Ty → List String
  | [] => []
  | t :: ts => displayTy t :: displayTys ts

end

def displayMember : MemberRef → String
  | .field f =>
    let field := symbols.field f
    symbols.displayTypeDef field.owner ++ "::" ++ field.name
  | .method m =>
    let method := symbols.method m
    symbols.displayTypeDef method.owner ++ "::" ++ method.name
  | .specializedField f container =>
    symbols.displayTy container ++ "::" ++ (symbols.field f).name
  | .specializedMethod m container =>
    symbols.displayTy container ++ "::" ++ (symbols.method m).name
  | .methodInstance m args =>
    displayMember m ++ "<" ++ ", ".intercalate (args.map symbols.displayTy) ++ ">"

end Symbols

end ManagedCode
