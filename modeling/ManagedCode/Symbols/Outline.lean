import ManagedCode.Symbols.TypeTable

namespace ManagedCode

/-- The short code of a primitive in outlines. -/
def Primitive.code : Primitive → String
  | .void => "Void"
  | .bool => "Bool"
  | .char => "Char"
  | .int8 => "I1"
  | .uint8 => "U1"
  | .int16 => "I2"
  | .uint16 => "U2"
  | .int32 => "I4"
  | .uint32 => "U4"
  | .int64 => "I8"
  | .uint64 => "U8"
  | .float32 => "R4"
  | .float64 => "R8"
  | .string => "String"
  | .object => "Object"
  | .nativeInt => "IntPtr"
  | .nativeUInt => "UIntPtr"

namespace Outline

/-! An outline shows the outermost constructor of a value and hides the ids in it. -/

/-- A hidden id of the given kind. -/
def hidden (kind : String) : String := "Idx::<" ++ kind ++ ">(_)"

def tyId : String := hidden "TyKind"

def memberId : String := hidden "MemberRef"

def typeDefId : String := hidden "TypeDef"

def fieldId : String := hidden "FieldDef"

def methodId : String := hidden "MethodDef"

def tyIds (args : List Ty) : String :=
  "[" ++ ", ".intercalate (args.map fun _ => tyId) ++ "]"

/-- A constructor with named parts. -/
def record (name : String) (parts : List (String × String)) : String :=
  name ++ " \x7b " ++ ", ".intercalate (parts.map fun (key, value) => key ++ ": " ++ value) ++
    " \x7d"

/-- A constructor with one or more parts in order. -/
def application (name : String) (parts : List String) : String :=
  name ++ "(" ++ ", ".intercalate parts ++ ")"

end Outline

open Outline in
def Ty.outline : Ty → String
  | .primitive p => application "Primitive" [p.code]
  | .named _ => application "Named" [typeDefId]
  | .inst _ args => record "Instance" [("def", typeDefId), ("args", tyIds args)]
  | .typeParam i => application "TypeParam" [toString i]
  | .methodParam i => application "MethodParam" [toString i]
  | .vector _ => record "Vector" [("element", tyId)]
  | .array _ rank => record "Array" [("element", tyId), ("rank", toString rank)]
  | .pointer _ => record "Pointer" [("pointee", tyId)]
  | .byRef _ => record "ByRef" [("referent", tyId)]

open Outline in
def MemberRef.outline : MemberRef → String
  | .field _ => application "Field" [fieldId]
  | .method _ => application "Method" [methodId]
  | .specializedField _ _ => record "SpecializedField" [("field", fieldId), ("container", tyId)]
  | .specializedMethod _ _ =>
    record "SpecializedMethod" [("method", methodId), ("container", tyId)]
  | .methodInstance _ args => record "MethodInstance" [("method", memberId), ("args", tyIds args)]

end ManagedCode
