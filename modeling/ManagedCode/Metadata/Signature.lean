import ManagedCode.Metadata.Session

namespace ManagedCode

/-- The byte that stands for a primitive type in signatures. -/
def Primitive.elementCode : Primitive → UInt8
  | .void => 0x01
  | .bool => 0x02
  | .char => 0x03
  | .int8 => 0x04
  | .uint8 => 0x05
  | .int16 => 0x06
  | .uint16 => 0x07
  | .int32 => 0x08
  | .uint32 => 0x09
  | .int64 => 0x0A
  | .uint64 => 0x0B
  | .float32 => 0x0C
  | .float64 => 0x0D
  | .string => 0x0E
  | .nativeInt => 0x18
  | .nativeUInt => 0x19
  | .object => 0x1C

namespace Signature

def pointerCode : UInt8 := 0x0F

def byRefCode : UInt8 := 0x10

def valueTypeCode : UInt8 := 0x11

def classCode : UInt8 := 0x12

def typeParamCode : UInt8 := 0x13

def arrayCode : UInt8 := 0x14

def instanceCode : UInt8 := 0x15

def vectorCode : UInt8 := 0x1D

def methodParamCode : UInt8 := 0x1E

/-- The first byte of the signature of a field. -/
def fieldCode : UInt8 := 0x06

/-- The first byte of the arguments of a generic method. -/
def methodInstanceCode : UInt8 := 0x0A

/-- The first byte of the signature of a method: whether it is called on a receiver, and
whether it is generic. -/
def methodCode (hasThis isGeneric : Bool) : UInt8 :=
  (if hasThis then 0x20 else 0x00) + (if isGeneric then 0x10 else 0x00)

/-- The index of a type token in a signature. -/
def typeIndex (token : Token) : Except Misuse Nat :=
  match token.typeIndex? with
  | some index => .ok index
  | none => .error (.typeIndex token)

variable (target : Target) (session : Session)

/-- A type definition: whether it is a value type, and the index of its token. -/
def encodeNamed (d : TypeDefId) : Except Fault (List UInt8) := do
  let token ← session.lookup target (.type (.named d))
  let index ← (typeIndex token).mapError .misuse
  let code := if (target.symbols.typeDef d).isValueType then valueTypeCode else classCode
  return code :: (← Compressed.encode index)

mutual

/-- Arrays are written without sizes and lower bounds. Counts are numbers without a bound, so lists of
0x100000000 parts and more, whose count does not fit 32 bits, are refused with all that are too
long. -/
def encodeTy : Ty → Except Fault (List UInt8)
  | .primitive p => return [p.elementCode]
  | .named d => encodeNamed target session d
  | .inst d args => do
    let definition ← encodeNamed target session d
    let count ← Compressed.encode args.length
    return instanceCode :: definition ++ count ++ (← encodeTys args)
  | .typeParam i => return typeParamCode :: (← Compressed.encode i)
  | .methodParam i => return methodParamCode :: (← Compressed.encode i)
  | .vector t => return vectorCode :: (← encodeTy t)
  | .array t rank => do
    let element ← encodeTy t
    return arrayCode :: element ++ (← Compressed.encode rank) ++ [0, 0]
  | .pointer t => return pointerCode :: (← encodeTy t)
  | .byRef t => return byRefCode :: (← encodeTy t)

def encodeTys : List Ty → Except Fault (List UInt8)
  | [] => return []
  | t :: ts => do
    let first ← encodeTy t
    return first ++ (← encodeTys ts)

end

def encodeField (ty : Ty) : Except Fault (List UInt8) :=
  return fieldCode :: (← encodeTy target session ty)

def encodeMethod (signature : MethodSignature) : Except Fault (List UInt8) := do
  let isGeneric : Bool := signature.genericArity > 0
  let arity ← if isGeneric then Compressed.encode signature.genericArity else pure []
  let count ← Compressed.encode signature.params.length
  let ret ← encodeTy target session signature.ret
  let params ← encodeTys target session signature.params
  return methodCode signature.hasThis isGeneric :: arity ++ count ++ ret ++ params

/-- The arguments of a generic method. -/
def encodeMethodInstance (args : List Ty) : Except Fault (List UInt8) := do
  let count ← Compressed.encode args.length
  return methodInstanceCode :: count ++ (← encodeTys target session args)

end Signature

end ManagedCode
