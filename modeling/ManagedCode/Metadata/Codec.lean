import ManagedCode.Metadata.Image

namespace ManagedCode

/-- Why bytes are no encoded image. -/
inductive DecodeFault where
  /-- A list is said to be so long that no memory could hold it. -/
  | capacityOverflow
  | unexpectedEnd
  | invalidIntegerType
  | invalidBooleanValue
  | utf8
  deriving DecidableEq, Inhabited

def DecodeFault.name : DecodeFault → String
  | .capacityOverflow => "capacity overflow"
  | .unexpectedEnd => "UnexpectedEnd"
  | .invalidIntegerType => "InvalidIntegerType"
  | .invalidBooleanValue => "InvalidBooleanValue"
  | .utf8 => "Utf8"

/-- A way to write values as bytes and to read one from the front of some bytes. -/
structure Codec (α : Type) where
  encode : α → List UInt8
  decode : List UInt8 → Except DecodeFault (α × List UInt8)

namespace Codec

/-- The given number of bytes from the front. -/
def takeBytes (count : Nat) (bytes : List UInt8) : Except DecodeFault (List UInt8 × List UInt8) :=
  if count ≤ bytes.length then
    .ok (bytes.take count, bytes.drop count)
  else
    .error .unexpectedEnd

/-- A number in the given number of bytes, least significant first. -/
def littleEndian : (width value : Nat) → List UInt8
  | 0, _ => []
  | width + 1, value => .ofNat value :: littleEndian width (value / 0x100)

def ofLittleEndian : List UInt8 → Nat
  | [] => 0
  | byte :: bytes => byte.toNat + 0x100 * ofLittleEndian bytes

/-- The first byte of a number that follows it in two, four or eight bytes; a smaller first byte
is the number itself. -/
def marker : Nat → UInt8
  | 2 => 251
  | 4 => 252
  | _ => 253

/-- How many bytes follow a marker. -/
def markedWidth? : UInt8 → Option Nat
  | 251 => some 2
  | 252 => some 4
  | 253 => some 8
  | _ => none

/-- Writes a number in the shortest of the forms. -/
def encodeNat (value : Nat) : List UInt8 :=
  if value < 251 then
    [.ofNat value]
  else
    let width := if value < 0x10000 then 2 else if value < 0x100000000 then 4 else 8
    marker width :: littleEndian width value

/-- Reads a number in any form that is no wider than the field it is read for. -/
def decodeNat (fieldWidth : Nat) : List UInt8 → Except DecodeFault (Nat × List UInt8)
  | [] => .error .unexpectedEnd
  | first :: rest =>
    if first < 251 then
      .ok (first.toNat, rest)
    else
      match markedWidth? first with
      | some width =>
        if width ≤ fieldWidth then do
          let (number, rest) ← takeBytes width rest
          return (ofLittleEndian number, rest)
        else
          .error .invalidIntegerType
      | none => .error .invalidIntegerType

/-- A codec for values that are written and read as other values. -/
def map {α β : Type} (codec : Codec α) (out : β → α) (into : α → β) : Codec β where
  encode value := codec.encode (out value)
  decode bytes := do
    let (value, rest) ← codec.decode bytes
    return (into value, rest)

def pair {α β : Type} (first : Codec α) (second : Codec β) : Codec (α × β) where
  encode value := first.encode value.1 ++ second.encode value.2
  decode bytes := do
    let (a, bytes) ← first.decode bytes
    let (b, bytes) ← second.decode bytes
    return ((a, b), bytes)

def uint16 : Codec UInt16 where
  encode value := encodeNat value.toNat
  decode bytes := do
    let (value, rest) ← decodeNat 2 bytes
    return (.ofNat value, rest)

def uint32 : Codec UInt32 where
  encode value := encodeNat value.toNat
  decode bytes := do
    let (value, rest) ← decodeNat 4 bytes
    return (.ofNat value, rest)

def bool : Codec Bool where
  encode value := [if value then 1 else 0]
  decode
    | [] => .error .unexpectedEnd
    | 0 :: rest => .ok (false, rest)
    | 1 :: rest => .ok (true, rest)
    | _ :: _ => .error .invalidBooleanValue

/-- How many bytes memory can hold. -/
def memoryLimit : Nat := 0x7fffffffffffffff

/-- The length of a list whose elements take up `size` bytes of memory each. -/
def decodeLength (size : Nat) (bytes : List UInt8) : Except DecodeFault (Nat × List UInt8) := do
  let (count, rest) ← decodeNat 8 bytes
  if count * size ≤ memoryLimit then
    return (count, rest)
  else
    throw .capacityOverflow

/-- Bytes after their number. -/
def bytes : Codec (List UInt8) where
  encode value := encodeNat value.length ++ value
  decode bytes := do
    let (count, rest) ← decodeLength 1 bytes
    takeBytes count rest

/-- A text by its UTF-8 bytes. -/
def text : Codec String where
  encode value := bytes.encode (utf8Bytes value)
  decode input := do
    let (value, rest) ← bytes.decode input
    match ofUtf8Bytes? value with
    | some value => return (value, rest)
    | none => throw .utf8

def decodeMany {α : Type} (codec : Codec α) :
    Nat → List UInt8 → Except DecodeFault (List α × List UInt8)
  | 0, bytes => .ok ([], bytes)
  | count + 1, bytes => do
    let (value, bytes) ← codec.decode bytes
    let (values, bytes) ← decodeMany codec count bytes
    return (value :: values, bytes)

/-- Values after their number, each of which takes up `size` bytes of memory. -/
def list {α : Type} (size : Nat) (codec : Codec α) : Codec (List α) where
  encode values := encodeNat values.length ++ values.flatMap codec.encode
  decode bytes := do
    let (count, bytes) ← decodeLength size bytes
    decodeMany codec count bytes

/-! Rows, field by field. -/

def version : Codec Version :=
  (pair uint16 (pair uint16 (pair uint16 uint16))).map
    (fun v => (v.major, v.minor, v.build, v.revision))
    fun (major, minor, build, revision) => { major, minor, build, revision }

def assemblyRefRow : Codec AssemblyRefRow :=
  (pair uint32 version).map (fun row => (row.name, row.version))
    fun (name, version) => { name, version }

def moduleRefRow : Codec ModuleRefRow :=
  uint32.map (·.name) fun name => { name }

def fileRow : Codec FileRow :=
  (pair uint32 bool).map (fun row => (row.name, row.containsMetadata))
    fun (name, containsMetadata) => { name, containsMetadata }

def typeRefRow : Codec TypeRefRow :=
  (pair uint32 (pair uint32 uint32)).map (fun row => (row.scope, row.name, row.nameSpace))
    fun (scope, name, nameSpace) => { scope, name, nameSpace }

def typeSpecRow : Codec TypeSpecRow :=
  uint32.map (·.signature) fun signature => { signature }

def memberRefRow : Codec MemberRefRow :=
  (pair uint32 (pair uint32 uint32)).map (fun row => (row.parent, row.name, row.signature))
    fun (parent, name, signature) => { parent, name, signature }

def methodSpecRow : Codec MethodSpecRow :=
  (pair uint32 uint32).map (fun row => (row.method, row.instantiation))
    fun (method, instantiation) => { method, instantiation }

def typeDefRow : Codec TypeDefRow :=
  (pair uint32 (pair uint32 (pair uint32 (pair uint32 (pair uint32 uint32))))).map
    (fun row => (row.name, row.nameSpace, row.extends_, row.enclosing, row.fieldList,
      row.methodList))
    fun (name, nameSpace, extends_, enclosing, fieldList, methodList) =>
      { name, nameSpace, extends_, enclosing, fieldList, methodList }

def memberDefRow : Codec MemberDefRow :=
  (pair uint32 uint32).map (fun row => (row.name, row.signature))
    fun (name, signature) => { name, signature }

/-- An image: its name and heaps, then the tables of references and of definitions. -/
def image : Codec TablesImage :=
  (pair text <| pair bytes <| pair bytes <| pair (list 12 assemblyRefRow) <|
    pair (list 4 moduleRefRow) <| pair (list 8 fileRow) <| pair (list 12 typeRefRow) <|
    pair (list 4 typeSpecRow) <| pair (list 12 memberRefRow) <| pair (list 8 methodSpecRow) <|
    pair (list 24 typeDefRow) <| pair (list 8 memberDefRow) (list 8 memberDefRow)).map
    (fun i => (i.moduleName, i.strings, i.blobs, i.assemblyRefs, i.moduleRefs, i.files, i.typeRefs,
      i.typeSpecs, i.memberRefs, i.methodSpecs, i.typeDefs, i.fields, i.methods))
    fun (moduleName, strings, blobs, assemblyRefs, moduleRefs, files, typeRefs, typeSpecs,
        memberRefs, methodSpecs, typeDefs, fields, methods) =>
      { moduleName, strings, blobs, assemblyRefs, moduleRefs, files, typeRefs, typeSpecs,
        memberRefs, methodSpecs, typeDefs, fields, methods }

end Codec

namespace TablesImage

def encode (image : TablesImage) : List UInt8 := Codec.image.encode image

/-- Reads an image; what follows it is not looked at. -/
def decode (bytes : List UInt8) : Except DecodeFault TablesImage := do
  return (← Codec.image.decode bytes).1

end TablesImage

end ManagedCode
