import ManagedCode.Metadata.Entity
import ManagedCode.Metadata.Image
import ManagedCode.Metadata.Signature

namespace ManagedCode

/-- The heaps of an image under construction, and the array members asked for on the way. -/
structure Draft where
  strings : StringHeap := {}
  blobs : BlobHeap := {}
  arrayMethods : ArrayMethodCache := {}
  deriving DecidableEq, Inhabited

/-- A step of laying out an image. -/
abbrev Layout := EStateM Fault Draft

namespace Layout

def addString (name : String) : Layout UInt32 := do
  let draft ← get
  let (offset, strings) := draft.strings.add name
  set { draft with strings }
  return .ofNat offset

def addBlob (blob : List UInt8) : Layout UInt32 := do
  let draft ← get
  let (offset, blobs) ← ofExcept (draft.blobs.add blob)
  set { draft with blobs }
  return .ofNat offset

def arrayMethod (kind : ArrayMethodKind) (arrayTy : Ty) : Layout ArrayMethod := do
  let draft ← get
  match draft.arrayMethods.get kind arrayTy with
  | .ok (method, arrayMethods) =>
    set { draft with arrayMethods }
    return method
  | .error misuse => throw (.misuse misuse)

variable (target : Target) (session : Session)

/-- The raw token of something that was visited before. -/
def token (key : RefKey) : Layout UInt32 := do
  return (← ofExcept (session.lookup target key)).raw

/-- The raw token of something that may be absent, which is written as zero. -/
def optionalToken : Option RefKey → Layout UInt32
  | some key => token target session key
  | none => return 0

/-! Definitions. -/

def fieldRow (f : FieldId) : Layout MemberDefRow := do
  let field := target.symbols.field f
  let signature ← ofExcept (Signature.encodeField target session field.ty)
  return { name := ← addString field.name, signature := ← addBlob signature }

def methodRow (m : MethodId) : Layout MemberDefRow := do
  let method := target.symbols.method m
  let signature ← ofExcept (Signature.encodeMethod target session method.signature)
  return { name := ← addString method.name, signature := ← addBlob signature }

/-- The row of a type definition whose fields and methods get the next rows of their tables. -/
def typeDefRow (d : TypeDefId) (fieldList methodList : Nat) : Layout TypeDefRow := do
  let typeDef := target.symbols.typeDef d
  let extends_ ← optionalToken target session (typeDef.base.map .type)
  let enclosing ← optionalToken target session
    ((target.symbols.encloser? d).map fun e => .type (.named e))
  return {
    name := ← addString typeDef.name
    nameSpace := ← addString typeDef.nameSpaceText
    extends_, enclosing
    fieldList := .ofNat fieldList
    methodList := .ofNat methodList }

/-- Adds each type definition to an image, followed by its fields and its methods. -/
def definitions (image : TablesImage) : List TypeDefId → Layout TablesImage
  | [] => return image
  | d :: ds => do
    let typeDef := target.symbols.typeDef d
    let row ← typeDefRow target session d (image.fields.length + 1) (image.methods.length + 1)
    let fields ← typeDef.fields.mapM (fieldRow target session)
    let methods ← typeDef.methods.mapM (methodRow target session)
    definitions
      { image with
        typeDefs := image.typeDefs ++ [row]
        fields := image.fields ++ fields
        methods := image.methods ++ methods } ds

/-! References. A table takes only the keys that it is the table of. -/

def assemblyRefRow : RefKey → Layout AssemblyRefRow
  | .assembly a => do
    let assembly := target.symbols.assembly a
    return { name := ← addString assembly.name, version := assembly.version }
  | key => throw (.misuse (.misfiled key .assemblyRef))

def moduleRefRow : RefKey → Layout ModuleRefRow
  | .module m => return { name := ← addString (target.symbols.module m).name }
  | key => throw (.misuse (.misfiled key .moduleRef))

def fileRow : RefKey → Layout FileRow
  | .file f => do
    let file := target.symbols.file f
    return { name := ← addString file.name, containsMetadata := file.containsMetadata }
  | key => throw (.misuse (.misfiled key .file))

/-- What a type reference is looked up in: the type around it, its module if that belongs to the
assembly being written, or its assembly. -/
def resolutionScope (d : TypeDefId) : RefKey :=
  let module := (target.symbols.typeDef d).module
  let assembly := (target.symbols.module module).assembly
  match target.symbols.encloser? d with
  | some e => .type (.named e)
  | none => if assembly = target.assembly then .module module else .assembly assembly

def typeRefRow : RefKey → Layout TypeRefRow
  | .type (.named d) => do
    let typeDef := target.symbols.typeDef d
    return {
      scope := ← token target session (resolutionScope target d)
      name := ← addString typeDef.name
      nameSpace := ← addString typeDef.nameSpaceText }
  | .type _ => throw (.misuse .constructedTypeRef)
  | key => throw (.misuse (.misfiled key .typeRef))

def typeSpecRow : RefKey → Layout TypeSpecRow
  | .type ty => do
    let signature ← ofExcept (Signature.encodeTy target session ty)
    return { signature := ← addBlob signature }
  | key => throw (.misuse (.misfiled key .typeSpec))

/-- A field or method with the type it is referenced through. -/
def memberRow (member : OpenMember) (container : Ty) : Layout MemberRefRow := do
  let symbols := target.symbols
  let signature ← ofExcept <|
    match member with
    | .field f => Signature.encodeField target session (symbols.field f).ty
    | .method m => Signature.encodeMethod target session (symbols.method m).signature
  return {
    parent := ← token target session (.type container)
    name := ← addString (symbols.openName member)
    signature := ← addBlob signature }

def memberRefRow : RefKey → Layout MemberRefRow
  | .member (.field f) =>
    memberRow target session (.field f) (.named (target.symbols.field f).owner)
  | .member (.method m) =>
    memberRow target session (.method m) (.named (target.symbols.method m).owner)
  | .member (.specializedField f container) => memberRow target session (.field f) container
  | .member (.specializedMethod m container) => memberRow target session (.method m) container
  | .member (.methodInstance _ _) => throw (.misuse .instanceMemberRef)
  | .arrayMethod kind arrayTy => do
    let method ← arrayMethod kind arrayTy
    let signature ← ofExcept (Signature.encodeMethod target session method.signature)
    return {
      parent := ← token target session (.type method.arrayTy)
      name := ← addString kind.name
      signature := ← addBlob signature }
  | key => throw (.misuse (.misfiled key .memberRef))

def methodSpecRow : RefKey → Layout MethodSpecRow
  | .member (.methodInstance method args) => do
    let instantiation ← ofExcept (Signature.encodeMethodInstance target session args)
    return {
      method := ← token target session (.member method)
      instantiation := ← addBlob instantiation }
  | .member _ => throw (.misuse .plainMethodSpec)
  | key => throw (.misuse (.misfiled key .methodSpec))

/-- The keys of a table, each made into its row. -/
def table {α : Type} (kind : TableKind) (row : RefKey → Layout α) : Layout (List α) :=
  (session.tokens.rows kind).mapM row

/-- Writes every definition of the module and every reference that has a token. -/
def image : Layout TablesImage := do
  let image ← definitions target session { moduleName := (target.symbols.module target.module).name }
    target.typeDefs
  let image : TablesImage :=
    { image with
      assemblyRefs := ← table session .assemblyRef (assemblyRefRow target)
      moduleRefs := ← table session .moduleRef (moduleRefRow target)
      files := ← table session .file (fileRow target)
      typeRefs := ← table session .typeRef (typeRefRow target session)
      typeSpecs := ← table session .typeSpec (typeSpecRow target session)
      memberRefs := ← table session .memberRef (memberRefRow target session)
      methodSpecs := ← table session .methodSpec (methodSpecRow target session) }
  let draft ← get
  return { image with strings := draft.strings.bytes, blobs := draft.blobs.bytes }

end Layout

/-- The image of everything collected so far. -/
def Target.image (target : Target) : Emit TablesImage := do
  let session ← get
  match (Layout.image target session).run { arrayMethods := session.arrayMethods } with
  | .ok image draft =>
    set { session with arrayMethods := draft.arrayMethods }
    return image
  | .error fault draft =>
    set { session with arrayMethods := draft.arrayMethods }
    throw fault

end ManagedCode
