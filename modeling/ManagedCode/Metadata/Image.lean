import ManagedCode.Metadata.Heap
import ManagedCode.Symbols.Definitions

namespace ManagedCode

/-! The rows of metadata tables. Names and signatures are heap offsets; rows of other tables are
given by their raw tokens. -/

structure AssemblyRefRow where
  name : UInt32
  version : Version
  deriving DecidableEq, Inhabited

structure ModuleRefRow where
  name : UInt32
  deriving DecidableEq, Inhabited

structure FileRow where
  name : UInt32
  containsMetadata : Bool
  deriving DecidableEq, Inhabited

structure TypeRefRow where
  /-- The enclosing type, or the module or assembly of a type at top level. -/
  scope : UInt32
  name : UInt32
  nameSpace : UInt32
  deriving DecidableEq, Inhabited

structure TypeSpecRow where
  signature : UInt32
  deriving DecidableEq, Inhabited

structure MemberRefRow where
  /-- The type that the member is referenced through. -/
  parent : UInt32
  name : UInt32
  signature : UInt32
  deriving DecidableEq, Inhabited

structure MethodSpecRow where
  method : UInt32
  instantiation : UInt32
  deriving DecidableEq, Inhabited

structure TypeDefRow where
  name : UInt32
  nameSpace : UInt32
  /-- The base type, or zero. -/
  extends_ : UInt32
  /-- The enclosing type, or zero. -/
  enclosing : UInt32
  /-- The row of the first field of this type. -/
  fieldList : UInt32
  /-- The row of the first method of this type. -/
  methodList : UInt32
  deriving DecidableEq, Inhabited

structure MemberDefRow where
  name : UInt32
  signature : UInt32
  deriving DecidableEq, Inhabited

/-- The metadata tables of a module with their heaps. -/
structure TablesImage where
  moduleName : String := ""
  strings : List UInt8 := []
  blobs : List UInt8 := []
  assemblyRefs : List AssemblyRefRow := []
  moduleRefs : List ModuleRefRow := []
  files : List FileRow := []
  typeRefs : List TypeRefRow := []
  typeSpecs : List TypeSpecRow := []
  memberRefs : List MemberRefRow := []
  methodSpecs : List MethodSpecRow := []
  typeDefs : List TypeDefRow := []
  fields : List MemberDefRow := []
  methods : List MemberDefRow := []
  deriving DecidableEq, Inhabited

namespace TablesImage

variable (image : TablesImage)

def rowCount : TableKind → Nat
  | .typeRef => image.typeRefs.length
  | .typeDef => image.typeDefs.length
  | .field => image.fields.length
  | .methodDef => image.methods.length
  | .memberRef => image.memberRefs.length
  | .moduleRef => image.moduleRefs.length
  | .typeSpec => image.typeSpecs.length
  | .assemblyRef => image.assemblyRefs.length
  | .file => image.files.length
  | .methodSpec => image.methodSpecs.length

def string? (offset : UInt32) : Option String :=
  StringHeap.read? image.strings offset.toNat

def blob? (offset : UInt32) : Option (List UInt8) :=
  BlobHeap.read? image.blobs offset.toNat

end TablesImage

end ManagedCode
