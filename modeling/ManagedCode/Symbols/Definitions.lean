import ManagedCode.Symbols.TypeTable

namespace ManagedCode

structure Version where
  major : UInt16 := 1
  minor : UInt16 := 0
  build : UInt16 := 0
  revision : UInt16 := 0
  deriving DecidableEq, Inhabited

structure AssemblyDef where
  name : String
  version : Version := {}
  deriving DecidableEq, Inhabited

structure ModuleDef where
  name : String
  assembly : AssemblyId
  file : FileId
  deriving DecidableEq, Inhabited

structure FileDef where
  name : String
  assembly : AssemblyId
  containsMetadata : Bool := true
  deriving DecidableEq, Inhabited

structure TypeDef where
  name : String
  nameSpace : Option String := none
  module : ModuleId
  /-- The types around this one, innermost first; empty at top level. -/
  enclosing : List TypeDefId := []
  genericArity : Nat := 0
  isValueType : Bool := false
  base : Option Ty := none
  fields : List FieldId := []
  methods : List MethodId := []
  deriving DecidableEq, Inhabited

structure FieldDef where
  name : String
  owner : TypeDefId
  ty : Ty
  isStatic : Bool := false
  deriving DecidableEq, Inhabited

structure ParamDef where
  name : String
  ty : Ty
  deriving DecidableEq, Inhabited

structure MethodDef where
  name : String
  owner : TypeDefId
  params : List ParamDef
  ret : Ty
  genericArity : Nat := 0
  isStatic : Bool := false
  deriving DecidableEq, Inhabited

/-- How a method is called. -/
structure MethodSignature where
  params : List Ty
  ret : Ty
  hasThis : Bool
  genericArity : Nat := 0
  deriving DecidableEq, Inhabited

/-- The signature of a method as it is defined. -/
def MethodDef.signature (method : MethodDef) : MethodSignature :=
  { params := method.params.map (·.ty)
    ret := method.ret
    hasThis := !method.isStatic
    genericArity := method.genericArity }

/-- The definitions of a program, each numbered from 0 among its kind, and the types and
member uses met so far. -/
structure Symbols where
  assemblies : List AssemblyDef := []
  modules : List ModuleDef := []
  files : List FileDef := []
  typeDefs : List TypeDef := []
  fields : List FieldDef := []
  methods : List MethodDef := []
  types : TypeTable := {}
  members : MemberTable := {}
  deriving Inhabited

namespace Symbols

variable (symbols : Symbols)

/-! An id that the table never gave out reads as an empty definition. Programs have no such ids:
results that promise success ask for ids in scope, or for a visit of the same ids that succeeded,
and lowering has a fault of its own for a method that is not there. -/

def assembly (id : AssemblyId) : AssemblyDef := symbols.assemblies.getD id.index default

def module (id : ModuleId) : ModuleDef := symbols.modules.getD id.index default

def file (id : FileId) : FileDef := symbols.files.getD id.index default

def typeDef (id : TypeDefId) : TypeDef := symbols.typeDefs.getD id.index default

def field (id : FieldId) : FieldDef := symbols.fields.getD id.index default

def method (id : MethodId) : MethodDef := symbols.methods.getD id.index default

def addAssembly (name : String) (version : Version := {}) : AssemblyId × Symbols :=
  (⟨symbols.assemblies.length⟩,
    { symbols with assemblies := symbols.assemblies ++ [{ name, version }] })

/-- A module comes with the manifest file of the same name. -/
def addModule (assembly : AssemblyId) (name : String) : ModuleId × Symbols :=
  let file : FileId := ⟨symbols.files.length⟩
  (⟨symbols.modules.length⟩,
    { symbols with
      files := symbols.files ++ [{ name, assembly }]
      modules := symbols.modules ++ [{ name, assembly, file }] })

def addTypeDef (typeDef : TypeDef) : TypeDefId × Symbols :=
  (⟨symbols.typeDefs.length⟩, { symbols with typeDefs := symbols.typeDefs ++ [typeDef] })

def addType (module : ModuleId) (nameSpace : Option String) (name : String)
    (genericArity : Nat) : TypeDefId × Symbols :=
  symbols.addTypeDef { name, nameSpace, module, genericArity }

/-- A nested type lives in the module of the type around it and has no namespace. -/
def addNestedType (encloser : TypeDefId) (name : String) (genericArity : Nat) :
    TypeDefId × Symbols :=
  let outer := symbols.typeDef encloser
  symbols.addTypeDef
    { name, module := outer.module, enclosing := encloser :: outer.enclosing, genericArity }

def modifyTypeDef (id : TypeDefId) (f : TypeDef → TypeDef) : Symbols :=
  { symbols with typeDefs := symbols.typeDefs.modify id.index f }

def internTy (ty : Ty) : TyId × Symbols :=
  let (id, types) := symbols.types.internTy ty
  (id, { symbols with types })

/-- Numbers the types of a member use, then the use. -/
def internMember (member : MemberRef) : Nat × Symbols :=
  let (id, members) := symbols.members.internMember member
  (id, { symbols with types := symbols.types.addTys member.types, members })

def addField (owner : TypeDefId) (name : String) (ty : Ty) (isStatic : Bool := false) :
    FieldId × Symbols :=
  let id : FieldId := ⟨symbols.fields.length⟩
  let (_, types) := symbols.types.internTy ty
  let fields := symbols.fields ++ [{ name, owner, ty, isStatic }]
  let typeDefs := symbols.typeDefs.modify owner.index
    fun d => { d with fields := d.fields ++ [id] }
  (id, { symbols with types, fields, typeDefs })

def addMethod (owner : TypeDefId) (name : String) (params : List ParamDef) (ret : Ty)
    (genericArity : Nat := 0) (isStatic : Bool := false) : MethodId × Symbols :=
  let id : MethodId := ⟨symbols.methods.length⟩
  let types := symbols.types.addTys (params.map (·.ty) ++ [ret])
  let method : MethodDef := { name, owner, params, ret, genericArity, isStatic }
  let methods := symbols.methods ++ [method]
  let typeDefs := symbols.typeDefs.modify owner.index
    fun d => { d with methods := d.methods ++ [id] }
  (id, { symbols with types, methods, typeDefs })

def setBase (id : TypeDefId) (base : Ty) : Symbols :=
  (symbols.internTy base).2.modifyTypeDef id fun d => { d with base := some base }

def setValueType (id : TypeDefId) (isValueType : Bool) : Symbols :=
  symbols.modifyTypeDef id fun d => { d with isValueType }

/-- Says whether the file of a module carries metadata. -/
def setContainsMetadata (id : ModuleId) (containsMetadata : Bool) : Symbols :=
  { symbols with
    files := symbols.files.modify (symbols.module id).file.index
      fun f => { f with containsMetadata } }

/-- The type a nested type is declared in. -/
def encloser? (id : TypeDefId) : Option TypeDefId :=
  (symbols.typeDef id).enclosing.head?

def isDefinedIn (id : TypeDefId) (module : ModuleId) : Bool :=
  (symbols.typeDef id).module = module

def assemblyOf (id : TypeDefId) : AssemblyId :=
  (symbols.module (symbols.typeDef id).module).assembly

/-- The type definitions of a module, in definition order. -/
def typeDefsIn (module : ModuleId) : List TypeDefId :=
  ((List.range symbols.typeDefs.length).map TypeDefId.mk).filter (symbols.isDefinedIn · module)

/-- The definition that declares a member. -/
def memberOwner : MemberRef → TypeDefId
  | .field f | .specializedField f _ => (symbols.field f).owner
  | .method m | .specializedMethod m _ => (symbols.method m).owner
  | .methodInstance m _ => memberOwner m

end Symbols

end ManagedCode
