import ManagedCode.Symbols.Display
import ManagedCode.Symbols.Outline
import ManagedCode.Metadata.Token

namespace ManagedCode

/-- What can be done through a member of a multi-dimensional array type. -/
inductive ArrayMethodKind where
  | constructor
  | get
  | set
  | address
  deriving DecidableEq, Inhabited

namespace ArrayMethodKind

/-- The name the member is referenced by. -/
def name : ArrayMethodKind → String
  | .constructor => ".ctor"
  | .get => "Get"
  | .set => "Set"
  | .address => "Address"

def outline : ArrayMethodKind → String
  | .constructor => "Constructor"
  | .get => "Get"
  | .set => "Set"
  | .address => "Address"

end ArrayMethodKind

/-- Something that can be referenced from a module. -/
inductive RefKey where
  | assembly (assembly : AssemblyId)
  | module (module : ModuleId)
  | file (file : FileId)
  | type (ty : Ty)
  | member (member : MemberRef)
  | arrayMethod (kind : ArrayMethodKind) (arrayTy : Ty)
  deriving DecidableEq, Inhabited

namespace RefKey

/-- The table in which a reference gets its row. -/
def table : RefKey → TableKind
  | .assembly _ => .assemblyRef
  | .module _ => .moduleRef
  | .file _ => .file
  | .type (.named _) => .typeRef
  | .type _ => .typeSpec
  | .member (.methodInstance _ _) => .methodSpec
  | .member _ => .memberRef
  | .arrayMethod _ _ => .memberRef

open Outline in
def outline : RefKey → String
  | .assembly _ => application "Assembly" [hidden "AssemblyDef"]
  | .module _ => application "Module" [hidden "ModuleDef"]
  | .file _ => application "File" [hidden "FileDef"]
  | .type _ => application "Type" [tyId]
  | .member _ => application "Member" [memberId]
  | .arrayMethod kind _ => application "ArrayMethod" [kind.outline, tyId]

end RefKey

namespace Symbols

def displayKey (symbols : Symbols) : RefKey → String
  | .assembly a => "assembly " ++ (symbols.assembly a).name
  | .module m => "module " ++ (symbols.module m).name
  | .file f => "file " ++ (symbols.file f).name
  | .type ty => "type " ++ symbols.displayTy ty
  | .member m => "member " ++ symbols.displayMember m
  | .arrayMethod kind ty => "array " ++ kind.name ++ " " ++ symbols.displayTy ty

end Symbols

end ManagedCode
