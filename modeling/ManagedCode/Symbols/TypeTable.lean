import ManagedCode.Intern
import ManagedCode.Symbols.Member

namespace ManagedCode

structure TyId where
  index : Nat
  deriving DecidableEq, Inhabited

/-- Types numbered in the order of first sight. The parts of a type come before it. -/
abbrev TypeTable := InternTable Ty

namespace TypeTable

def id? (table : TypeTable) (ty : Ty) : Option TyId :=
  (table.lookup? ty).map TyId.mk

def ty? (table : TypeTable) (id : TyId) : Option Ty :=
  table.get? id.index

mutual

/-- The number of a type. A new type is added after its parts, which are added left to right; a
type that is there already has its parts there. -/
def internTy (table : TypeTable) (ty : Ty) : TyId × TypeTable :=
  match table.id? ty with
  | some id => (id, table)
  | none =>
    let table :=
      match ty with
      | .inst _ args => addTys table args
      | .vector t | .array t _ | .pointer t | .byRef t => (internTy table t).2
      | _ => table
    let (index, table) := InternTable.intern table ty
    (⟨index⟩, table)

/-- Adds types from the left. -/
def addTys (table : TypeTable) : List Ty → TypeTable
  | [] => table
  | t :: ts => addTys (internTy table t).2 ts

end

end TypeTable

/-- Member uses numbered in order of first sight. -/
abbrev MemberTable := InternTable MemberRef

namespace MemberTable

/-- The number of a member use. A new one is added after the one that it instantiates. -/
def internMember (table : MemberTable) (member : MemberRef) : Nat × MemberTable :=
  match table.lookup? member with
  | some id => (id, table)
  | none =>
    let table :=
      match member with
      | .methodInstance method _ => (internMember table method).2
      | _ => table
    InternTable.intern table member

end MemberTable

namespace MemberRef

/-- The types written in a member use, in reading order. -/
def types : MemberRef → List Ty
  | .field _ | .method _ => []
  | .specializedField _ container | .specializedMethod _ container => [container]
  | .methodInstance m args => m.types ++ args

end MemberRef

end ManagedCode
