import ManagedCode.Metadata.Compressed
import ManagedCode.Metadata.RefKey

namespace ManagedCode

/-- A use of emission that its callers promise to avoid. -/
inductive Misuse where
  | typeIndex (token : Token)
  | byRefToken
  | arrayCreation (ty : Ty)
  | elementAccess (ty : Ty)
  | arrayMethod (ty : Ty)
  | genericInstance (member : MemberRef)
  | constructedTypeRef
  | instanceMemberRef
  | plainMethodSpec
  | misfiled (key : RefKey) (table : TableKind)
  deriving DecidableEq, Inhabited

open Outline in
def Misuse.message : Misuse → String
  | .typeIndex token =>
    let table := token.table?.elim "None" fun table => application "Some" [table.name]
    s!"COMPILER BUG: {token.display} from {table} used as a type index"
  | .byRefToken => s!"COMPILER BUG: by-ref type {tyId} used in a token context"
  | .arrayCreation ty => s!"COMPILER BUG: array creation of non-array type {ty.outline}"
  | .elementAccess ty => s!"COMPILER BUG: element access on non-array type {ty.outline}"
  | .arrayMethod ty =>
    s!"COMPILER BUG: array pseudo-method requested for non-array type {ty.outline}"
  | .genericInstance member =>
    s!"COMPILER BUG: generic instance over non-method {member.outline}"
  | .constructedTypeRef => s!"COMPILER BUG: type reference row for constructed type {tyId}"
  | .instanceMemberRef =>
    "COMPILER BUG: member reference row for GenericInstance(GenericInstanceAdapter"
  | .plainMethodSpec => s!"COMPILER BUG: method spec row for non-generic member {memberId}"
  | .misfiled key table => s!"COMPILER BUG: {key.outline} filed under {table.name}"

/-- Why emission stops. -/
inductive Fault where
  | missingToken (key : RefKey)
  | compressedOverflow (value : Nat)
  | tableFull (table : TableKind)
  | misuse (misuse : Misuse)
  deriving DecidableEq, Inhabited

def Fault.message : Fault → String
  | .missingToken key => "no token reserved for " ++ key.outline
  | .compressedOverflow value =>
    s!"value {Hex.number value} does not fit a compressed integer"
  | .tableFull table => s!"table {table.name} is full"
  | .misuse m => m.message

/-- The encoding of a value in a compressed integer. -/
def Compressed.encode (value : Nat) : Except Fault (List UInt8) :=
  match Compressed.encode? value with
  | some bytes => .ok bytes
  | none => .error (.compressedOverflow value)

end ManagedCode
