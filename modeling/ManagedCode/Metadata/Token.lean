import ManagedCode.Text.Hex

namespace ManagedCode

/-- A metadata table. -/
inductive TableKind where
  | typeRef
  | typeDef
  | field
  | methodDef
  | memberRef
  | moduleRef
  | typeSpec
  | assemblyRef
  | file
  | methodSpec
  deriving DecidableEq, Inhabited

namespace TableKind

def all : List TableKind :=
  [.typeRef, .typeDef, .field, .methodDef, .memberRef, .moduleRef, .typeSpec, .assemblyRef,
    .file, .methodSpec]

/-- The tables that hold references, in the order in which an image lists them. -/
def references : List TableKind :=
  [.assemblyRef, .moduleRef, .file, .typeRef, .typeSpec, .memberRef, .methodSpec]

def name : TableKind → String
  | .typeRef => "TypeRef"
  | .typeDef => "TypeDef"
  | .field => "Field"
  | .methodDef => "MethodDef"
  | .memberRef => "MemberRef"
  | .moduleRef => "ModuleRef"
  | .typeSpec => "TypeSpec"
  | .assemblyRef => "AssemblyRef"
  | .file => "File"
  | .methodSpec => "MethodSpec"

/-- The high byte of the tokens of a table. -/
def tag : TableKind → Nat
  | .typeRef => 0x01
  | .typeDef => 0x02
  | .field => 0x04
  | .methodDef => 0x06
  | .memberRef => 0x0A
  | .moduleRef => 0x1A
  | .typeSpec => 0x1B
  | .assemblyRef => 0x23
  | .file => 0x26
  | .methodSpec => 0x2B

def ofTag? (tag : Nat) : Option TableKind :=
  all.find? (·.tag = tag)

theorem ofTag?_tag (table : TableKind) : ofTag? table.tag = some table := by
  cases table <;> rfl

theorem tag_lt (table : TableKind) : table.tag < 256 := by
  cases table <;> decide

end TableKind

/-- The place of a row: the tag of its table in the high byte, its number from 1 below it. -/
structure Token where
  raw : UInt32
  deriving DecidableEq, Inhabited

namespace Token

/-- One more than the largest row number a token has room for. -/
def rowLimit : Nat := 0x1000000

/-- A row number that is too large loses its high bits. -/
def ofRow (table : TableKind) (row : Nat) : Token :=
  ⟨UInt32.ofNat (table.tag * rowLimit + row % rowLimit)⟩

def table? (token : Token) : Option TableKind :=
  TableKind.ofTag? (token.raw.toNat / rowLimit)

def row (token : Token) : Nat :=
  token.raw.toNat % rowLimit

theorem raw_ofRow (table : TableKind) (row : Nat) :
    (ofRow table row).raw.toNat = table.tag * rowLimit + row % rowLimit := by
  have htag := table.tag_lt
  have hrow : row % rowLimit < rowLimit := Nat.mod_lt _ (by decide)
  simp only [ofRow, UInt32.toNat_ofNat', rowLimit] at *
  omega

theorem table?_ofRow (table : TableKind) (row : Nat) : (ofRow table row).table? = some table := by
  have hrow : row % rowLimit < rowLimit := Nat.mod_lt _ (by decide)
  have hdiv : (table.tag * rowLimit + row % rowLimit) / rowLimit = table.tag := by
    simp only [rowLimit] at *
    omega
  rw [table?, raw_ofRow, hdiv, TableKind.ofTag?_tag]

theorem row_ofRow (table : TableKind) (row : Nat) : (ofRow table row).row = row % rowLimit := by
  rw [Token.row, raw_ofRow]
  simp only [rowLimit]
  omega

/-- Tokens are ordered by table tag, then by row. -/
instance : LT Token := ⟨fun a b => a.raw < b.raw⟩

instance (a b : Token) : Decidable (a < b) :=
  inferInstanceAs (Decidable (a.raw < b.raw))

def display (token : Token) : String := Hex.word token.raw

/-- The text of a token with the kind of value it is. -/
def describe (token : Token) : String := "Token(" ++ token.display ++ ")"

/-- The index by which a signature names a type: the row number above two bits for the table. -/
def typeIndex? (token : Token) : Option Nat :=
  match token.table? with
  | some .typeDef => some (token.row * 4)
  | some .typeRef => some (token.row * 4 + 1)
  | some .typeSpec => some (token.row * 4 + 2)
  | _ => none

end Token

end ManagedCode
