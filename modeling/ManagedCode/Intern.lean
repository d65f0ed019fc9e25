namespace ManagedCode

/-- Distinct values numbered from 0 in the order in which they were first seen. -/
structure InternTable (α : Type) where
  entries : List α := []
  deriving DecidableEq, Inhabited

namespace InternTable

variable {α : Type}

def size (table : InternTable α) : Nat :=
  table.entries.length

def isEmpty (table : InternTable α) : Bool :=
  table.entries.isEmpty

def get? (table : InternTable α) (id : Nat) : Option α :=
  table.entries[id]?

variable [DecidableEq α]

def lookup? (table : InternTable α) (value : α) : Option Nat :=
  table.entries.idxOf? value

/-- The number of `value`, which becomes the last entry if it is new. -/
def intern (table : InternTable α) (value : α) : Nat × InternTable α :=
  match table.lookup? value with
  | some id => (id, table)
  | none => (table.size, ⟨table.entries ++ [value]⟩)

end InternTable

/-- A table of names. -/
abbrev Interner := InternTable String

/-- The text a table of values is described by. -/
def InternTable.summary {α : Type} (table : InternTable α) : String :=
  s!"InternTable \x7b len: {table.size} \x7d"

/-- The text a table of names is described by. -/
def Interner.summary (names : Interner) : String :=
  s!"Interner \x7b len: {names.size} \x7d"

end ManagedCode
