namespace ManagedCode

namespace Toml

/-- How a table came to be, which says what may still be added to it. -/
inductive Origin where
  /-- Opened by a header of its own. -/
  | header
  /-- Passed through by a longer header, and open to a header of its own. -/
  | superTable
  /-- Passed through by a dotted key, and open to other dotted keys. -/
  | dottedKey
  deriving DecidableEq, Inhabited

/-- A value of a document. Floats and dates are kept as they are written. -/
inductive Value where
  | string (text : String)
  | integer (value : Int)
  | float (text : String)
  | boolean (value : Bool)
  | datetime (text : String)
  | array (items : List Value)
  | inlineTable (entries : List (String × Value))
  | table (origin : Origin) (entries : List (String × Value))
  /-- The tables of one header in double brackets. -/
  | tables (elements : List (List (String × Value)))
  deriving Inhabited

abbrev Entries := List (String × Value)

namespace Entries

def get? (entries : Entries) (key : String) : Option Value :=
  entries.lookup key

/-- Puts a value in the place of the one of the same key, or behind the others. -/
def set (entries : Entries) (key : String) (value : Value) : Entries :=
  match entries with
  | [] => [(key, value)]
  | (k, v) :: rest => if k = key then (k, value) :: rest else (k, v) :: set rest key value

/-- Adds a key that is not there yet. -/
def addNew? (entries : Entries) (key : String) (value : Value) : Option Entries :=
  if (entries.get? key).isSome then none else some (entries ++ [(key, value)])

/-- Adds a key to the tables that a dotted key leads through. Only tables that dotted keys or
longer headers have opened can be passed, and only those of dotted keys can be added to. -/
def addDotted? (entries : Entries) (path : List String) (key : String) (value : Value) :
    Option Entries :=
  match path with
  | [] => entries.addNew? key value
  | name :: names =>
    match entries.get? name with
    | none => do
      let inner ← addDotted? [] names key value
      return entries.set name (.table .dottedKey inner)
    | some (.table origin inner) => do
      if origin = .header ∨ (names = [] ∧ origin ≠ .dottedKey) then
        none
      else
        let inner ← addDotted? inner names key value
        return entries.set name (.table origin inner)
    | some (.tables elements) => do
      if names = [] then
        none
      else
        let inner ← addDotted? (elements.getLast?.getD []) names key value
        return entries.set name (.tables (elements.dropLast ++ [inner]))
    | some _ => none

/-- Changes the entries of a table under a path of headers, opening the tables on the way. -/
def within? (entries : Entries) (path : List String) (change : Entries → Option Entries) :
    Option Entries :=
  match path with
  | [] => change entries
  | name :: names =>
    match entries.get? name with
    | none => do
      return entries.set name (.table .superTable (← within? [] names change))
    | some (.table origin inner) => do
      return entries.set name (.table origin (← within? inner names change))
    | some (.tables elements) => do
      let inner ← within? (elements.getLast?.getD []) names change
      return entries.set name (.tables (elements.dropLast ++ [inner]))
    | some _ => none

/-- Opens a table by its own header, which no other header or key may have done before. -/
def openTable? (entries : Entries) (path : List String) (key : String) : Option Entries :=
  entries.within? path fun inner =>
    match inner.get? key with
    | none => some (inner.set key (.table .header []))
    | some (.table .superTable entries) => some (inner.set key (.table .header entries))
    | some _ => none

/-- Opens one more of the tables of a header in double brackets. -/
def openElement? (entries : Entries) (path : List String) (key : String) : Option Entries :=
  entries.within? path fun inner =>
    match inner.get? key with
    | none => some (inner.set key (.tables [[]]))
    | some (.tables elements) => some (inner.set key (.tables (elements ++ [[]])))
    | some _ => none

end Entries

end Toml

end ManagedCode
