import ManagedCode.Toml.Number

namespace ManagedCode

namespace Toml

namespace Scan

/-- Values are nested, and keys are long, by less than this. -/
def nestingLimit : Nat := 80

def isBareKeyChar (c : Char) : Bool :=
  c.isAlphanum ∨ c = '-' ∨ c = '_'

def simpleKey : Scan String := do
  match ← peek with
  | some '"' => basicString
  | some '\'' => literalString
  | _ =>
    let chars ← charsWhile isBareKeyChar
    if chars.isEmpty then failure else return String.ofList chars

/-- One name of a key between blanks. -/
def keyPart : Scan String := do
  blanks
  let name ← simpleKey
  blanks
  return name

/-- The names of a key: those before the last, and the last. -/
def key : Scan (List String × String) := do
  let first ← keyPart
  let rest ← many do
    if (← peek) = some '.' then do
      char '.'
      return some (← keyPart)
    else
      return none
  let names := first :: rest
  if names.length < nestingLimit then
    return (names.dropLast, names.getLastD "")
  else
    failure

/-- Items up to a closing bracket, each with a comma behind it that the last may lack. -/
def arrayItems (value : Scan Value) : Scan Value := do
  char '['
  let items ← many do
    blankLines
    if (← peek) = some ']' then
      return none
    else do
      let item ← value
      blankLines
      unless (← peek) = some ']' do
        char ','
      return some item
  char ']'
  return .array items

/-- A key with its value. -/
def assignment (value : Scan Value) : Scan (List String × String × Value) := do
  let (path, name) ← key
  char '='
  blanks
  let value ← value
  return (path, name, value)

/-- Keys with their values on one line, with commas between them. -/
def inlineTable (value : Scan Value) : Scan Value := do
  let entry : Scan (List String × String × Value) := do
    let entry ← assignment value
    blanks
    return entry
  char '\x7b'
  blanks
  let entries ←
    if (← peek) = some '\x7d' then pure []
    else do
      let first ← entry
      let rest ← many do
        if (← peek) = some ',' then do
          char ','
          return some (← entry)
        else
          return none
      pure (first :: rest)
  char '\x7d'
  let table ← (entries.foldlM (fun (table : Entries) (path, name, value) =>
    table.addDotted? path name value) [] : Option Entries)
  return .inlineTable table

/-- A value in which arrays and inline tables are nested at most so deep. -/
def value (depth : Nat) : Scan Value := do
  match ← peek with
  | some '"' | some '\'' => return .string (← stringValue)
  | some '[' =>
    match depth with
    | 0 => failure
    | depth + 1 => arrayItems (value depth)
  | some '\x7b' =>
    match depth with
    | 0 => failure
    | depth + 1 => inlineTable (value depth)
  | some 't' => do text "true".toList; return .boolean true
  | some 'f' => do text "false".toList; return .boolean false
  | _ => datetime <|> float <|> integer

end Scan

/-- A document while it is read: what it holds, and where the last header has led. -/
structure Reading where
  root : Entries := []
  header : List String := []
  deriving Inhabited

namespace Reading

open Scan

def openTable (reading : Reading) : Scan Reading := do
  char '['
  let (path, name) ← key
  char ']'
  lineRest
  let root ← reading.root.openTable? path name
  return { root, header := path ++ [name] }

def openElement (reading : Reading) : Scan Reading := do
  text ['[', '[']
  let (path, name) ← key
  text [']', ']']
  lineRest
  let root ← reading.root.openElement? path name
  return { root, header := path ++ [name] }

def assign (reading : Reading) : Scan Reading := do
  let (path, name, value) ← assignment (value (nestingLimit - 1))
  lineRest
  let root ← reading.root.within? reading.header (·.addDotted? path name value)
  return { reading with root }

/-- Reads one line of a document, or several if a value goes on over line ends. -/
def line (reading : Reading) : Scan Reading := fun input =>
  match input with
  | '#' :: _ => (do comment; lineEnd; return reading : Scan Reading) input
  | '\n' :: _ | '\r' :: _ => (do newline; return reading : Scan Reading) input
  | '[' :: '[' :: _ => reading.openElement input
  | '[' :: _ => reading.openTable input
  | _ => reading.assign input

/-- Reads lines to the end of a text, but no more lines than `room` has characters. -/
def lines (reading : Reading) (room : List Char) : Scan Reading := do
  blanks
  if ← atEnd then
    return reading
  else
    match room with
    | [] => failure
    | _ :: room => lines (← reading.line) room

end Reading

/-- The entries of a document, if the text is one. A byte order mark may come before it. A line
takes a character or more, so the text itself is room enough for its lines. -/
def parse (text : String) : Option Entries :=
  let input := text.toList
  let input := if input.head? = some '\uFEFF' then input.tail else input
  ((Reading.lines {} input).run input).map (·.1.root)

end Toml

end ManagedCode
