namespace ManagedCode

namespace Toml

/-- Takes something from the front of a text, or refuses it. -/
abbrev Scan := StateT (List Char) Option

namespace Scan

/-- The next character, which stays. -/
def peek : Scan (Option Char) := fun input => some (input.head?, input)

/-- Takes one character that a test accepts. -/
def charWhere (accepts : Char → Bool) : Scan Char
  | c :: rest => if accepts c then some (c, rest) else none
  | [] => none

def char (c : Char) : Scan Unit := discard <| charWhere (· = c)

/-- Takes the given text. -/
def text : List Char → Scan Unit
  | [] => pure ()
  | c :: cs => do char c; text cs

/-- Takes the given text if it is there. -/
def text? (expected : List Char) : Scan Bool :=
  (do text expected; return true) <|> pure false

def charsWhile (accepts : Char → Bool) : Scan (List Char) := fun input =>
  some (input.takeWhile accepts, input.dropWhile accepts)

/-- What a scan yields until it yields nothing, but no more items than `room` has characters. -/
def manyWithin {α : Type} (scan : Scan (Option α)) : (room : List Char) → Scan (List α)
  | [] => return []
  | _ :: room => do
    match ← scan with
    | some item => return item :: (← manyWithin scan room)
    | none => return []

/-- What a scan yields until it yields nothing. It takes a character or more for each item, so
the text and one character more are room enough to come to the end. A scan that refuses the text
makes the whole refuse it. -/
def many {α : Type} (scan : Scan (Option α)) : Scan (List α) := fun input =>
  manyWithin scan ('\n' :: input) input

/-- What a scan takes, along with the text it takes it from. -/
def withText {α : Type} (scan : Scan α) : Scan (α × List Char) := fun input => do
  let (value, rest) ← scan input
  return ((value, input.take (input.length - rest.length)), rest)

def atEnd : Scan Bool := fun input => some (input.isEmpty, input)

/-! Blanks, comments and line ends. -/

def isBlank (c : Char) : Bool := c = ' ' ∨ c = '\t'

/-- Tabs and all characters that are no control characters. -/
def isText (c : Char) : Bool := c = '\t' ∨ (c ≥ ' ' ∧ c ≠ '\x7F')

def blanks : Scan Unit := discard <| charsWhile isBlank

def newline : Scan Unit := text ['\n'] <|> text ['\r', '\n']

def comment : Scan Unit := do
  char '#'
  discard <| charsWhile isText

/-- The end of a line or of the text. -/
def lineEnd : Scan Unit := do
  unless ← atEnd do
    newline

/-- What may follow a header or a value on its line. -/
def lineRest : Scan Unit := do
  blanks
  if (← peek) = some '#' then
    comment
  lineEnd

/-- Blanks, line ends and comments, as they may stand between the items of an array. -/
def blankLines : Scan Unit := do
  blanks
  discard <| many do
    match ← peek with
    | some '#' => do comment; newline; blanks; return some ()
    | some '\n' | some '\r' => do newline; blanks; return some ()
    | _ => return none

end Scan

end Toml

end ManagedCode
