import ManagedCode.Text.Hex
import ManagedCode.Toml.Scan

namespace ManagedCode

namespace Toml

namespace Scan

/-- The number written by some digits in a base. -/
def number (base : Nat) (digits : List Char) : Nat :=
  digits.foldl (fun value c => value * base + Hex.digitValue c) 0

/-- A character by the given number of hexadecimal digits. -/
def unicode (width : Nat) : Scan Char := do
  let digits ← (List.replicate width ()).mapM fun _ => charWhere Hex.isDigit
  let value := number 16 digits
  if value.isValidChar then return Char.ofNat value else failure

/-- What a backslash stands for together with the next character. -/
def escape : Scan Char := do
  char '\\'
  match ← charWhere fun _ => true with
  | 'b' => return '\x08'
  | 't' => return '\t'
  | 'n' => return '\n'
  | 'f' => return '\x0C'
  | 'r' => return '\r'
  | '"' => return '"'
  | '\\' => return '\\'
  | 'u' => unicode 4
  | 'U' => unicode 8
  | _ => failure

/-- A text in double quotes on one line. -/
def basicString : Scan String := do
  char '"'
  let chars ← many do
    match ← peek with
    | some '"' => return none
    | some '\\' => return some (← escape)
    | _ => return some (← charWhere isText)
  char '"'
  return String.ofList chars

/-- A text in single quotes on one line, in which nothing is escaped. -/
def literalString : Scan String := do
  char '\''
  let chars ← charsWhile fun c => isText c ∧ c ≠ '\''
  char '\''
  return String.ofList chars

/-- A backslash before a line end takes away the line end and the blanks and line ends after
it. -/
def escapedNewline : Scan Unit := do
  char '\\'
  blanks
  newline
  blanks
  discard <| many ((do newline; blanks; return some ()) <|> return none)

/-- A text between three quotes of a kind on either side. A line end right behind the opening
quotes is left out, and one or two more quotes may stand before the closing ones. -/
def multiline (quote : Char) (part : Scan (List Char)) : Scan String := do
  text [quote, quote, quote]
  newline <|> pure ()
  let parts ← many do
    let quotes ← (fun input => some (input.takeWhile (· = quote), input) : Scan (List Char))
    match quotes.length with
    | 0 => return some (← part <|> (do newline; return ['\n']))
    | 1 | 2 => return some (← charsWhile (· = quote))
    | _ => return none
  let closing ← charsWhile (· = quote)
  if closing.length ≤ 5 then
    return String.ofList (parts.flatten ++ closing.drop 3)
  else
    failure

def multilineBasicString : Scan String :=
  multiline '"' do
    match ← peek with
    | some '\\' => (do escapedNewline; return []) <|> return [← escape]
    | _ => return [← charWhere isText]

def multilineLiteralString : Scan String :=
  multiline '\'' do return [← charWhere isText]

/-- A text in any of the four notations. -/
def stringValue : Scan String := fun input =>
  match input with
  | '"' :: '"' :: '"' :: _ => multilineBasicString input
  | '"' :: _ => basicString input
  | '\'' :: '\'' :: '\'' :: _ => multilineLiteralString input
  | _ => literalString input

end Scan

end Toml

end ManagedCode
