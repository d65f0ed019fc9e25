import ManagedCode.Toml.Text
import ManagedCode.Toml.Value

namespace ManagedCode

namespace Toml

namespace Scan

/-- Digits with single underscores between them, which are left out. -/
def digits (isDigit : Char → Bool) : Scan (List Char) := do
  let first ← charWhere isDigit
  let rest ← many do
    match ← peek with
    | some '_' => do
      char '_'
      return some (← charWhere isDigit)
    | some c => if isDigit c then return some (← charWhere isDigit) else return none
    | none => return none
  return first :: rest

/-- Whether a number has a minus sign. -/
def sign : Scan Bool := do
  match ← peek with
  | some '+' => do char '+'; return false
  | some '-' => do char '-'; return true
  | _ => return false

/-- The digits of a decimal integer, of which the first is zero only if it is the only one. -/
def decimalDigits : Scan (List Char) := do
  if ← text? ['0'] then return ['0'] else digits Char.isDigit

/-- Integers have 64 bits with a sign. -/
def inRange (value : Int) : Scan Value :=
  if -9223372036854775808 ≤ value ∧ value < 9223372036854775808 then return .integer value
  else failure

def isOctalDigit (c : Char) : Bool := '0' ≤ c ∧ c ≤ '7'

def isBinaryDigit (c : Char) : Bool := c = '0' ∨ c = '1'

/-- Digits in another base, without a sign. -/
def radixInteger (isDigit : Char → Bool) (base : Nat) : Scan Value := do
  inRange (number base (← digits isDigit))

def integer : Scan Value := do
  if ← text? ['0', 'x'] then radixInteger Hex.isDigit 16
  else if ← text? ['0', 'o'] then radixInteger isOctalDigit 8
  else if ← text? ['0', 'b'] then radixInteger isBinaryDigit 2
  else do
    let isNegative ← sign
    let value : Int := number 10 (← decimalDigits)
    inRange (if isNegative then -value else value)

/-- Whether a decimal number rounds to more than the largest finite double. -/
def overflows (digits : List Char) (exponent : Int) : Bool :=
  let value := number 10 digits
  let limit := Nat.pow 2 1024 - Nat.pow 2 970
  if value = 0 then false
  else if exponent > 400 then true
  else if exponent ≥ 0 then value * Nat.pow 10 exponent.toNat ≥ limit
  else if digits.length ≤ exponent.natAbs then false
  else value ≥ limit * Nat.pow 10 exponent.natAbs

/-- The exponent of a float. -/
def exponent : Scan Int := do
  char 'e' <|> char 'E'
  let isNegative ← sign
  let value : Int := number 10 (← digits Char.isDigit)
  return if isNegative then -value else value

def special : Scan Unit := text ['i', 'n', 'f'] <|> text ['n', 'a', 'n']

/-- A decimal number with a fraction or an exponent. Only negative ones may be too large. -/
def finite : Scan Unit := do
  let isNegative ← sign
  let whole ← decimalDigits
  let (fraction, exponent) ←
    match ← peek with
    | some '.' => do
      char '.'
      let fraction ← digits Char.isDigit
      let exponent ← exponent <|> pure 0
      pure (fraction, exponent)
    | _ => do
      let exponent ← exponent
      pure ([], exponent)
  if ¬ isNegative ∧ overflows (whole ++ fraction) (exponent - fraction.length) then
    failure

def float : Scan Value := do
  let (_, written) ← withText (finite <|> (do discard sign; special))
  return .float (String.ofList written)

/-! Dates and times. -/

/-- A number of the given count of digits between two bounds. -/
def fixed (width low high : Nat) : Scan Nat := do
  let digits ← (List.replicate width ()).mapM fun _ => charWhere Char.isDigit
  let value := number 10 digits
  if low ≤ value ∧ value ≤ high then return value else failure

def daysInMonth (year month : Nat) : Nat :=
  if month = 2 then
    if year % 4 = 0 ∧ (year % 100 ≠ 0 ∨ year % 400 = 0) then 29 else 28
  else if month ∈ [4, 6, 9, 11] then 30
  else 31

def date : Scan Unit := do
  let year ← fixed 4 0 9999
  char '-'
  let month ← fixed 2 1 12
  char '-'
  discard <| fixed 2 1 (daysInMonth year month)

def time : Scan Unit := do
  discard <| fixed 2 0 23
  char ':'
  discard <| fixed 2 0 59
  char ':'
  discard <| fixed 2 0 60
  (do char '.'; discard (charWhere Char.isDigit); discard (charsWhile Char.isDigit)) <|> pure ()

def offset : Scan Unit :=
  char 'Z' <|> char 'z' <|> do
    discard <| charWhere fun c => c = '+' ∨ c = '-'
    discard <| fixed 2 0 23
    char ':'
    discard <| fixed 2 0 59

def datetime : Scan Value := do
  let dateTime : Scan Unit := do
    date
    (do
      discard <| charWhere fun c => c = 'T' ∨ c = 't' ∨ c = ' '
      time
      offset <|> pure ()) <|> pure ()
  let (_, written) ← withText (dateTime <|> time)
  return .datetime (String.ofList written)

end Scan

end Toml

end ManagedCode
