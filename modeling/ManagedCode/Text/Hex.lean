namespace ManagedCode

namespace Hex

/-- The last `width` hexadecimal digits of a number, with leading zeros. -/
def digits : (width value : Nat) → List Char
  | 0, _ => []
  | width + 1, value => digits width (value / 16) ++ [Nat.digitChar (value % 16)]

/-- A number by its hexadecimal digits, without leading zeros. -/
def number (value : Nat) : String :=
  "0x" ++ String.ofList (Nat.toDigits 16 value)

/-- A 32-bit number by all of its eight digits. -/
def word (value : UInt32) : String :=
  "0x" ++ String.ofList (digits 8 value.toNat)

/-- Two digits a byte. -/
def bytes (bytes : List UInt8) : String :=
  String.ofList (bytes.flatMap fun byte => digits 2 byte.toNat)

def isDigit (c : Char) : Bool :=
  c.isDigit ∨ ('a' ≤ c ∧ c ≤ 'f') ∨ ('A' ≤ c ∧ c ≤ 'F')

def digitValue (c : Char) : Nat :=
  if c.isDigit then c.toNat - '0'.toNat
  else if 'a' ≤ c then c.toNat - 'a'.toNat + 10
  else c.toNat - 'A'.toNat + 10

/-- The bytes written by some digits, two digits a byte. -/
def readBytes : List Char → List UInt8
  | high :: low :: rest => .ofNat (16 * digitValue high + digitValue low) :: readBytes rest
  | _ => []

end Hex

end ManagedCode
