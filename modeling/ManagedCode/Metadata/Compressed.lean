namespace ManagedCode

/-! Unsigned integers in one, two or four bytes, most significant first. The high bits of the
first byte say how many bytes there are. -/

namespace Compressed

/-- The values that have an encoding are those below this limit. -/
def limit : Nat := 0x20000000

def encode? (value : Nat) : Option (List UInt8) :=
  if value < 0x80 then
    some [.ofNat value]
  else if value < 0x4000 then
    some [.ofNat (0x80 + value / 0x100), .ofNat value]
  else if value < limit then
    some [.ofNat (0xC0 + value / 0x1000000), .ofNat (value / 0x10000), .ofNat (value / 0x100),
      .ofNat value]
  else
    none

/-- A value from the front of the bytes, with the length of its encoding. -/
def decode? : List UInt8 → Option (Nat × Nat)
  | [] => none
  | first :: rest =>
    if first < 0x80 then
      some (first.toNat, 1)
    else if first < 0xC0 then
      match rest with
      | second :: _ => some (first.toNat % 0x40 * 0x100 + second.toNat, 2)
      | [] => none
    else
      match rest with
      | b :: c :: d :: _ =>
        some (((first.toNat % 0x20 * 0x100 + b.toNat) * 0x100 + c.toNat) * 0x100 + d.toNat, 4)
      | _ => none

end Compressed

end ManagedCode
