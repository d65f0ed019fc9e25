import ManagedCode.Metadata.Fault

namespace ManagedCode

/-- The bytes of a text in UTF-8. -/
def utf8Bytes (text : String) : List UInt8 := text.toByteArray.data.toList

/-- The text whose UTF-8 bytes these are. -/
def ofUtf8Bytes? (bytes : List UInt8) : Option String := String.fromUTF8? ⟨bytes.toArray⟩

/-- Names behind one another, each followed by a zero byte. Equal names share one offset. -/
structure StringHeap where
  bytes : List UInt8 := [0]
  offsets : List (String × Nat) := []
  deriving DecidableEq, Inhabited

namespace StringHeap

/-- The offset of a name; the empty name is always at 0. -/
def add (heap : StringHeap) (name : String) : Nat × StringHeap :=
  if name = "" then
    (0, heap)
  else
    match heap.offsets.lookup name with
    | some offset => (offset, heap)
    | none =>
      let offset := heap.bytes.length
      (offset,
        { bytes := heap.bytes ++ utf8Bytes name ++ [0]
          offsets := heap.offsets ++ [(name, offset)] })

/-- The name at an offset of a heap's bytes: what comes before the next zero byte. -/
def read? (bytes : List UInt8) (offset : Nat) : Option String :=
  let tail := bytes.drop offset
  if 0 ∈ tail then ofUtf8Bytes? (tail.takeWhile (· ≠ 0)) else none

end StringHeap

/-- Byte strings behind one another, each after its length. Equal ones share one offset. -/
structure BlobHeap where
  bytes : List UInt8 := [0]
  offsets : List (List UInt8 × Nat) := []
  deriving DecidableEq, Inhabited

namespace BlobHeap

/-- The offset of a blob; the empty blob is always at 0. Lengths are numbers without a bound: blobs of
0x100000000 bytes and more, whose length does not fit 32 bits, are refused with all others that are
too long and lie outside the model otherwise. -/
def add (heap : BlobHeap) (blob : List UInt8) : Except Fault (Nat × BlobHeap) :=
  if blob = [] then
    .ok (0, heap)
  else
    match heap.offsets.lookup blob with
    | some offset => .ok (offset, heap)
    | none => do
      let offset := heap.bytes.length
      let header ← Compressed.encode blob.length
      return (offset,
        { bytes := heap.bytes ++ header ++ blob
          offsets := heap.offsets ++ [(blob, offset)] })

/-- The blob at an offset of a heap's bytes. -/
def read? (bytes : List UInt8) (offset : Nat) : Option (List UInt8) := do
  let tail := bytes.drop offset
  let (length, header) ← Compressed.decode? tail
  if header + length ≤ tail.length then
    some ((tail.drop header).take length)
  else
    none

end BlobHeap

end ManagedCode
