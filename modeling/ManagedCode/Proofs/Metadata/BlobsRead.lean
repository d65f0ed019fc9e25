import ManagedCode.Proofs.Metadata.RowsByToken

namespace ManagedCode

/-! What was written with its length before it is read back. -/

namespace Compressed

variable {value : Nat} {bytes : List UInt8}

/-- Writes a value behind what was written before. -/
def write (value : Nat) : EStateM Fault (List UInt8) Unit := do
  let bytes ← ofExcept (encode value)
  modify (· ++ bytes)

theorem exists_encode? (small : value < 0x20000000) : ∃ bytes, encode? value = some bytes ∧
    bytes.length = if value < 0x80 then 1 else if value < 0x4000 then 2 else 4 := by
  unfold encode?
  split
  next => exact ⟨_, rfl, rfl⟩
  next =>
    split
    next => exact ⟨_, rfl, rfl⟩
    next =>
      rw [if_pos (by unfold limit; omega)]
      exact ⟨_, rfl, rfl⟩

theorem encode?_of_le (large : 0x20000000 ≤ value) : encode? value = none := by
  unfold encode?
  rw [if_neg (by omega), if_neg (by omega), if_neg (by unfold limit; omega)]

theorem encode_of_le (large : 0x20000000 ≤ value) :
    encode value = .error (.compressedOverflow value) := by
  unfold encode
  rw [encode?_of_le large]

theorem lt_of_encode? (h : encode? value = some bytes) : value < 0x20000000 := by
  by_contra large
  rw [encode?_of_le (Nat.le_of_not_lt large)] at h
  cases h

theorem encode_of_encode? (h : encode? value = some bytes) : encode value = .ok bytes := by
  unfold encode
  rw [h]

theorem write_of_encode? (h : encode? value = some bytes) (out : List UInt8) :
    write value out = .ok () (out ++ bytes) := by
  unfold write
  rw [encode_of_encode? h]
  rfl

theorem write_of_le (large : 0x20000000 ≤ value) (out : List UInt8) :
    write value out = .error (.compressedOverflow value) out := by
  unfold write
  rw [encode_of_le large]
  rfl

end Compressed

namespace BlobHeap

variable {heap : BlobHeap} {blob : List UInt8} {n : Nat}

theorem exists_add (heap : BlobHeap) (short : blob.length < 0x20000000) :
    ∃ n later, heap.add blob = .ok (n, later) := by
  by_cases empty : blob = []
  · exact ⟨0, heap, by rw [add, if_pos empty]⟩
  · cases found : heap.offsets.lookup blob with
    | some offset => exact ⟨offset, heap, by rw [add, if_neg empty, found]⟩
    | none =>
      obtain ⟨header, encoded, -⟩ := Compressed.exists_encode? short
      exact ⟨_, _, add_new empty found (Compressed.encode_of_encode? encoded)⟩

/-- A blob that has an offset is not too long for its length to be written. -/
theorem Gives.length_lt (g : heap.Gives blob n) (sound : heap.Sound) :
    blob.length < 0x20000000 := by
  rcases gives_iff.mp g with ⟨rfl, -⟩ | ⟨-, found⟩
  · simp
  · obtain ⟨header, encoded, -⟩ := sound.placed found
    exact Compressed.lt_of_encode? encoded

theorem add_of_new_of_long (full : blob ≠ []) (new : heap.offsets.lookup blob = none)
    (long : 0x20000000 ≤ blob.length) :
    heap.add blob = .error (.compressedOverflow blob.length) := by
  rw [add, if_neg full, new]
  dsimp only
  rw [Compressed.encode_of_le long]
  rfl

/-- A step on the bytes of a heap, which leaves the offsets alone. -/
def onBytes (step : EStateM Fault (List UInt8) Unit) : EStateM Fault BlobHeap Unit := fun heap =>
  match step heap.bytes with
  | .ok () bytes => .ok () { heap with bytes }
  | .error fault bytes => .error fault { heap with bytes }

/-- Adds a blob in place: writes its length, then the blob, and then notes where they begin. -/
def put (blob : List UInt8) : EStateM Fault BlobHeap Nat := do
  let heap ← get
  if blob = [] then
    return 0
  match heap.offsets.lookup blob with
  | some offset => return offset
  | none =>
    onBytes (Compressed.write blob.length)
    onBytes (modify (· ++ blob))
    modify fun later => { later with offsets := later.offsets ++ [(blob, heap.bytes.length)] }
    return heap.bytes.length

/-- A heap that is written in place is left as it was by a blob that is too long, since its length
comes first. -/
theorem put_eq (blob : List UInt8) (heap : BlobHeap) :
    put blob heap =
      match heap.add blob with
      | .ok (n, later) => .ok n later
      | .error fault => .error fault heap := by
  unfold put
  rw [get_bind]
  by_cases empty : blob = []
  · rw [if_pos empty, add, if_pos empty]
    rfl
  rw [if_neg empty]
  cases found : heap.offsets.lookup blob with
  | some offset =>
    rw [add, if_neg empty, found]
    rfl
  | none =>
    by_cases short : blob.length < 0x20000000
    · obtain ⟨header, encoded, -⟩ := Compressed.exists_encode? short
      have written : onBytes (Compressed.write blob.length) heap =
          .ok () { heap with bytes := heap.bytes ++ header } := by
        unfold onBytes
        rw [Compressed.write_of_encode? encoded]
      rw [add_new empty found (Compressed.encode_of_encode? encoded)]
      dsimp only
      rw [bind_of_ok written]
      rfl
    · have large := Nat.le_of_not_lt short
      have refused : onBytes (Compressed.write blob.length) heap =
          .error (.compressedOverflow blob.length) heap := by
        unfold onBytes
        rw [Compressed.write_of_le large]
      rw [add_of_new_of_long empty found large]
      dsimp only
      rw [bind_of_error refused]

theorem Gives.unique {m : Nat} (g : heap.Gives blob n) (g' : heap.Gives blob m) : n = m := by
  have same := g.symm.trans g'
  cases same
  rfl

end BlobHeap

namespace Layout

/-- Adds blobs one after the other and goes on behind one that cannot be added. Gives their columns,
or why they have none. -/
def addBlobs : List (List UInt8) → Draft → List (Except Fault UInt32) × Draft
  | [], draft => ([], draft)
  | blob :: blobs, draft =>
    let (answer, next) : Except Fault UInt32 × Draft :=
      match addBlob blob draft with
      | .ok column next => (.ok column, next)
      | .error fault next => (.error fault, next)
    let (answers, last) := addBlobs blobs next
    (answer :: answers, last)

theorem addBlob_eq_error {blob : List UInt8} {draft later : Draft} {fault : Fault}
    (h : addBlob blob draft = .error fault later) : later = draft ∧ 0x20000000 ≤ blob.length := by
  rw [addBlob_eq] at h
  by_cases short : blob.length < 0x20000000
  · obtain ⟨n, heap, added⟩ := draft.blobs.exists_add short
    rw [added] at h
    cases h
  · split at h
    next => cases h
    next =>
      cases h
      exact ⟨rfl, Nat.le_of_not_lt short⟩

end Layout

/-- A blob has the column that was answered, or is too long to have one. -/
def Draft.Answers (heaps : Draft) (blob : List UInt8) : Except Fault UInt32 → Prop
  | .ok column => heaps.Stores blob column
  | .error _ => 0x20000000 ≤ blob.length

/-- However many blobs are added, each has the column it got when it was added. -/
theorem Layout.answers_addBlobs (blobs : List (List UInt8)) {draft : Draft} (sound : draft.Sound) :
    (addBlobs blobs draft).2.Sound ∧ draft.Extends (addBlobs blobs draft).2 ∧
      List.Forall₂ (addBlobs blobs draft).2.Answers blobs (addBlobs blobs draft).1 := by
  induction blobs generalizing draft with
  | nil => exact ⟨sound, .refl draft, .nil⟩
  | cons blob blobs ih =>
    unfold addBlobs
    cases run : addBlob blob draft with
    | ok column next =>
      obtain ⟨sound', grows, stored⟩ := Yields.addBlob blob draft next column sound run
      obtain ⟨sound'', grows', rest⟩ := ih sound'
      exact ⟨sound'', grows.trans grows', .cons (stored _ grows') rest⟩
    | error fault next =>
      obtain ⟨rfl, long⟩ := addBlob_eq_error run
      obtain ⟨sound', grows, rest⟩ := ih sound
      exact ⟨sound', grows, .cons long rest⟩

/-- An image gives the blobs back that have these columns: those that are not too long have one,
from which they are read back, and share it just if they are the same. -/
structure TablesImage.GivesBlobsBack (image : TablesImage) (blobs : List (List UInt8))
    (answers : List (Except Fault UInt32)) : Prop where
  given : answers.length = blobs.length
  refused : ∀ {i : Nat} {blob answer}, blobs[i]? = some blob → answers[i]? = some answer →
    (answer.isOk = false ↔ 0x20000000 ≤ blob.length)
  reads : ∀ {i : Nat} {blob column}, blobs[i]? = some blob → answers[i]? = some (.ok column) →
    image.blob? column = some blob
  shared : ∀ {i j : Nat} {blob other column column'}, blobs[i]? = some blob →
    answers[i]? = some (.ok column) → blobs[j]? = some other → answers[j]? = some (.ok column') →
      (column = column' ↔ blob = other)

/-- The blobs that were added to a heap are given back from its bytes. -/
theorem TablesImage.givesBlobsBack_of_addBlobs {blobs : List (List UInt8)}
    {answers : List (Except Fault UInt32)} {draft : Draft} {image : TablesImage}
    (added : Layout.addBlobs blobs {} = (answers, draft))
    (small : draft.blobs.bytes.length ≤ 0x100000000) (finished : image.blobs = draft.blobs.bytes) :
    image.GivesBlobsBack blobs answers := by
  have start : Draft.Sound {} :=
    ⟨StringHeap.sound_empty, BlobHeap.sound_empty, nofun⟩
  obtain ⟨sound, -, all⟩ := Layout.answers_addBlobs blobs start
  rw [added] at sound all
  have answered : ∀ {i : Nat} {blob answer}, blobs[i]? = some blob → answers[i]? = some answer →
      draft.Answers blob answer := by
    intro i blob answer hb ha
    obtain ⟨answer', ha', holds⟩ := forall₂_getElem? all hb
    rw [ha] at ha'
    cases ha'
    exact holds
  have reads : ∀ {i : Nat} {blob column}, blobs[i]? = some blob → answers[i]? = some (.ok column) →
      image.blob? column = some blob := fun hb ha =>
    TablesImage.blob?_of_stores sound finished (finished ▸ small) (answered hb ha)
  refine ⟨all.length_eq.symm, ?_, reads, ?_⟩
  · intro i blob answer hb ha
    have holds := answered hb ha
    cases answer with
    | ok column =>
      obtain ⟨n, given, -⟩ := holds
      have short := given.length_lt sound.blobs
      simp only [Except.isOk, Except.toBool, Bool.true_eq_false, false_iff]
      omega
    | error fault => exact ⟨fun _ => holds, fun _ => rfl⟩
  · intro i j blob other column column' hb ha hb' ha'
    constructor
    · rintro rfl
      have same := (reads hb ha).symm.trans (reads hb' ha')
      exact Option.some.inj same
    · rintro rfl
      obtain ⟨n, given, rfl⟩ := answered hb ha
      obtain ⟨m, given', rfl⟩ := answered hb' ha'
      rw [given.unique given']

/-- A number that is small enough is written in one, two or four bytes and read back whatever comes
behind them, and any other leaves what was written. A heap that is written in place has what it has
when it is made anew, and a blob that cannot be added leaves everything as it was. Whatever blobs
are added, those too long among them, the finished heap gives back each that has an offset. -/
theorem blobs_read_back (blobs : List (List UInt8)) :
    (∀ value < 0x20000000, ∀ out, ∃ bytes, Compressed.write value out = .ok () (out ++ bytes) ∧
      bytes.length = (if value < 0x80 then 1 else if value < 0x4000 then 2 else 4) ∧
      ∀ rest, Compressed.decode? (bytes ++ rest) = some (value, bytes.length)) ∧
    (∀ value, 0x20000000 ≤ value → ∀ out,
      Compressed.write value out = .error (.compressedOverflow value) out) ∧
    (∀ blob (heap : BlobHeap), BlobHeap.put blob heap =
      match heap.add blob with
      | .ok (n, later) => .ok n later
      | .error fault => .error fault heap) ∧
    (∀ blob draft later fault, Layout.addBlob blob draft = .error fault later → later = draft) ∧
    ∀ {answers draft} {image : TablesImage}, Layout.addBlobs blobs {} = (answers, draft) →
      draft.blobs.bytes.length ≤ 0x100000000 → image.blobs = draft.blobs.bytes →
        image.GivesBlobsBack blobs answers := by
  refine ⟨fun value small out => ?_, fun value large out => Compressed.write_of_le large out,
    BlobHeap.put_eq,
    fun blob draft later fault failed => (Layout.addBlob_eq_error failed).1,
    TablesImage.givesBlobsBack_of_addBlobs⟩
  obtain ⟨bytes, encoded, long⟩ := Compressed.exists_encode? small
  exact ⟨bytes, Compressed.write_of_encode? encoded out, long, Compressed.decode?_encode? encoded⟩

/-- A blob that is too long, between two others and one of these again. -/
theorem blobs_read_back_refused : ∃ (long : List UInt8) (draft : Draft), long.length = 0x20000000 ∧
    Layout.addBlobs [[6, 8], long, [0], [6, 8]] {} =
      ([.ok 1, .error (.compressedOverflow 0x20000000), .ok 4, .ok 1], draft) ∧
    TablesImage.GivesBlobsBack { blobs := draft.blobs.bytes } [[6, 8], long, [0], [6, 8]]
      [.ok 1, .error (.compressedOverflow 0x20000000), .ok 4, .ok 1] := by
  obtain ⟨long, length⟩ : ∃ long : List UInt8, long.length = 0x20000000 :=
    ⟨List.replicate 0x20000000 0, List.length_replicate⟩
  let one : Draft := { blobs := { bytes := [0, 2, 6, 8], offsets := [([6, 8], 1)] } }
  let two : Draft :=
    { blobs := { bytes := [0, 2, 6, 8, 1, 0], offsets := [([6, 8], 1), ([0], 4)] } }
  have full : long ≠ [] := by
    rintro rfl
    cases length
  have new : one.blobs.offsets.lookup long = none := by
    have other : long ≠ [6, 8] := by
      rintro rfl
      cases length
    rw [List.lookup_cons, beq_false_of_ne other]
    rfl
  have first : Layout.addBlob [6, 8] {} = .ok 1 one := rfl
  have refused : Layout.addBlob long one = .error (.compressedOverflow 0x20000000) one := by
    rw [Layout.addBlob_eq, BlobHeap.add_of_new_of_long full new (Nat.le_of_eq length.symm), length]
  have second : Layout.addBlob [0] one = .ok 4 two := rfl
  have again : Layout.addBlob [6, 8] two = .ok 1 two := rfl
  have added : Layout.addBlobs [[6, 8], long, [0], [6, 8]] {} =
      ([.ok 1, .error (.compressedOverflow 0x20000000), .ok 4, .ok 1], two) := by
    simp only [Layout.addBlobs, first, refused, second, again]
  obtain ⟨-, -, -, -, back⟩ := blobs_read_back [[6, 8], long, [0], [6, 8]]
  exact ⟨long, two, length, added, back added (by decide) rfl⟩

end ManagedCode
