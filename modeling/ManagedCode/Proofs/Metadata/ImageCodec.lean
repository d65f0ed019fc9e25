import Mathlib.Algebra.Group.Nat.Defs
import ManagedCode.Metadata.Codec
import ManagedCode.Proofs.Metadata.Heaps

namespace ManagedCode

namespace Codec

/-- Some bytes are read as a value: what comes behind them is left over, and where they are cut
off there are too few to read. -/
structure Reads {α : Type} (decode : List UInt8 → Except DecodeFault (α × List UInt8))
    (bytes : List UInt8) (value : α) : Prop where
  whole : ∀ rest, decode (bytes ++ rest) = .ok (value, rest)
  cut : ∀ {before behind}, bytes = before ++ behind → behind ≠ [] →
    decode before = .error .unexpectedEnd

/-- What a codec writes for a value it reads as that value. -/
def Handles {α : Type} (codec : Codec α) (value : α) : Prop :=
  Reads codec.decode (codec.encode value) value

/-- Reads a value and then what comes behind it. -/
def readThen {α β : Type} (decode : List UInt8 → Except DecodeFault (α × List UInt8))
    (next : α → List UInt8 → Except DecodeFault (β × List UInt8)) (input : List UInt8) :
    Except DecodeFault (β × List UInt8) := do
  let (value, rest) ← decode input
  next value rest

/-- Reads a value as another one. -/
def readAs {α β : Type} (f : α → β) (decode : List UInt8 → Except DecodeFault (α × List UInt8))
    (input : List UInt8) : Except DecodeFault (β × List UInt8) := do
  let (value, rest) ← decode input
  return (f value, rest)

/-- The text that some bytes are, with the bytes behind it. -/
def textOf (bytes rest : List UInt8) : Except DecodeFault (String × List UInt8) :=
  match ofUtf8Bytes? bytes with
  | some value => pure (value, rest)
  | none => throw .utf8

namespace Reads

variable {α β : Type} {decode : List UInt8 → Except DecodeFault (α × List UInt8)}
  {bytes bytes' : List UInt8} {a : α} {b : β}

/-- Nothing is read as a value that is known already. -/
theorem nothing : Reads (fun input => .ok (a, input)) [] a where
  whole _ := rfl
  cut split full := absurd (List.append_eq_nil_iff.mp split.symm).2 full

/-- What is read behind something else may depend on it. -/
theorem andThen (next : α → List UInt8 → Except DecodeFault (β × List UInt8))
    (first : Reads decode bytes a) (second : Reads (next a) bytes' b) :
    Reads (readThen decode next) (bytes ++ bytes') b where
  whole rest := by
    rw [readThen, List.append_assoc, first.whole]
    exact second.whole rest
  cut {before behind} split full := by
    rcases List.append_eq_append_iff.mp split with ⟨front, rfl, later⟩ | ⟨back, rfl, rfl⟩
    · rw [readThen, first.whole]
      exact second.cut later full
    · by_cases between : back = []
      · -- the cut between the two leaves nothing of the second
        subst between
        have read := first.whole []
        rw [List.append_nil, List.append_nil] at read
        rw [readThen, read]
        exact second.cut (List.nil_append _).symm full
      · rw [readThen, first.cut rfl between]
        rfl

theorem map (f : α → β) (h : Reads decode bytes a) :
    Reads (readAs f decode) bytes (f a) := by
  have mapped := h.andThen (fun value rest => .ok (f value, rest)) nothing
  rwa [List.append_nil] at mapped

/-- As many bytes as there are. -/
theorem take (bytes : List UInt8) : Reads (takeBytes bytes.length) bytes bytes where
  whole rest := by
    rw [takeBytes, if_pos (by rw [List.length_append]; omega), List.take_left, List.drop_left]
  cut {before behind} split full := by
    have longer := List.length_pos_iff.mpr full
    rw [takeBytes, if_neg (by rw [split, List.length_append]; omega)]

end Reads

theorem ofLittleEndian_littleEndian (width value : Nat) :
    ofLittleEndian (littleEndian width value) = value % 0x100 ^ width := by
  induction width generalizing value with
  | zero => rw [littleEndian, ofLittleEndian, Nat.pow_zero, Nat.mod_one]
  | succ width ih =>
    rw [littleEndian, ofLittleEndian, ih, UInt8.toNat_ofNat', show 2 ^ 8 = 0x100 from rfl,
      Nat.pow_succ', Nat.mod_mul]

theorem length_littleEndian (width value : Nat) : (littleEndian width value).length = width := by
  induction width generalizing value with
  | zero => rfl
  | succ width ih => rw [littleEndian, List.length_cons, ih]

/-- A marker and the bytes behind it are read by every field that is as wide. -/
theorem reads_marked {width field value : Nat} (word : width = 2 ∨ width = 4 ∨ width = 8)
    (narrow : width ≤ field) (room : value < 0x100 ^ width) :
    Reads (decodeNat field) (marker width :: littleEndian width value) value := by
  have marked : ∀ rest, decodeNat field (marker width :: rest) =
      readAs ofLittleEndian (takeBytes width) rest := by
    intro rest
    have found : markedWidth? (marker width) = some width ∧ ¬marker width < 251 := by
      rcases word with rfl | rfl | rfl <;> decide
    rw [decodeNat, if_neg found.2, found.1]
    exact if_pos narrow
  have number := (Reads.take (littleEndian width value)).map ofLittleEndian
  rw [length_littleEndian, ofLittleEndian_littleEndian, Nat.mod_eq_of_lt room] at number
  refine ⟨fun rest => ?_, fun {before behind} split full => ?_⟩
  · rw [List.cons_append, marked]
    exact number.whole rest
  · cases before with
    | nil => rfl
    | cons first before =>
      obtain ⟨rfl, later⟩ := List.cons.inj split
      rw [marked]
      exact number.cut later full

/-- A number in its shortest form is read by every field that has room for it. -/
theorem reads_nat {field value : Nat} (word : field = 2 ∨ field = 4 ∨ field = 8)
    (room : value < 0x100 ^ field) : Reads (decodeNat field) (encodeNat value) value := by
  unfold encodeNat
  split
  next small =>
    have first : (UInt8.ofNat value).toNat = value := by rw [UInt8.toNat_ofNat']; omega
    have short : UInt8.ofNat value < 251 := by
      rw [UInt8.lt_iff_toNat_lt, first]
      exact small
    refine ⟨fun rest => ?_, fun {before behind} split full => ?_⟩
    · rw [List.singleton_append, decodeNat, if_pos short, first]
    · obtain ⟨rfl, -⟩ | ⟨-, rfl⟩ := List.singleton_eq_append_iff.mp split
      · rfl
      · exact absurd rfl full
  next large =>
    dsimp only
    split
    next => exact reads_marked (.inl rfl) (by omega) (by omega)
    next =>
      split
      next =>
        refine reads_marked (.inr (.inl rfl)) ?_ (by omega)
        rcases word with rfl | rfl | rfl <;> omega
      next =>
        have wide : field = 8 := by rcases word with rfl | rfl | rfl <;> omega
        subst wide
        exact reads_marked (.inr (.inr rfl)) (Nat.le_refl _) room

section

variable {α β : Type}

theorem handles_uint16 (value : UInt16) : uint16.Handles value := by
  have read := (reads_nat (.inl rfl) value.toNat_lt).map UInt16.ofNat
  rwa [UInt16.ofNat_toNat] at read

theorem handles_uint32 (value : UInt32) : uint32.Handles value := by
  have read := (reads_nat (.inr (.inl rfl)) value.toNat_lt).map UInt32.ofNat
  rwa [UInt32.ofNat_toNat] at read

theorem handles_bool (value : Bool) : bool.Handles value := by
  refine ⟨fun rest => by cases value <;> rfl, fun {before behind} split full => ?_⟩
  obtain ⟨rfl, -⟩ | ⟨-, rfl⟩ := List.singleton_eq_append_iff.mp split
  · rfl
  · exact absurd rfl full

theorem handles_pair {first : Codec α} {second : Codec β} {a : α} {b : β} (ha : first.Handles a)
    (hb : second.Handles b) : (pair first second).Handles (a, b) :=
  ha.andThen (fun a => readAs (a, ·) second.decode) (hb.map (a, ·))

theorem handles_map {codec : Codec α} {out : β → α} {into : α → β} {b : β}
    (h : codec.Handles (out b)) (inverse : into (out b) = b) : (codec.map out into).Handles b := by
  have read := Reads.map into h
  rwa [inverse] at read

/-- A length is read if memory has room for the elements. -/
theorem reads_length {size count : Nat} (room : count * size ≤ memoryLimit) (positive : 0 < size) :
    Reads (decodeLength size) (encodeNat count) count := by
  have word : count < 0x100 ^ 8 := by
    have := Nat.le_mul_of_pos_right count positive
    unfold memoryLimit at room
    omega
  have checked : Reads (fun rest => if count * size ≤ memoryLimit then pure (count, rest)
      else throw .capacityOverflow) [] count := by
    simp only [if_pos room]
    exact Reads.nothing
  have read := (reads_nat (.inr (.inr rfl)) word).andThen (fun count rest =>
    if count * size ≤ memoryLimit then pure (count, rest) else throw .capacityOverflow) checked
  rwa [List.append_nil] at read

theorem handles_bytes {value : List UInt8} (room : value.length ≤ memoryLimit) :
    bytes.Handles value :=
  (reads_length (by rwa [Nat.mul_one]) Nat.one_pos).andThen takeBytes (Reads.take value)

/-- A text is what its bytes say. -/
theorem ofUtf8Bytes?_utf8Bytes (value : String) : ofUtf8Bytes? (utf8Bytes value) = some value := by
  rw [utf8Bytes_eq, ofUtf8Bytes?_flatMap, String.ofList_toList]

theorem handles_text {value : String} (room : (utf8Bytes value).length ≤ memoryLimit) :
    text.Handles value := by
  have valid : Reads (textOf (utf8Bytes value)) [] value := by
    unfold textOf
    rw [ofUtf8Bytes?_utf8Bytes]
    exact Reads.nothing
  have read := Reads.andThen textOf (handles_bytes room) valid
  rwa [List.append_nil] at read

theorem reads_many {codec : Codec α} {values : List α} (h : ∀ v ∈ values, codec.Handles v) :
    Reads (decodeMany codec values.length) (values.flatMap codec.encode) values := by
  induction values with
  | nil => exact Reads.nothing
  | cons v vs ih =>
    have others := ih fun w hw => h w (List.mem_cons_of_mem v hw)
    exact Reads.andThen (fun value => readAs (value :: ·) (decodeMany codec vs.length))
      (h v List.mem_cons_self) (others.map (v :: ·))

theorem handles_list {codec : Codec α} {size : Nat} {values : List α}
    (room : values.length * size ≤ memoryLimit) (positive : 0 < size)
    (h : ∀ v, codec.Handles v) : (list size codec).Handles values :=
  (reads_length room positive).andThen (decodeMany codec) (reads_many fun v _ => h v)

end

theorem handles_version (value : Version) : version.Handles value :=
  handles_map (handles_pair (handles_uint16 _) <| handles_pair (handles_uint16 _) <|
    handles_pair (handles_uint16 _) (handles_uint16 _)) rfl

theorem handles_assemblyRefRow (row : AssemblyRefRow) : assemblyRefRow.Handles row :=
  handles_map (handles_pair (handles_uint32 _) (handles_version _)) rfl

theorem handles_moduleRefRow (row : ModuleRefRow) : moduleRefRow.Handles row :=
  handles_map (handles_uint32 _) rfl

theorem handles_fileRow (row : FileRow) : fileRow.Handles row :=
  handles_map (handles_pair (handles_uint32 _) (handles_bool _)) rfl

theorem handles_typeRefRow (row : TypeRefRow) : typeRefRow.Handles row :=
  handles_map (handles_pair (handles_uint32 _) <| handles_pair (handles_uint32 _)
    (handles_uint32 _)) rfl

theorem handles_typeSpecRow (row : TypeSpecRow) : typeSpecRow.Handles row :=
  handles_map (handles_uint32 _) rfl

theorem handles_memberRefRow (row : MemberRefRow) : memberRefRow.Handles row :=
  handles_map (handles_pair (handles_uint32 _) <| handles_pair (handles_uint32 _)
    (handles_uint32 _)) rfl

theorem handles_methodSpecRow (row : MethodSpecRow) : methodSpecRow.Handles row :=
  handles_map (handles_pair (handles_uint32 _) (handles_uint32 _)) rfl

theorem handles_typeDefRow (row : TypeDefRow) : typeDefRow.Handles row :=
  handles_map (handles_pair (handles_uint32 _) <| handles_pair (handles_uint32 _) <|
    handles_pair (handles_uint32 _) <| handles_pair (handles_uint32 _) <|
    handles_pair (handles_uint32 _) (handles_uint32 _)) rfl

theorem handles_memberDefRow (row : MemberDefRow) : memberDefRow.Handles row :=
  handles_map (handles_pair (handles_uint32 _) (handles_uint32 _)) rfl

end Codec

namespace TablesImage

/-- How many bytes of memory each list of an image takes up. -/
def sizes (image : TablesImage) : List Nat :=
  [(utf8Bytes image.moduleName).length, image.strings.length, image.blobs.length,
    image.assemblyRefs.length * 12, image.moduleRefs.length * 4, image.files.length * 8,
    image.typeRefs.length * 12, image.typeSpecs.length * 4, image.memberRefs.length * 12,
    image.methodSpecs.length * 8, image.typeDefs.length * 24, image.fields.length * 8,
    image.methods.length * 8]

/-- Memory can hold each list of the image. -/
def InMemory (image : TablesImage) : Prop := ∀ size ∈ image.sizes, size ≤ Codec.memoryLimit

instance (image : TablesImage) : Decidable image.InMemory :=
  inferInstanceAs (Decidable (∀ size ∈ image.sizes, size ≤ Codec.memoryLimit))

theorem handles {image : TablesImage} (held : image.InMemory) : Codec.image.Handles image := by
  simp only [InMemory, sizes, List.forall_mem_cons] at held
  obtain ⟨name, strings, blobs, assemblies, modules, files, typeRefs, typeSpecs, memberRefs,
    methodSpecs, typeDefs, fields, methods, -⟩ := held
  have lists := Codec.handles_pair (Codec.handles_list typeDefs (by decide) Codec.handles_typeDefRow)
    (Codec.handles_pair (Codec.handles_list fields (by decide) Codec.handles_memberDefRow)
      (Codec.handles_list methods (by decide) Codec.handles_memberDefRow))
  refine Codec.handles_map (Codec.handles_pair (Codec.handles_text name) <|
    Codec.handles_pair (Codec.handles_bytes strings) <|
    Codec.handles_pair (Codec.handles_bytes blobs) <|
    Codec.handles_pair (Codec.handles_list assemblies (by decide) Codec.handles_assemblyRefRow) <|
    Codec.handles_pair (Codec.handles_list modules (by decide) Codec.handles_moduleRefRow) <|
    Codec.handles_pair (Codec.handles_list files (by decide) Codec.handles_fileRow) <|
    Codec.handles_pair (Codec.handles_list typeRefs (by decide) Codec.handles_typeRefRow) <|
    Codec.handles_pair (Codec.handles_list typeSpecs (by decide) Codec.handles_typeSpecRow) <|
    Codec.handles_pair (Codec.handles_list memberRefs (by decide) Codec.handles_memberRefRow) <|
    Codec.handles_pair (Codec.handles_list methodSpecs (by decide) Codec.handles_methodSpecRow)
      lists) rfl

/-- An image is read back from its bytes whatever comes behind them, and bytes that are cut off
anywhere are found to be too few. -/
theorem decode_encode_and_cut {image : TablesImage} (held : image.InMemory) :
    (∀ rest, decode (image.encode ++ rest) = .ok image) ∧
      ∀ cut, cut <+: image.encode → cut ≠ image.encode → decode cut = .error .unexpectedEnd := by
  have read := handles held
  refine ⟨fun rest => ?_, fun cut before shorter => ?_⟩
  · rw [decode, encode, read.whole]
    rfl
  · obtain ⟨behind, split⟩ := before
    have full : behind ≠ [] := by
      rintro rfl
      exact shorter (by rwa [List.append_nil] at split)
    rw [decode, read.cut split.symm full]
    rfl

/-- An image whose numbers take one, three and five bytes. -/
def sampleImage : TablesImage :=
  { moduleName := "app.dll"
    strings := 0 :: List.replicate 300 0x61
    assemblyRefs := [{ name := 300, version := { minor := 251 } }]
    typeRefs := [{ scope := 0x23000001, name := 5, nameSpace := 65536 }]
    files := [{ name := 1, containsMetadata := true }] }

theorem decode_encode_and_cut_sample : sampleImage.InMemory ∧
    decode (sampleImage.encode ++ [0x07]) = .ok sampleImage ∧
      sampleImage.encode.take 330 ≠ sampleImage.encode ∧
      decode (sampleImage.encode.take 330) = .error .unexpectedEnd := by
  have held : sampleImage.InMemory := by decide +kernel
  have cut : sampleImage.encode.take 330 ≠ sampleImage.encode := by decide +kernel
  obtain ⟨round, short⟩ := decode_encode_and_cut held
  exact ⟨held, round _, cut, short _ (List.take_prefix ..) cut⟩

end TablesImage

end ManagedCode
