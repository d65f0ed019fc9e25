import ManagedCode.Metadata.Layout

namespace ManagedCode

/-- What was written is read back, whatever comes after it. -/
theorem Compressed.decode?_encode? {value : Nat} {bytes : List UInt8}
    (h : encode? value = some bytes) (rest : List UInt8) :
    decode? (bytes ++ rest) = some (value, bytes.length) := by
  have byte : ∀ n : Nat, (UInt8.ofNat n).toNat = n % 256 := fun n => UInt8.toNat_ofNat'
  have below : ∀ n m : Nat, m < 256 → (UInt8.ofNat n < UInt8.ofNat m ↔ n % 256 < m) := by
    intro n m hm
    rw [UInt8.lt_iff_toNat_lt, byte, byte, Nat.mod_eq_of_lt hm]
  unfold encode? at h
  split at h
  next small =>
    cases h
    have first : UInt8.ofNat value < 0x80 := (below value 0x80 (by decide)).mpr (by omega)
    unfold decode?
    rw [List.singleton_append]
    dsimp only
    rw [if_pos first, byte]
    simp only [List.length_singleton, Option.some.injEq, Prod.mk.injEq, and_true]
    omega
  next large =>
    split at h
    next middle =>
      cases h
      have first : ¬UInt8.ofNat (0x80 + value / 0x100) < 0x80 := fun less => by
        have := (below _ 0x80 (by decide)).mp less
        omega
      have second : UInt8.ofNat (0x80 + value / 0x100) < 0xC0 :=
        (below _ 0xC0 (by decide)).mpr (by omega)
      change decode? (UInt8.ofNat (0x80 + value / 0x100) :: UInt8.ofNat value :: rest) = _
      rw [decode?, if_neg first, if_pos second]
      simp only [byte, List.length_cons, List.length_nil, Option.some.injEq, Prod.mk.injEq,
        and_true]
      omega
    next huge =>
      split at h
      next room =>
        cases h
        unfold limit at room
        have first : ¬UInt8.ofNat (0xC0 + value / 0x1000000) < 0x80 := fun less => by
          have := (below _ 0x80 (by decide)).mp less
          omega
        have second : ¬UInt8.ofNat (0xC0 + value / 0x1000000) < 0xC0 := fun less => by
          have := (below _ 0xC0 (by decide)).mp less
          omega
        change decode? (UInt8.ofNat (0xC0 + value / 0x1000000) :: UInt8.ofNat (value / 0x10000) ::
          UInt8.ofNat (value / 0x100) :: UInt8.ofNat value :: rest) = _
        rw [decode?, if_neg first, if_neg second]
        simp only [byte, List.length_cons, List.length_nil, Option.some.injEq, Prod.mk.injEq,
          and_true]
        omega
      next => cases h

theorem Compressed.encode_eq_ok {value : Nat} {bytes : List UInt8}
    (h : Compressed.encode value = .ok bytes) : encode? value = some bytes := by
  unfold Compressed.encode at h
  split at h
  next same => cases h; exact same
  next => cases h

/-- Only the zero character is written with a zero byte. -/
theorem zero_not_mem_utf8EncodeChar {c : Char} (h : c ≠ '\x00') :
    0 ∉ String.utf8EncodeChar c := by
  have positive : c.val.toNat ≠ 0 := fun zero =>
    h (Char.ext (UInt32.toNat_inj.mp (zero.trans (by decide))))
  have bound : c.val.toNat < 0x110000 := by
    have := c.valid
    rcases this with h | h <;> omega
  have byte : ∀ n : Nat, n % 256 ≠ 0 → (0 : UInt8) ≠ UInt8.ofNat n := by
    intro n hn same
    have := congrArg UInt8.toNat same
    rw [UInt8.toNat_ofNat'] at this
    exact hn this.symm
  unfold String.utf8EncodeChar
  dsimp only
  split
  next => exact fun hm => byte _ (by omega) (List.mem_singleton.mp hm)
  next =>
    split
    next => 
      simp only [List.mem_cons, List.not_mem_nil, or_false, not_or]
      exact ⟨byte _ (by omega), byte _ (by omega)⟩
    next =>
      split
      next =>
        simp only [List.mem_cons, List.not_mem_nil, or_false, not_or]
        exact ⟨byte _ (by omega), byte _ (by omega), byte _ (by omega)⟩
      next =>
        simp only [List.mem_cons, List.not_mem_nil, or_false, not_or]
        exact ⟨byte _ (by omega), byte _ (by omega), byte _ (by omega), byte _ (by omega)⟩

/-- What stands before the first zero byte behind a text are the characters before its first zero
character. -/
theorem takeWhile_utf8EncodeChar (l : List Char) (rest : List UInt8) :
    (l.flatMap String.utf8EncodeChar ++ 0 :: rest).takeWhile (· ≠ 0) =
      (l.takeWhile (· ≠ '\x00')).flatMap String.utf8EncodeChar := by
  induction l with
  | nil => rfl
  | cons c l ih =>
    by_cases zero : c = '\x00'
    · subst zero
      rfl
    · have full : ∀ b ∈ String.utf8EncodeChar c, decide (b ≠ 0) = true := fun b hb =>
        decide_eq_true fun same => zero_not_mem_utf8EncodeChar zero (same ▸ hb)
      have kept : (c :: l).takeWhile (· ≠ '\x00') = c :: l.takeWhile (· ≠ '\x00') :=
        List.takeWhile_cons_of_pos (decide_eq_true zero)
      rw [List.flatMap_cons, List.append_assoc, List.takeWhile_append_of_pos full, ih, kept,
        List.flatMap_cons]

theorem utf8Bytes_eq (text : String) : utf8Bytes text = text.toList.flatMap String.utf8EncodeChar := by
  rw [utf8Bytes, ← String.utf8Encode_toList, List.utf8Encode, List.toList_data_toByteArray]

theorem ofUtf8Bytes?_flatMap (l : List Char) :
    ofUtf8Bytes? (l.flatMap String.utf8EncodeChar) = some (String.ofList l) := by
  have bytes : (⟨(l.flatMap String.utf8EncodeChar).toArray⟩ : ByteArray) = l.utf8Encode := by
    apply ByteArray.ext
    rw [List.utf8Encode]
    simp
  rw [ofUtf8Bytes?, bytes, String.fromUTF8?, dif_pos ByteArray.isValidUTF8_utf8Encode]
  rfl

namespace StringHeap

variable {heap later : StringHeap} {name : String} {n : Nat}

/-- The name has an offset in the heap already. -/
def Gives (heap : StringHeap) (name : String) (n : Nat) : Prop := heap.add name = (n, heap)

/-- Every name that has an offset lies there, with a zero byte behind it. -/
structure Sound (heap : StringHeap) : Prop where
  first : heap.bytes.head? = some 0
  placed : ∀ {name n}, heap.offsets.lookup name = some n →
    utf8Bytes name ++ [0] <+: heap.bytes.drop n

theorem gives_iff :
    heap.Gives name n ↔ name = "" ∧ n = 0 ∨ name ≠ "" ∧ heap.offsets.lookup name = some n := by
  unfold Gives add
  by_cases empty : name = ""
  · simp [empty, eq_comm]
  · rw [if_neg empty]
    cases found : heap.offsets.lookup name with
    | some offset => simp [empty]
    | none =>
      have longer : heap.bytes ++ utf8Bytes name ++ [0] ≠ heap.bytes := fun same => by
        have := congrArg List.length same
        simp at this
      simp only [ne_eq, empty, false_and, false_or, not_false_eq_true, true_and, reduceCtorEq,
        iff_false, Prod.mk.injEq, not_and]
      exact fun _ same => longer (congrArg StringHeap.bytes same)

/-- What has an offset keeps it. -/
structure Extends (heap later : StringHeap) : Prop where
  bytes : heap.bytes <+: later.bytes
  gives : ∀ {name n}, heap.Gives name n → later.Gives name n

theorem Extends.refl (heap : StringHeap) : heap.Extends heap := ⟨List.prefix_rfl, id⟩

theorem Extends.trans {last : StringHeap} (h : heap.Extends later) (h' : later.Extends last) :
    heap.Extends last := ⟨h.bytes.trans h'.bytes, fun g => h'.gives (h.gives g)⟩

theorem sound_empty : Sound {} := ⟨rfl, nofun⟩

/-- Adding a name gives it an offset and leaves all others where they are. -/
theorem Sound.add (sound : heap.Sound) (name : String) :
    (heap.add name).2.Sound ∧ heap.Extends (heap.add name).2 ∧
      (heap.add name).2.Gives name (heap.add name).1 := by
  by_cases empty : name = ""
  · have same : heap.add name = (0, heap) := by rw [StringHeap.add, if_pos empty]
    rw [same]
    exact ⟨sound, .refl heap, gives_iff.mpr (.inl ⟨empty, rfl⟩)⟩
  cases found : heap.offsets.lookup name with
  | some offset =>
    have same : heap.add name = (offset, heap) := by
      rw [StringHeap.add, if_neg empty, found]
    rw [same]
    exact ⟨sound, .refl heap, gives_iff.mpr (.inr ⟨empty, found⟩)⟩
  | none =>
    have same : heap.add name = (heap.bytes.length,
        { bytes := heap.bytes ++ utf8Bytes name ++ [0]
          offsets := heap.offsets ++ [(name, heap.bytes.length)] }) := by
      rw [StringHeap.add, if_neg empty, found]
    have here : List.lookup name (heap.offsets ++ [(name, heap.bytes.length)]) =
        some heap.bytes.length := by
      rw [List.lookup_append, found]
      simp
    rw [same]
    refine ⟨⟨?_, fun {other m} h => ?_⟩, ⟨⟨_, (List.append_assoc ..).symm⟩, fun {other m} g => ?_⟩,
      gives_iff.mpr (.inr ⟨empty, here⟩)⟩
    · rw [List.append_assoc, List.head?_append, sound.first]
      rfl
    · rw [List.lookup_append] at h
      cases old : heap.offsets.lookup other with
      | some offset =>
        rw [old] at h
        cases h
        refine (sound.placed old).trans ?_
        rw [List.append_assoc, List.drop_append]
        exact List.prefix_append ..
      | none =>
        rw [old, Option.none_or, List.lookup_cons] at h
        split at h
        next same =>
          cases h
          rw [beq_iff_eq] at same
          subst same
          exact ⟨[], by rw [List.append_nil, List.append_assoc, List.drop_left]⟩
        next => cases h
    · rcases gives_iff.mp g with empty' | ⟨full, old⟩
      · exact gives_iff.mpr (.inl empty')
      · refine gives_iff.mpr (.inr ⟨full, ?_⟩)
        rw [List.lookup_append, old]
        rfl

/-- A name lies at its offset, with a zero byte behind it. -/
theorem Gives.placed (g : heap.Gives name n) (sound : heap.Sound) :
    utf8Bytes name ++ [0] <+: heap.bytes.drop n := by
  rcases gives_iff.mp g with ⟨rfl, rfl⟩ | ⟨-, found⟩
  · obtain ⟨rest, first⟩ := List.head?_eq_some_iff.mp sound.first
    exact ⟨rest, by rw [List.drop_zero, first]; rfl⟩
  · exact sound.placed found

/-- An offset lies inside the heap. -/
theorem Gives.lt_length (g : heap.Gives name n) (sound : heap.Sound) : n < heap.bytes.length := by
  have long := (g.placed sound).length_le
  rw [List.length_drop, List.length_append, List.length_singleton] at long
  omega

/-- A name is read back from its offset, up to its first zero character. -/
theorem Gives.read? (g : heap.Gives name n) (sound : heap.Sound) :
    read? heap.bytes n = some (String.ofList (name.toList.takeWhile (· ≠ '\x00'))) := by
  obtain ⟨rest, split⟩ := g.placed sound
  have tail : heap.bytes.drop n = name.toList.flatMap String.utf8EncodeChar ++ 0 :: rest := by
    rw [← split, utf8Bytes_eq, List.append_assoc]
    rfl
  rw [StringHeap.read?, if_pos (by rw [tail]; simp), tail, takeWhile_utf8EncodeChar, ofUtf8Bytes?_flatMap]

end StringHeap

namespace BlobHeap

variable {heap later : BlobHeap} {blob : List UInt8} {n : Nat}

/-- The blob has an offset in the heap already. -/
def Gives (heap : BlobHeap) (blob : List UInt8) (n : Nat) : Prop := heap.add blob = .ok (n, heap)

/-- Every blob that has an offset lies there, after its length. -/
structure Sound (heap : BlobHeap) : Prop where
  first : heap.bytes.head? = some 0
  placed : ∀ {blob n}, heap.offsets.lookup blob = some n →
    ∃ header, Compressed.encode? blob.length = some header ∧
      header ++ blob <+: heap.bytes.drop n

theorem add_new {header : List UInt8} (full : blob ≠ []) (new : heap.offsets.lookup blob = none)
    (encoded : Compressed.encode blob.length = .ok header) :
    heap.add blob = .ok (heap.bytes.length,
      { bytes := heap.bytes ++ header ++ blob
        offsets := heap.offsets ++ [(blob, heap.bytes.length)] }) := by
  rw [add, if_neg full, new]
  dsimp only
  rw [encoded]
  rfl

theorem gives_iff :
    heap.Gives blob n ↔ blob = [] ∧ n = 0 ∨ blob ≠ [] ∧ heap.offsets.lookup blob = some n := by
  unfold Gives
  by_cases empty : blob = []
  · simp [add, empty, eq_comm]
  · cases found : heap.offsets.lookup blob with
    | some offset => simp [add, empty, found]
    | none =>
      simp only [ne_eq, empty, false_and, false_or, not_false_eq_true, true_and, reduceCtorEq,
        iff_false]
      intro same
      cases encoded : Compressed.encode blob.length with
      | error fault =>
        rw [add, if_neg empty, found] at same
        dsimp only at same
        rw [encoded] at same
        cases same
      | ok header =>
        rw [add_new empty found encoded] at same
        have bytes := congrArg (fun r => r.toOption.map (List.length ·.2.bytes)) same
        simp only [Except.toOption, Option.map_some, Option.some.injEq, List.length_append] at bytes
        exact empty (List.length_eq_zero_iff.mp (by omega))

/-- What has an offset keeps it. -/
structure Extends (heap later : BlobHeap) : Prop where
  bytes : heap.bytes <+: later.bytes
  gives : ∀ {blob n}, heap.Gives blob n → later.Gives blob n

theorem Extends.refl (heap : BlobHeap) : heap.Extends heap := ⟨List.prefix_rfl, id⟩

theorem Extends.trans {last : BlobHeap} (h : heap.Extends later) (h' : later.Extends last) :
    heap.Extends last := ⟨h.bytes.trans h'.bytes, fun g => h'.gives (h.gives g)⟩

theorem sound_empty : Sound {} := ⟨rfl, nofun⟩

/-- Adding a blob gives it an offset and leaves all others where they are. -/
theorem Sound.add (sound : heap.Sound) (h : heap.add blob = .ok (n, later)) :
    later.Sound ∧ heap.Extends later ∧ later.Gives blob n := by
  by_cases empty : blob = []
  · rw [BlobHeap.add, if_pos empty] at h
    cases h
    exact ⟨sound, .refl heap, gives_iff.mpr (.inl ⟨empty, rfl⟩)⟩
  cases found : heap.offsets.lookup blob with
  | some offset =>
    rw [BlobHeap.add, if_neg empty, found] at h
    cases h
    exact ⟨sound, .refl heap, gives_iff.mpr (.inr ⟨empty, found⟩)⟩
  | none =>
    cases encoded : Compressed.encode blob.length with
    | error fault =>
      rw [BlobHeap.add, if_neg empty, found] at h
      dsimp only at h
      rw [encoded] at h
      cases h
    | ok header =>
      rw [add_new empty found encoded] at h
      cases h
      have here : List.lookup blob (heap.offsets ++ [(blob, heap.bytes.length)]) =
          some heap.bytes.length := by
        rw [List.lookup_append, found]
        simp
      refine ⟨⟨?_, fun {other m} h => ?_⟩,
        ⟨⟨_, (List.append_assoc ..).symm⟩, fun {other m} g => ?_⟩,
        gives_iff.mpr (.inr ⟨empty, here⟩)⟩
      · rw [List.append_assoc, List.head?_append, sound.first]
        rfl
      · rw [List.lookup_append] at h
        cases old : heap.offsets.lookup other with
        | some offset =>
          rw [old] at h
          cases h
          obtain ⟨header', encoded', placed⟩ := sound.placed old
          refine ⟨header', encoded', placed.trans ?_⟩
          rw [List.append_assoc, List.drop_append]
          exact List.prefix_append ..
        | none =>
          rw [old, Option.none_or, List.lookup_cons] at h
          split at h
          next same =>
            cases h
            rw [beq_iff_eq] at same
            subst same
            exact ⟨header, Compressed.encode_eq_ok encoded, [],
              by rw [List.append_nil, List.append_assoc, List.drop_left]⟩
          next => cases h
      · rcases gives_iff.mp g with empty' | ⟨full, old⟩
        · exact gives_iff.mpr (.inl empty')
        · refine gives_iff.mpr (.inr ⟨full, ?_⟩)
          rw [List.lookup_append, old]
          rfl

theorem Sound.length_pos (sound : heap.Sound) : 0 < heap.bytes.length := by
  have first := sound.first
  cases hb : heap.bytes with
  | nil => rw [hb] at first; cases first
  | cons => exact Nat.succ_pos _

theorem Gives.lt_length (g : heap.Gives blob n) (sound : heap.Sound) : n < heap.bytes.length := by
  rcases gives_iff.mp g with ⟨-, rfl⟩ | ⟨full, found⟩
  · exact sound.length_pos
  · obtain ⟨header, -, placed⟩ := sound.placed found
    have long := placed.length_le
    have some := List.length_pos_iff.mpr full
    rw [List.length_drop, List.length_append] at long
    omega

/-- A blob is read back from its offset. -/
theorem Gives.read? (g : heap.Gives blob n) (sound : heap.Sound) :
    read? heap.bytes n = some blob := by
  have held : ∃ header rest, Compressed.encode? blob.length = some header ∧
      heap.bytes.drop n = header ++ (blob ++ rest) := by
    rcases gives_iff.mp g with ⟨rfl, rfl⟩ | ⟨-, found⟩
    · obtain ⟨rest, hb⟩ := List.head?_eq_some_iff.mp sound.first
      exact ⟨[0], rest, rfl, by rw [List.drop_zero, hb]; rfl⟩
    · obtain ⟨header, encoded, rest, split⟩ := sound.placed found
      exact ⟨header, rest, encoded, by rw [← split, List.append_assoc]⟩
  obtain ⟨header, rest, encoded, split⟩ := held
  unfold BlobHeap.read?
  simp only [split, Compressed.decode?_encode? encoded, Option.bind_eq_bind, Option.bind_some]
  rw [if_pos (by simp only [List.length_append]; omega), List.drop_left, List.take_left]

end BlobHeap

end ManagedCode
