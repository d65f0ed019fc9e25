import ManagedCode.Metadata.Signature
import ManagedCode.Proofs.Metadata.Heaps
import ManagedCode.Proofs.Step

namespace ManagedCode

namespace Signature

/-! The indices of definitions in the bytes of a signature, read without knowing what was
written. -/

/-- Reads the front of some bytes: the indices in it, and the bytes behind it. -/
abbrev Reader := List UInt8 → Option (List Nat × List UInt8)

def readNumber (bytes : List UInt8) : Option (Nat × List UInt8) := do
  let (value, length) ← Compressed.decode? bytes
  return (value, bytes.drop length)

/-- An index, written after the code of a class or value type. -/
def readNamed : Reader
  | [] => none
  | code :: rest =>
    if code = classCode ∨ code = valueTypeCode then do
      let (index, rest) ← readNumber rest
      return ([index], rest)
    else none

/-- Reads something so many times. -/
def readMany (read : Reader) : Nat → Reader
  | 0, bytes => some ([], bytes)
  | n + 1, bytes => do
    let (first, rest) ← read bytes
    let (others, rest) ← readMany read n rest
    return (first ++ others, rest)

/-- A primitive type is one byte. -/
def isPrimitiveCode (code : UInt8) : Bool := Primitive.all.any (·.elementCode = code)

/-- A type whose parts lie at most so deep. -/
def readTy : (depth : Nat) → Reader
  | 0, _ => none
  | _ + 1, [] => none
  | depth + 1, code :: rest =>
    if isPrimitiveCode code then some ([], rest)
    else if code = vectorCode ∨ code = pointerCode ∨ code = byRefCode then readTy depth rest
    else if code = typeParamCode ∨ code = methodParamCode then do
      let (_, rest) ← readNumber rest
      return ([], rest)
    else if code = arrayCode then do
      let (indices, rest) ← readTy depth rest
      let (_, rest) ← readNumber rest
      return (indices, rest.drop 2)
    else if code = instanceCode then do
      let (definition, rest) ← readNamed rest
      let (count, rest) ← readNumber rest
      let (args, rest) ← readMany (readTy depth) count rest
      return (definition ++ args, rest)
    else readNamed (code :: rest)

/-- What was read, if nothing is left behind it. -/
def whole : Option (List Nat × List UInt8) → Option (List Nat)
  | some (indices, []) => some indices
  | _ => none

/-- The signature of a field, or of a method: its return type and parameters after their number,
which comes after that of its own parameters if it is generic. -/
def readMember : List UInt8 → Option (List Nat)
  | [] => none
  | code :: rest =>
    if code = fieldCode then whole (readTy rest.length rest)
    else do
      let rest ← if code = methodCode false true ∨ code = methodCode true true
        then (readNumber rest).map (·.2) else some rest
      let (count, rest) ← readNumber rest
      whole (readMany (readTy rest.length) (count + 1) rest)

def readTypeSpec (bytes : List UInt8) : Option (List Nat) := whole (readTy bytes.length bytes)

/-- The arguments of a generic method after their number. -/
def readMethodInstance : List UInt8 → Option (List Nat)
  | [] => none
  | _ :: rest => do
    let (count, rest) ← readNumber rest
    whole (readMany (readTy rest.length) count rest)

theorem readNumber_encode {value : Nat} {bytes : List UInt8}
    (h : Compressed.encode value = .ok bytes) (rest : List UInt8) :
    readNumber (bytes ++ rest) = some (value, rest) := by
  unfold readNumber
  rw [Compressed.decode?_encode? (Compressed.encode_eq_ok h)]
  simp only [Option.bind_eq_bind, Option.bind_some, List.drop_left]
  rfl

variable {target : Target} {session : Session}

/-- An index is that of a definition that is found. -/
def Named (target : Target) (session : Session) (index : Nat) : Prop :=
  ∃ d token, session.lookup target (.type (.named d)) = .ok token ∧ typeIndex token = .ok index

/-- What was written can be read, and all indices in it are those of definitions. -/
def Reads (target : Target) (session : Session) (read : Reader) (bytes : List UInt8) : Prop :=
  ∃ indices, (∀ rest, read (bytes ++ rest) = some (indices, rest)) ∧
    ∀ i ∈ indices, Named target session i

theorem reads_named {d : TypeDefId} {bytes : List UInt8}
    (h : encodeNamed target session d = .ok bytes) : Reads target session readNamed bytes := by
  unfold encodeNamed at h
  obtain ⟨token, found, h⟩ := except_bind_eq_ok.mp h
  obtain ⟨index, ofToken, h⟩ := except_bind_eq_ok.mp h
  obtain ⟨number, encoded, h⟩ := except_bind_eq_ok.mp h
  cases h
  have typed : typeIndex token = .ok index := by
    cases ht : typeIndex token with
    | ok i => rw [ht] at ofToken; cases ofToken; rfl
    | error misuse => rw [ht] at ofToken; cases ofToken
  refine ⟨[index], fun rest => ?_, fun i hi => ?_⟩
  · have code : ∀ valueType : Bool,
        (if valueType then valueTypeCode else classCode) = classCode ∨
          (if valueType then valueTypeCode else classCode) = valueTypeCode := by
      intro valueType
      cases valueType
      · exact .inl rfl
      · exact .inr rfl
    rw [List.cons_append, readNamed, if_pos (code _), readNumber_encode encoded]
    rfl
  · rw [List.mem_singleton.mp hi]
    exact ⟨d, token, found, typed⟩

/-- Several types are read if each of them is. -/
theorem reads_many {read : Reader} {parts : List (List UInt8)}
    (h : ∀ part ∈ parts, Reads target session read part) :
    Reads target session (readMany read parts.length) parts.flatten := by
  induction parts with
  | nil => exact ⟨[], fun _ => rfl, List.forall_mem_nil _⟩
  | cons part parts ih =>
    obtain ⟨first, reads, named⟩ := h part List.mem_cons_self
    obtain ⟨others, reads', named'⟩ := ih fun p hp => h p (List.mem_cons_of_mem part hp)
    refine ⟨first ++ others, fun rest => ?_, fun i hi => ?_⟩
    · rw [List.length_cons, readMany, List.flatten_cons, List.append_assoc, reads]
      simp only [Option.bind_eq_bind, Option.bind_some, reads']
      rfl
    · rcases List.mem_append.mp hi with hi | hi
      · exact named i hi
      · exact named' i hi

/-- Types are written one behind another. -/
theorem encodeTys_eq_ok {ts : List Ty} {bytes : List UInt8}
    (h : encodeTys target session ts = .ok bytes) :
    ∃ parts : List (List UInt8), bytes = parts.flatten ∧ parts.length = ts.length ∧
      ∀ part ∈ parts, ∃ t ∈ ts, encodeTy target session t = .ok part := by
  induction ts generalizing bytes with
  | nil =>
    rw [encodeTys] at h
    cases h
    exact ⟨[], rfl, rfl, List.forall_mem_nil _⟩
  | cons t ts ih =>
    rw [encodeTys] at h
    obtain ⟨first, hf, h⟩ := except_bind_eq_ok.mp h
    obtain ⟨others, ho, h⟩ := except_bind_eq_ok.mp h
    cases h
    obtain ⟨parts, rfl, count, from_⟩ := ih ho
    refine ⟨first :: parts, rfl, by rw [List.length_cons, List.length_cons, count], fun part hp => ?_⟩
    rcases List.mem_cons.mp hp with rfl | hp
    · exact ⟨t, List.mem_cons_self, hf⟩
    · obtain ⟨u, hu, encoded⟩ := from_ part hp
      exact ⟨u, List.mem_cons_of_mem t hu, encoded⟩

theorem length_le_flatten {parts : List (List UInt8)} {part : List UInt8} (h : part ∈ parts) :
    part.length ≤ parts.flatten.length :=
  (List.sublist_flatten_of_mem h).length_le

theorem primitiveCode_elementCode (p : Primitive) : isPrimitiveCode p.elementCode = true := by
  cases p <;> decide

/-- A type is read as deep as it is long. -/
theorem reads_ty (t : Ty) {bytes : List UInt8} (h : encodeTy target session t = .ok bytes)
    {depth : Nat} (deep : bytes.length ≤ depth) : Reads target session (readTy depth) bytes := by
  have positive : bytes ≠ [] → ∃ n, depth = n + 1 := fun full =>
    ⟨depth - 1, by have := List.length_pos_iff.mpr full; omega⟩
  cases t with
  | primitive p =>
    rw [encodeTy] at h
    cases h
    obtain ⟨n, rfl⟩ := positive (by simp)
    refine ⟨[], fun rest => ?_, List.forall_mem_nil _⟩
    rw [List.singleton_append, readTy, if_pos (primitiveCode_elementCode p)]
  | named d =>
    rw [encodeTy] at h
    obtain ⟨indices, reads, named⟩ := reads_named h
    refine ⟨indices, fun rest => ?_, named⟩
    unfold encodeNamed at h
    obtain ⟨_, -, h⟩ := except_bind_eq_ok.mp h
    obtain ⟨_, -, h⟩ := except_bind_eq_ok.mp h
    obtain ⟨number, -, h⟩ := except_bind_eq_ok.mp h
    cases h
    obtain ⟨n, rfl⟩ := positive (by simp)
    rw [← reads rest, List.cons_append]
    cases (target.symbols.typeDef d).isValueType <;> rfl
  | typeParam i | methodParam i =>
    rw [encodeTy] at h
    obtain ⟨number, encoded, h⟩ := except_bind_eq_ok.mp h
    cases h
    obtain ⟨n, rfl⟩ := positive (by simp)
    refine ⟨[], fun rest => ?_, List.forall_mem_nil _⟩
    have step := readNumber_encode encoded rest
    rw [List.cons_append, readTy, if_neg (by decide), if_neg (by decide), if_pos (by decide), step]
    rfl
  | vector t | pointer t | byRef t =>
    rw [encodeTy] at h
    obtain ⟨inner, encoded, h⟩ := except_bind_eq_ok.mp h
    cases h
    obtain ⟨n, rfl⟩ := positive (by simp)
    obtain ⟨indices, reads, named⟩ := reads_ty t encoded (Nat.le_of_succ_le_succ deep)
    refine ⟨indices, fun rest => ?_, named⟩
    rw [List.cons_append, readTy, if_neg (by decide), if_pos (by decide), reads]
  | array t rank =>
    rw [encodeTy] at h
    obtain ⟨inner, encoded, h⟩ := except_bind_eq_ok.mp h
    obtain ⟨number, ranked, h⟩ := except_bind_eq_ok.mp h
    cases h
    obtain ⟨n, rfl⟩ := positive (by simp)
    have less : inner.length ≤ n := by
      simp only [List.length_append, List.length_cons] at deep
      omega
    obtain ⟨indices, reads, named⟩ := reads_ty t encoded less
    refine ⟨indices, fun rest => ?_, named⟩
    have split : arrayCode :: inner ++ number ++ [0, 0] ++ rest =
        arrayCode :: (inner ++ (number ++ ([0, 0] ++ rest))) := by
      simp only [List.cons_append, List.append_assoc]
    rw [split, readTy, if_neg (by decide), if_neg (by decide), if_neg (by decide),
      if_pos rfl, reads]
    simp only [Option.bind_eq_bind, Option.bind_some, readNumber_encode ranked]
    rfl
  | inst d args =>
    rw [encodeTy] at h
    obtain ⟨definition, defined, h⟩ := except_bind_eq_ok.mp h
    obtain ⟨number, counted, h⟩ := except_bind_eq_ok.mp h
    obtain ⟨others, encoded, h⟩ := except_bind_eq_ok.mp h
    cases h
    obtain ⟨n, rfl⟩ := positive (by simp)
    obtain ⟨parts, rfl, count, from_⟩ := encodeTys_eq_ok encoded
    obtain ⟨index, reads, named⟩ := reads_named defined
    have each : ∀ part ∈ parts, Reads target session (readTy n) part := by
      intro part hp
      obtain ⟨t, ht, encoded'⟩ := from_ part hp
      have less := length_le_flatten hp
      simp only [List.length_append, List.length_cons] at deep
      exact reads_ty t encoded' (by omega)
    obtain ⟨indices, reads', named'⟩ := reads_many each
    refine ⟨index ++ indices, fun rest => ?_, fun i hi => ?_⟩
    · have split : instanceCode :: definition ++ number ++ parts.flatten ++ rest =
          instanceCode :: (definition ++ (number ++ (parts.flatten ++ rest))) := by
        simp only [List.cons_append, List.append_assoc]
      rw [split, readTy, if_neg (by decide), if_neg (by decide), if_neg (by decide),
        if_neg (by decide), if_pos rfl, reads]
      simp only [Option.bind_eq_bind, Option.bind_some, readNumber_encode counted, ← count, reads']
      rfl
    · rcases List.mem_append.mp hi with hi | hi
      · exact named i hi
      · exact named' i hi
termination_by t

/-- Types that were written behind one another are read as deep as the bytes are long. -/
theorem reads_tys {ts : List Ty} {bytes : List UInt8} (h : encodeTys target session ts = .ok bytes)
    {depth : Nat} (deep : bytes.length ≤ depth) :
    Reads target session (readMany (readTy depth) ts.length) bytes := by
  obtain ⟨parts, rfl, count, from_⟩ := encodeTys_eq_ok h
  rw [← count]
  refine reads_many fun part hp => ?_
  obtain ⟨t, -, encoded⟩ := from_ part hp
  exact reads_ty t encoded (Nat.le_trans (length_le_flatten hp) deep)

/-- All indices that are read in some bytes are those of definitions that are found. -/
def Indexes (target : Target) (session : Session) (read : List UInt8 → Option (List Nat))
    (bytes : List UInt8) : Prop :=
  ∃ indices, read bytes = some indices ∧ ∀ i ∈ indices, Named target session i

theorem indexes_typeSpec {t : Ty} {bytes : List UInt8} (h : encodeTy target session t = .ok bytes) :
    Indexes target session readTypeSpec bytes := by
  obtain ⟨indices, reads, named⟩ := reads_ty t h (Nat.le_refl _)
  refine ⟨indices, ?_, named⟩
  have read := reads []
  rw [List.append_nil] at read
  rw [readTypeSpec, read]
  rfl

theorem indexes_field {t : Ty} {bytes : List UInt8} (h : encodeField target session t = .ok bytes) :
    Indexes target session readMember bytes := by
  obtain ⟨inner, encoded, h⟩ := except_bind_eq_ok.mp h
  cases h
  obtain ⟨indices, reads, named⟩ := reads_ty t encoded (Nat.le_refl _)
  refine ⟨indices, ?_, named⟩
  have read := reads []
  rw [List.append_nil] at read
  rw [readMember, if_pos rfl, read]
  rfl

/-- The number of type parameters is written where there are any, then that of the parameters, the
return type and the parameters. -/
theorem encodeMethod_eq_ok {signature : MethodSignature} {bytes : List UInt8}
    (h : encodeMethod target session signature = .ok bytes) :
    ∃ arity number types,
      (if 0 < signature.genericArity then Compressed.encode signature.genericArity = .ok arity
        else arity = []) ∧
      Compressed.encode signature.params.length = .ok number ∧
      encodeTys target session (signature.ret :: signature.params) = .ok types ∧
      bytes = methodCode signature.hasThis (decide (0 < signature.genericArity)) ::
        (arity ++ (number ++ types)) := by
  have finish : ∀ {arity : List UInt8}, (do
      let count ← Compressed.encode signature.params.length
      let ret ← encodeTy target session signature.ret
      let params ← encodeTys target session signature.params
      return methodCode signature.hasThis (decide (0 < signature.genericArity)) ::
        arity ++ count ++ ret ++ params) = .ok bytes →
      ∃ number types, Compressed.encode signature.params.length = .ok number ∧
        encodeTys target session (signature.ret :: signature.params) = .ok types ∧
        bytes = methodCode signature.hasThis (decide (0 < signature.genericArity)) ::
          (arity ++ (number ++ types)) := by
    intro arity h
    obtain ⟨number, counted, h⟩ := except_bind_eq_ok.mp h
    obtain ⟨ret, returned, h⟩ := except_bind_eq_ok.mp h
    obtain ⟨params, taken, h⟩ := except_bind_eq_ok.mp h
    cases h
    refine ⟨number, ret ++ params, counted, ?_, by simp only [List.cons_append, List.append_assoc]⟩
    rw [encodeTys]
    exact except_bind_eq_ok.mpr ⟨ret, returned, except_bind_eq_ok.mpr ⟨params, taken, rfl⟩⟩
  unfold encodeMethod at h
  dsimp only at h
  by_cases isGeneric : 0 < signature.genericArity
  · rw [if_pos (decide_eq_true isGeneric)] at h
    obtain ⟨arity, generic, h⟩ := except_bind_eq_ok.mp h
    obtain ⟨number, types, counted, typed, split⟩ := finish h
    exact ⟨arity, number, types, by rwa [if_pos isGeneric], counted, typed, split⟩
  · rw [if_neg (by simpa using isGeneric)] at h
    obtain ⟨number, types, counted, typed, split⟩ := finish h
    exact ⟨[], number, types, by rw [if_neg isGeneric], counted, typed, split⟩

theorem indexes_method {signature : MethodSignature} {bytes : List UInt8}
    (h : encodeMethod target session signature = .ok bytes) :
    Indexes target session readMember bytes := by
  obtain ⟨arity, number, types, generic, counted, typed, rfl⟩ := encodeMethod_eq_ok h
  obtain ⟨indices, reads, named⟩ := reads_tys typed (Nat.le_refl _)
  refine ⟨indices, ?_, named⟩
  have read := reads []
  rw [List.append_nil, List.length_cons] at read
  have step := readNumber_encode counted types
  have notField : ∀ hasThis isGeneric, methodCode hasThis isGeneric ≠ fieldCode := by decide
  rw [readMember, if_neg (notField _ _)]
  by_cases isGeneric : 0 < signature.genericArity
  · rw [if_pos isGeneric] at generic
    have marked : ∀ hasThis, methodCode hasThis true = methodCode false true ∨
        methodCode hasThis true = methodCode true true := by decide
    rw [decide_eq_true isGeneric, if_pos (marked _), readNumber_encode generic]
    simp only [Option.map_some, Option.bind_eq_bind, Option.bind_some, step, read]
    rfl
  · rw [if_neg isGeneric] at generic
    subst generic
    have plain : ∀ hasThis, ¬(methodCode hasThis false = methodCode false true ∨
        methodCode hasThis false = methodCode true true) := by decide
    rw [decide_eq_false isGeneric, if_neg (plain _)]
    simp only [List.nil_append, Option.bind_eq_bind, Option.bind_some, step, read]
    rfl

theorem indexes_methodInstance {args : List Ty} {bytes : List UInt8}
    (h : encodeMethodInstance target session args = .ok bytes) :
    Indexes target session readMethodInstance bytes := by
  obtain ⟨number, counted, h⟩ := except_bind_eq_ok.mp h
  obtain ⟨others, encoded, h⟩ := except_bind_eq_ok.mp h
  cases h
  obtain ⟨indices, reads, named⟩ := reads_tys encoded (Nat.le_refl _)
  refine ⟨indices, ?_, named⟩
  have read := reads []
  rw [List.append_nil] at read
  rw [List.cons_append, readMethodInstance, readNumber_encode counted]
  simp only [Option.bind_eq_bind, Option.bind_some, read]
  rfl

end Signature

end ManagedCode
