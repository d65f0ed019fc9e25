import ManagedCode.Proofs.Metadata.RowsByToken
import ManagedCode.Proofs.Metadata.SignatureReader

namespace ManagedCode

namespace TableKind

/-- The tables that types have rows in. -/
def types : List TableKind := [.typeDef, .typeRef, .typeSpec]

/-- The table that the two low bits of a type index stand for. -/
def ofTypeIndex? (index : Nat) : Option TableKind := types[index % 4]?

end TableKind

/-- The tables in which a definition or reference can have its row. -/
def RefKey.tables : RefKey → List TableKind
  | .type (.named _) => [.typeDef, .typeRef]
  | .member (.field _) => [.field, .memberRef]
  | .member (.method _) => [.methodDef, .memberRef]
  | key => [key.table]

theorem RefKey.table_mem_tables (key : RefKey) : key.table ∈ key.tables := by
  cases key with
  | type t => cases t <;> simp [RefKey.table, tables]
  | member m => cases m <;> simp [RefKey.table, tables]
  | _ => simp [RefKey.table, tables]

theorem RefKey.tables_type (t : Ty) : ∀ table ∈ (RefKey.type t).tables, table ∈ TableKind.types := by
  cases t <;> simp [RefKey.tables, RefKey.table, TableKind.types]

theorem Target.mem_tables_of_definitions {target : Target} {table : TableKind} {key : RefKey} {i : Nat}
    (h : (target.definitions table)[i]? = some key) : table ∈ key.tables := by
  have among := List.mem_of_getElem? h
  cases table with
  | typeDef | field | methodDef =>
    obtain ⟨_, -, rfl⟩ := List.mem_map.mp among
    exact List.mem_cons_self
  | _ => cases among

/-- The types of a module have their rows in the order in which they were defined. -/
theorem Target.pairwise_typeDefs {target : Target} :
    target.typeDefs.Pairwise fun d e => d.index < e.index :=
  (List.pairwise_lt_range.map TypeDefId.mk fun _ _ less => less).filter _

namespace TablesImage

/-! What the columns of an image may hold. -/

section

variable (image : TablesImage)

/-- A column holds the token of a row of one of these tables. -/
def PointsInto (tables : List TableKind) (column : UInt32) : Prop :=
  ∃ table ∈ tables, (⟨column⟩ : Token).table? = some table ∧
    1 ≤ (⟨column⟩ : Token).row ∧ (⟨column⟩ : Token).row ≤ image.rowCount table

/-- An index in a signature names a row of a table of types. -/
def Indexed (index : Nat) : Prop :=
  ∃ table, TableKind.ofTypeIndex? index = some table ∧ 1 ≤ index / 4 ∧
    index / 4 ≤ image.rowCount table

/-- From a scope one gets to a module or assembly, through the scopes of type references. -/
inductive Resolves : UInt32 → Prop
  | found {column : UInt32} (h : image.PointsInto [.moduleRef, .assemblyRef] column) :
    Resolves column
  | through {column : UInt32} {row : TypeRefRow} (h : image.PointsInto [.typeRef] column)
    (at_ : image.typeRefs[(⟨column⟩ : Token).row - 1]? = some row) (outer : Resolves row.scope) :
    Resolves column

/-- A column holds the offset of a name. -/
def HoldsName (column : UInt32) : Prop :=
  ∃ n < image.strings.length, column = .ofNat n ∧ (StringHeap.read? image.strings n).isSome

/-- A column holds the offset of a blob in which all indices name types. -/
def HoldsSignature (read : List UInt8 → Option (List Nat)) (column : UInt32) : Prop :=
  ∃ n < image.blobs.length, column = .ofNat n ∧
    ∃ blob indices, BlobHeap.read? image.blobs n = some blob ∧ read blob = some indices ∧
      ∀ i ∈ indices, image.Indexed i

/-- All columns of names. -/
def nameColumns : List UInt32 :=
  image.assemblyRefs.map (·.name) ++ image.moduleRefs.map (·.name) ++ image.files.map (·.name) ++
    image.typeRefs.map (·.name) ++ image.typeRefs.map (·.nameSpace) ++
    image.memberRefs.map (·.name) ++ image.typeDefs.map (·.name) ++
    image.typeDefs.map (·.nameSpace) ++ image.fields.map (·.name) ++ image.methods.map (·.name)

/-- In all columns of an image there is something that is in the image. -/
structure Closed : Prop where
  scopes : ∀ row ∈ image.typeRefs, image.PointsInto [.typeRef, .moduleRef, .assemblyRef] row.scope ∧
    image.Resolves row.scope
  parents : ∀ row ∈ image.memberRefs, image.PointsInto TableKind.types row.parent
  bases : ∀ row ∈ image.typeDefs, row.extends_ ≠ 0 → image.PointsInto TableKind.types row.extends_
  /-- The type around a type has a row before it. -/
  enclosing : ∀ {i : Nat} {row}, image.typeDefs[i]? = some row → row.enclosing ≠ 0 →
    image.PointsInto [.typeDef] row.enclosing ∧ (⟨row.enclosing⟩ : Token).row ≤ i
  instances : ∀ row ∈ image.methodSpecs,
    image.PointsInto [.field, .methodDef, .memberRef, .methodSpec] row.method
  names : ∀ column ∈ image.nameColumns, image.HoldsName column
  typeSpecs : ∀ row ∈ image.typeSpecs,
    image.HoldsSignature Signature.readTypeSpec row.signature
  memberRefs : ∀ row ∈ image.memberRefs, image.HoldsSignature Signature.readMember row.signature
  methodSpecs : ∀ row ∈ image.methodSpecs,
    image.HoldsSignature Signature.readMethodInstance row.instantiation
  fields : ∀ row ∈ image.fields, image.HoldsSignature Signature.readMember row.signature
  methods : ∀ row ∈ image.methods, image.HoldsSignature Signature.readMember row.signature

end

variable {image : TablesImage} {target : Target} {session : Session} {heaps : Draft}

theorem PointsInto.mono {tables tables' : List TableKind} {column : UInt32}
    (h : image.PointsInto tables column) (sub : ∀ table ∈ tables, table ∈ tables') :
    image.PointsInto tables' column := by
  obtain ⟨table, among, rest⟩ := h
  exact ⟨table, sub table among, rest⟩

/-- An offset stays inside its heap when it is cut to 32 bits, and is unchanged where all offsets
have 32 bits. -/
theorem toNat_ofNat_offset {n length : Nat} (inside : n < length) :
    (UInt32.ofNat n).toNat < length ∧ (length ≤ 0x100000000 → (UInt32.ofNat n).toNat = n) := by
  rw [UInt32.toNat_ofNat']
  have := Nat.mod_le n (2 ^ 32)
  exact ⟨by omega, fun small => Nat.mod_eq_of_lt (by omega)⟩

theorem HoldsName.valid {column : UInt32} (h : image.HoldsName column) :
    column.toNat < image.strings.length ∧
      (image.strings.length ≤ 0x100000000 → (image.string? column).isSome) := by
  obtain ⟨n, inside, rfl, read⟩ := h
  obtain ⟨valid, exact_⟩ := toNat_ofNat_offset inside
  refine ⟨valid, fun small => ?_⟩
  rwa [TablesImage.string?, exact_ small]

theorem HoldsSignature.valid {read : List UInt8 → Option (List Nat)} {column : UInt32}
    (h : image.HoldsSignature read column) :
    column.toNat < image.blobs.length ∧ (image.blobs.length ≤ 0x100000000 →
      ∃ blob indices, image.blob? column = some blob ∧ read blob = some indices ∧
        ∀ i ∈ indices, image.Indexed i) := by
  obtain ⟨n, inside, rfl, blob, indices, held, all, named⟩ := h
  obtain ⟨valid, exact_⟩ := toNat_ofNat_offset inside
  refine ⟨valid, fun small => ⟨blob, indices, ?_, all, named⟩⟩
  rwa [TablesImage.blob?, exact_ small]

theorem reference_pointsInto (tidy : session.Tidy target)
    (laid : Layout.Laid target session heaps image) {key : RefKey} {i : Nat}
    (at_ : (session.tokens.rows key.table)[i]? = some key) :
    image.PointsInto [key.table] (Token.ofRow key.table (i + 1)).raw := by
  have inside := (List.getElem?_eq_some_iff.mp at_).1
  have room := tidy.filed.room key.table
  have count : image.rowCount key.table = (session.tokens.rows key.table).length := by
    refine rowCount_of_laid laid key.table ?_
    cases key with
    | type t => cases t <;> simp [RefKey.table, TableKind.references]
    | member m => cases m <;> simp [RefKey.table, TableKind.references]
    | _ => simp [RefKey.table, TableKind.references]
  refine ⟨key.table, List.mem_singleton_self _, Token.table?_ofRow .., ?_, ?_⟩ <;>
    rw [Token.row_ofRow_of_lt (by omega)] <;> omega

/-- What a column refers to has a row in one of its tables. -/
theorem pointsInto_of_refers (made : target.symbols.Made) (fits : target.Fits)
    (tidy : session.Tidy target) (laid : Layout.Laid target session heaps image) {key : RefKey}
    {column : UInt32} (h : session.Refers target key column) :
    image.PointsInto key.tables column := by
  rcases Session.lookup_eq_ok made tidy h with ⟨table, i, definition, at_, same⟩ | ⟨i, at_, same⟩
  · have inside := (List.getElem?_eq_some_iff.mp at_).1
    have room := Target.definitions_length_lt fits table
    have count := rowCount_definitions laid definition
    refine ⟨table, Target.mem_tables_of_definitions at_, ?_⟩
    rw [same, Token.table?_ofRow, Token.row_ofRow_of_lt (by omega)]
    exact ⟨rfl, by omega, by omega⟩
  · have points := reference_pointsInto tidy laid at_
    rw [← same] at points
    exact points.mono fun table among => List.mem_singleton.mp among ▸ key.table_mem_tables

/-- The index of a type token says what the token says. -/
theorem indexed_of_typeIndex {token : Token} {index : Nat}
    (points : image.PointsInto TableKind.types token.raw)
    (typed : Signature.typeIndex token = .ok index) : image.Indexed index := by
  obtain ⟨table, among, kind, low, high⟩ := points
  have some_ : token.typeIndex? = some index := by
    unfold Signature.typeIndex at typed
    split at typed
    next h => cases typed; exact h
    next => cases typed
  unfold Token.typeIndex? at some_
  change token.table? = some table at kind
  change 1 ≤ token.row at low
  change token.row ≤ _ at high
  rw [kind] at some_
  simp only [TableKind.types, List.mem_cons, List.not_mem_nil, or_false] at among
  have tabled : ∀ n m : Nat, m < 4 → TableKind.ofTypeIndex? (n * 4 + m) = TableKind.types[m]? :=
    fun n m hm => by rw [TableKind.ofTypeIndex?, show (n * 4 + m) % 4 = m by omega]
  rcases among with rfl | rfl | rfl <;> cases some_
  · exact ⟨.typeDef, tabled _ 0 (by decide), by omega, by omega⟩
  · exact ⟨.typeRef, tabled _ 1 (by decide), by omega, by omega⟩
  · exact ⟨.typeSpec, tabled _ 2 (by decide), by omega, by omega⟩

/-- What is not the module's own is referred to by its row among the references. -/
theorem reserved_of_refers (made : target.symbols.Made) (tidy : session.Tidy target) {key : RefKey}
    (foreign : ¬target.IsOwn key) {column : UInt32} (h : session.Refers target key column) :
    ∃ i : Nat, (session.tokens.rows key.table)[i]? = some key ∧
      (⟨column⟩ : Token) = Token.ofRow key.table (i + 1) := by
  rcases Session.lookup_eq_ok made tidy h with ⟨table, i, -, at_, same⟩ | reserved
  · exact absurd (Target.isOwn_of_definition? made
      ((Target.definition?_eq_some_iff made).mpr ⟨table, i, at_, rfl⟩)) foreign
  · exact reserved

/-- Scopes lead outwards, to types that come before, and in the end to a module or assembly. -/
theorem resolves_of_refers (made : target.symbols.Made) (tidy : session.Tidy target)
    (laid : Layout.Laid target session heaps image) (d : TypeDefId)
    (foreign : target.isLocal d ≠ true) {column : UInt32}
    (h : session.Refers target (Layout.resolutionScope target d) column) :
    image.PointsInto [.typeRef, .moduleRef, .assemblyRef] column ∧ image.Resolves column := by
  have outermost : ∀ {key : RefKey}, ¬target.IsOwn key → key.table ∈ [.moduleRef, .assemblyRef] →
      session.Refers target key column →
        image.PointsInto [.typeRef, .moduleRef, .assemblyRef] column ∧ image.Resolves column := by
    intro key foreign among h
    obtain ⟨i, at_, same⟩ := reserved_of_refers made tidy foreign h
    have points := reference_pointsInto tidy laid at_
    rw [← same] at points
    have found : image.PointsInto [.moduleRef, .assemblyRef] column :=
      points.mono fun table ht => List.mem_singleton.mp ht ▸ among
    exact ⟨found.mono fun table ht => List.mem_cons_of_mem _ ht, .found found⟩
  unfold Layout.resolutionScope at h
  dsimp only at h
  cases outer : target.symbols.encloser? d with
  | none =>
    rw [outer] at h
    dsimp only at h
    split at h
    next => exact outermost id (by simp [RefKey.table]) h
    next => exact outermost id (by simp [RefKey.table]) h
  | some e =>
    rw [outer] at h
    obtain ⟨rest, enclosed⟩ := List.head?_eq_some_iff.mp outer
    have before : e.index < d.index := made.ordered.enclosing enclosed
    have outside : ¬target.IsOwn (.type (.named e)) := by
      rw [Target.IsOwn, Target.isLocal, Symbols.isDefinedIn,
        (made.wellFormed.enclosing enclosed).2.2]
      exact foreign
    obtain ⟨i, at_, same⟩ := reserved_of_refers made tidy outside h
    have points : image.PointsInto [.typeRef] column := by
      have := reference_pointsInto tidy laid at_
      rwa [← same] at this
    obtain ⟨row, here, described⟩ := forall₂_getElem? laid.typeRefs at_
    have inside := (List.getElem?_eq_some_iff.mp at_).1
    have room := tidy.filed.room (RefKey.type (.named e)).table
    have row_ : (⟨column⟩ : Token).row - 1 = i := by
      rw [same, Token.row_ofRow_of_lt (by omega), Nat.add_sub_cancel]
    refine ⟨points.mono (by simp), .through points (row_ ▸ here) ?_⟩
    exact (resolves_of_refers made tidy laid e outside described.1).2
termination_by d.index

theorem enclosing_of_refers (made : target.symbols.Made) (fits : target.Fits)
    (laid : Layout.Laid target session heaps image) {i : Nat}
    {d e : TypeDefId} (at_ : target.typeDefs[i]? = some d)
    (outer : target.symbols.encloser? d = some e) {column : UInt32}
    (h : session.Refers target (.type (.named e)) column) :
    image.PointsInto [.typeDef] column ∧ (⟨column⟩ : Token).row ≤ i := by
  obtain ⟨rest, enclosed⟩ := List.head?_eq_some_iff.mp outer
  have before : e.index < d.index := made.ordered.enclosing enclosed
  have here := (Target.mem_typeDefs.mp (List.mem_of_getElem? at_)).2
  have own : target.isLocal e = true := by
    rw [Target.isLocal, Symbols.isDefinedIn, (made.wellFormed.enclosing enclosed).2.2]
    exact here
  have among : e ∈ target.typeDefs :=
    Target.mem_typeDefs.mpr ⟨(made.wellFormed.enclosing enclosed).1, own⟩
  obtain ⟨j, inside, rfl⟩ := List.getElem_of_mem among
  obtain ⟨inside', rfl⟩ := List.getElem?_eq_some_iff.mp at_
  have earlier : j < i := by
    by_contra late
    rcases Nat.lt_or_eq_of_le (Nat.not_lt.mp late) with less | same
    · have := List.pairwise_iff_getElem.mp Target.pairwise_typeDefs i j inside' inside less
      omega
    · subst same
      exact absurd before (Nat.lt_irrefl _)
  have defined : (target.definitions .typeDef)[j]? = some (.type (.named target.typeDefs[j])) :=
    (Target.getElem?_map_iff (by rintro _ _ ⟨⟩; rfl)).mpr (List.getElem?_eq_getElem inside)
  have found : session.lookup target _ = .ok _ := Session.lookup_of_definition?
    ((Target.definition?_eq_some_iff made).mpr ⟨_, j, defined, rfl⟩)
  have same : (⟨column⟩ : Token) = Token.ofRow .typeDef (j + 1) :=
    Except.ok.inj (h.symm.trans found)
  have room := fits.types
  have count : image.rowCount .typeDef = target.typeDefs.length :=
    laid.definitions.types.length_eq.symm
  rw [PointsInto, same, Token.row_ofRow_of_lt (by omega)]
  exact ⟨⟨.typeDef, List.mem_singleton_self _, Token.table?_ofRow .., by omega, by omega⟩, earlier⟩

/-- The name in a column is in the heap. -/
theorem holdsName_of_names (sound : heaps.Sound) (same : image.strings = heaps.strings.bytes)
    {name : String} {column : UInt32} (h : heaps.Names name column) : image.HoldsName column := by
  obtain ⟨n, given, rfl⟩ := h
  refine ⟨n, same ▸ given.lt_length sound.strings, rfl, ?_⟩
  rw [same, given.read? sound.strings]
  rfl

/-- The signature in a column is in the heap, and all types that it names have rows. -/
theorem holdsSignature_of_signs (made : target.symbols.Made) (fits : target.Fits)
    (tidy : session.Tidy target) (laid : Layout.Laid target session heaps image)
    (sound : heaps.Sound) (same : image.blobs = heaps.blobs.bytes)
    {read : List UInt8 → Option (List Nat)} {encoded : Except Fault (List UInt8)}
    (indexes : ∀ {blob}, encoded = .ok blob → Signature.Indexes target session read blob)
    {column : UInt32} (h : heaps.Signs encoded column) : image.HoldsSignature read column := by
  obtain ⟨blob, ok, n, given, rfl⟩ := h
  obtain ⟨indices, all, named⟩ := indexes ok
  refine ⟨n, same ▸ given.lt_length sound.blobs, rfl, blob, indices,
    same ▸ given.read? sound.blobs, all, fun index among => ?_⟩
  obtain ⟨d, token, found, typed⟩ := named index among
  have refers : session.Refers target (.type (.named d)) token.raw := found
  have points := pointsInto_of_refers made fits tidy laid refers
  exact indexed_of_typeIndex (points.mono (RefKey.tables_type _)) typed

theorem indexes_encodeOpen {member : OpenMember} {blob : List UInt8}
    (h : target.encodeOpen session member = .ok blob) :
    Signature.Indexes target session Signature.readMember blob := by
  cases member with
  | field f => exact Signature.indexes_field h
  | method m => exact Signature.indexes_method h

/-- However a member is referenced, its row has a type, a name and a signature. -/
theorem of_describesMemberRef {key : RefKey} {row : MemberRefRow}
    (h : target.DescribesMemberRef session heaps key row) :
    (∃ t, session.Refers target (.type t) row.parent) ∧ (∃ name, heaps.Names name row.name) ∧
      ∃ encoded, heaps.Signs encoded row.signature ∧ ∀ {blob}, encoded = .ok blob →
        Signature.Indexes target session Signature.readMember blob := by
  cases key with
  | member m =>
    cases m with
    | field | method | specializedField | specializedMethod =>
      exact ⟨⟨_, h.1⟩, ⟨_, h.2.1⟩, _, h.2.2, indexes_encodeOpen⟩
    | methodInstance => cases h
  | arrayMethod kind t =>
    obtain ⟨method, -, parent, name, signature⟩ := h
    exact ⟨⟨_, parent⟩, ⟨_, name⟩, _, signature, Signature.indexes_method⟩
  | _ => cases h

/-- Each row of a type reference is that of a type that was reserved. -/
theorem of_mem_typeRefs (laid : Layout.Laid target session heaps image) {row : TypeRefRow}
    (hr : row ∈ image.typeRefs) : ∃ d, .type (.named d) ∈ session.tokens.rows .typeRef ∧
      target.DescribesTypeRef session heaps (.type (.named d)) row := by
  obtain ⟨key, among, described⟩ := forall₂_mem_right laid.typeRefs hr
  cases key with
  | type t =>
    cases t with
    | named d => exact ⟨d, among, described⟩
    | _ => cases described
  | _ => cases described

theorem of_mem_methodSpecs (laid : Layout.Laid target session heaps image) {row : MethodSpecRow}
    (hr : row ∈ image.methodSpecs) :
    ∃ method args, .member (.methodInstance method args) ∈ session.tokens.rows .methodSpec ∧
      target.DescribesMethodSpec session heaps (.member (.methodInstance method args)) row := by
  obtain ⟨key, among, described⟩ := forall₂_mem_right laid.methodSpecs hr
  cases key with
  | member m =>
    cases m with
    | methodInstance method args => exact ⟨method, args, among, described⟩
    | _ => cases described
  | _ => cases described

theorem holdsName_of_laid (laid : Layout.Laid target session heaps image) (sound : heaps.Sound)
    (same : image.strings = heaps.strings.bytes) {column : UInt32}
    (among : column ∈ image.nameColumns) : image.HoldsName column := by
  suffices ∃ name, heaps.Names name column by
    obtain ⟨name, named⟩ := this
    exact holdsName_of_names sound same named
  simp only [nameColumns, List.mem_append, List.mem_map] at among
  rcases among with ((((((((⟨row, hr, rfl⟩ | ⟨row, hr, rfl⟩) | ⟨row, hr, rfl⟩) | ⟨row, hr, rfl⟩) |
    ⟨row, hr, rfl⟩) | ⟨row, hr, rfl⟩) | ⟨row, hr, rfl⟩) | ⟨row, hr, rfl⟩) | ⟨row, hr, rfl⟩) |
    ⟨row, hr, rfl⟩
  · obtain ⟨key, -, described⟩ := forall₂_mem_right laid.assemblyRefs hr
    cases key <;> first | exact ⟨_, described.1⟩ | cases described
  · obtain ⟨key, -, described⟩ := forall₂_mem_right laid.moduleRefs hr
    cases key <;> first | exact ⟨_, described⟩ | cases described
  · obtain ⟨key, -, described⟩ := forall₂_mem_right laid.files hr
    cases key <;> first | exact ⟨_, described.1⟩ | cases described
  · obtain ⟨d, -, described⟩ := of_mem_typeRefs laid hr
    exact ⟨_, described.2.1⟩
  · obtain ⟨d, -, described⟩ := of_mem_typeRefs laid hr
    exact ⟨_, described.2.2⟩
  · obtain ⟨key, -, described⟩ := forall₂_mem_right laid.memberRefs hr
    exact (of_describesMemberRef described).2.1
  · obtain ⟨d, -, described⟩ := forall₂_mem_right laid.definitions.types hr
    exact ⟨_, described.1⟩
  · obtain ⟨d, -, described⟩ := forall₂_mem_right laid.definitions.types hr
    exact ⟨_, described.2.1⟩
  · obtain ⟨f, -, described⟩ := forall₂_mem_right laid.definitions.fields hr
    exact ⟨_, described.1⟩
  · obtain ⟨m, -, described⟩ := forall₂_mem_right laid.definitions.methods hr
    exact ⟨_, described.1⟩

theorem closed_of_laid (made : target.symbols.Made) (fits : target.Fits)
    (tidy : session.Tidy target) (laid : Layout.Laid target session heaps image)
    (sound : heaps.Sound) (strings : image.strings = heaps.strings.bytes)
    (blobs : image.blobs = heaps.blobs.bytes) : image.Closed where
  scopes row hr := by
    obtain ⟨d, among, described⟩ := of_mem_typeRefs laid hr
    have foreign := tidy.foreign (tidy.filed.mem_rows.mp among).1
    exact resolves_of_refers made tidy laid d foreign described.1
  parents row hr := by
    obtain ⟨key, -, described⟩ := forall₂_mem_right laid.memberRefs hr
    obtain ⟨⟨t, referred⟩, -⟩ := of_describesMemberRef described
    exact (pointsInto_of_refers made fits tidy laid referred).mono (RefKey.tables_type t)
  bases row hr nonzero := by
    obtain ⟨d, -, -, -, based, -⟩ := forall₂_mem_right laid.definitions.types hr
    cases base : (target.symbols.typeDef d).base with
    | none => rw [base] at based; exact absurd based nonzero
    | some t =>
      rw [base] at based
      exact (pointsInto_of_refers made fits tidy laid based).mono (RefKey.tables_type t)
  enclosing {i row} at_ nonzero := by
    obtain ⟨d, here, -, -, -, outer⟩ := forall₂_getElem? laid.definitions.types.flip at_
    cases encloser : target.symbols.encloser? d with
    | none => rw [encloser] at outer; exact absurd outer nonzero
    | some e =>
      rw [encloser] at outer
      exact enclosing_of_refers made fits laid here encloser outer
  instances row hr := by
    obtain ⟨method, args, -, referred, -⟩ := of_mem_methodSpecs laid hr
    refine (pointsInto_of_refers made fits tidy laid referred).mono ?_
    cases method <;> simp [RefKey.tables, RefKey.table]
  names column among := holdsName_of_laid laid sound strings among
  typeSpecs row hr := by
    obtain ⟨key, -, described⟩ := forall₂_mem_right laid.typeSpecs hr
    cases key with
    | type t =>
      exact holdsSignature_of_signs made fits tidy laid sound blobs Signature.indexes_typeSpec
        described
    | _ => cases described
  memberRefs row hr := by
    obtain ⟨key, -, described⟩ := forall₂_mem_right laid.memberRefs hr
    obtain ⟨-, -, encoded, signed, indexes⟩ := of_describesMemberRef described
    exact holdsSignature_of_signs made fits tidy laid sound blobs indexes signed
  methodSpecs row hr := by
    obtain ⟨method, args, -, -, signed⟩ := of_mem_methodSpecs laid hr
    exact holdsSignature_of_signs made fits tidy laid sound blobs
      Signature.indexes_methodInstance signed
  fields row hr := by
    obtain ⟨f, -, -, signed⟩ := forall₂_mem_right laid.definitions.fields hr
    exact holdsSignature_of_signs made fits tidy laid sound blobs indexes_encodeOpen signed
  methods row hr := by
    obtain ⟨m, -, -, signed⟩ := forall₂_mem_right laid.definitions.methods hr
    exact holdsSignature_of_signs made fits tidy laid sound blobs indexes_encodeOpen signed

end TablesImage

/-- The method is not itself an instance of a generic method, nor a field. -/
def MemberRef.IsMethod : MemberRef → Prop
  | .method _ | .specializedMethod _ _ => True
  | _ => False

/-- An image refers to nothing that is not in it: each token in a row, and each index in a
signature, is that of a row of the image, of a table that has its place there, and each offset
lies in its heap. -/
theorem image_closed {target : Target} (made : target.symbols.Made) (fits : target.Fits)
    {requests : List Request} (known : ∀ r ∈ requests, target.symbols.Answers r)
    {image : TablesImage} {later : Session}
    (built : target.image (target.serveAll {} requests) = .ok image later) :
    image.Closed ∧
      ((∀ method args, (target.serveAll {} requests).Reserved
        (.member (.methodInstance method args)) → method.IsMethod) →
          ∀ row ∈ image.methodSpecs, image.PointsInto [.methodDef, .memberRef] row.method) := by
  have tidy := Target.tidy_serveAll made.wellFormed known (Session.tidy_empty target)
  obtain ⟨heaps, -, sound, laid, strings, blobs⟩ := Target.laid_of_image tidy built
  refine ⟨TablesImage.closed_of_laid made fits tidy laid sound strings blobs, fun plain row hr => ?_⟩
  obtain ⟨method, args, among, referred, -⟩ := TablesImage.of_mem_methodSpecs laid hr
  have reserved := (tidy.filed.mem_rows.mp among).1
  have points := TablesImage.pointsInto_of_refers made fits tidy laid referred
  cases method with
  | method m => exact points
  | specializedMethod m container => exact points.mono (by simp [RefKey.tables, RefKey.table])
  | _ => exact (plain _ _ reserved).elim

/-- An instance of a generic method, if it is one, is that of a method. -/
def Target.wrapsMethod : RefKey → Bool
  | .member (.methodInstance (.method _) _) => true
  | .member (.methodInstance _ _) => false
  | _ => true

theorem image_closed_catalog : ∃ image later,
    Target.catalog.image (Target.catalog.serveAll {} Target.catalogRequests) = .ok image later ∧
      image.Closed ∧ ∀ row ∈ image.methodSpecs,
        image.PointsInto [.methodDef, .memberRef] row.method := by
  obtain ⟨image, later, built⟩ := Target.image_catalog
  obtain ⟨closed, methods⟩ := image_closed Target.made_catalog Target.fits_catalog
    Target.answers_catalog built
  refine ⟨image, later, built, closed, methods fun method args reserved => ?_⟩
  have all : (Target.catalog.serveAll {} Target.catalogRequests).tokens.keys.all
      Target.wrapsMethod = true := by decide +kernel
  have plain := List.all_eq_true.mp all _ reserved
  cases method with
  | method => exact trivial
  | _ => cases plain

end ManagedCode
