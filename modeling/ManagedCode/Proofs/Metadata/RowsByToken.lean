import ManagedCode.Proofs.Metadata.Requests
import ManagedCode.Proofs.Metadata.Rows
import ManagedCode.Proofs.Symbols.Made

namespace ManagedCode

/-- In lists that are put behind one another, the elements of one are those between its start and
the start of the next. -/
theorem mem_iff_getElem?_flatMap {α β : Type} {l : List α} {g : α → List β} {i : Nat} {a : α}
    (ha : l[i]? = some a) (b : β) :
    b ∈ g a ↔ ∃ j, ((l.take i).flatMap g).length ≤ j ∧ j < ((l.take (i + 1)).flatMap g).length ∧
      (l.flatMap g)[j]? = some b := by
  rw [flatMap_take_succ ha, List.length_append]
  constructor
  · intro hb
    obtain ⟨k, hk, rfl⟩ := List.getElem_of_mem hb
    exact ⟨((l.take i).flatMap g).length + k, by omega, by omega,
      getElem?_flatMap ha (List.getElem?_eq_getElem hk)⟩
  · rintro ⟨j, first, last, hj⟩
    rw [flatMap_eq_take_append l g (i + 1), flatMap_take_succ ha, List.append_assoc,
      List.getElem?_append_right first,
      List.getElem?_append_left (by omega)] at hj
    exact List.mem_of_getElem? hj

namespace Target

/-- The definitions of the module are few enough for tokens. -/
structure Fits (target : Target) : Prop where
  types : target.typeDefs.length < Token.rowLimit
  fields : target.fields.length < Token.rowLimit
  methods : target.methods.length < Token.rowLimit

/-- The definitions of the module in the order of their rows. -/
def definitions (target : Target) : TableKind → List RefKey
  | .typeDef => target.typeDefs.map fun d => .type (.named d)
  | .field => target.fields.map fun f => .member (.field f)
  | .methodDef => target.methods.map fun m => .member (.method m)
  | _ => []

variable {target : Target} {key : RefKey} {token : Token}

theorem definitions_length_lt (fits : target.Fits) (table : TableKind) :
    (target.definitions table).length < Token.rowLimit := by
  cases table with
  | typeDef => simpa [definitions] using fits.types
  | field => simpa [definitions] using fits.fields
  | methodDef => simpa [definitions] using fits.methods
  | _ => exact Nat.succ_pos _

theorem getElem?_map_iff {α β : Type} {f : α → β} (inj : ∀ {a b}, f a = f b → a = b) {l : List α}
    {i : Nat} {a : α} : (l.map f)[i]? = some (f a) ↔ l[i]? = some a := by
  rw [List.getElem?_map, Option.map_eq_some_iff]
  exact ⟨fun ⟨b, hb, same⟩ => inj same ▸ hb, fun ha => ⟨a, ha, rfl⟩⟩

/-- The token of a definition says in which row it is. -/
theorem definition?_eq_some_iff (made : target.symbols.Made) :
    target.definition? key = some token ↔
      ∃ table i, (target.definitions table)[i]? = some key ∧ token = Token.ofRow table (i + 1) := by
  constructor
  · intro h
    cases key with
    | type t =>
      cases t with
      | named d =>
        obtain ⟨i, at_, rfl⟩ := Option.map_eq_some_iff.mp h
        refine ⟨.typeDef, i, ?_, rfl⟩
        exact (getElem?_map_iff (by rintro _ _ ⟨⟩; rfl)).mpr
          ((idxOf?_eq_some_iff_of_nodup nodup_typeDefs).mp at_)
      | _ => cases h
    | member m =>
      cases m with
      | field f =>
        obtain ⟨i, at_, rfl⟩ := Option.map_eq_some_iff.mp h
        refine ⟨.field, i, ?_, rfl⟩
        exact (getElem?_map_iff (by rintro _ _ ⟨⟩; rfl)).mpr
          ((idxOf?_eq_some_iff_of_nodup (nodup_fields made)).mp at_)
      | method m =>
        obtain ⟨i, at_, rfl⟩ := Option.map_eq_some_iff.mp h
        refine ⟨.methodDef, i, ?_, rfl⟩
        exact (getElem?_map_iff (by rintro _ _ ⟨⟩; rfl)).mpr
          ((idxOf?_eq_some_iff_of_nodup (nodup_methods made)).mp at_)
      | _ => cases h
    | _ => cases h
  · rintro ⟨table, i, at_, rfl⟩
    cases table with
    | typeDef =>
      obtain ⟨d, here, rfl⟩ := Option.map_eq_some_iff.mp (List.getElem?_map ▸ at_)
      exact Option.map_eq_some_iff.mpr
        ⟨i, (idxOf?_eq_some_iff_of_nodup nodup_typeDefs).mpr here, rfl⟩
    | field =>
      obtain ⟨f, here, rfl⟩ := Option.map_eq_some_iff.mp (List.getElem?_map ▸ at_)
      exact Option.map_eq_some_iff.mpr
        ⟨i, (idxOf?_eq_some_iff_of_nodup (nodup_fields made)).mpr here, rfl⟩
    | methodDef =>
      obtain ⟨m, here, rfl⟩ := Option.map_eq_some_iff.mp (List.getElem?_map ▸ at_)
      exact Option.map_eq_some_iff.mpr
        ⟨i, (idxOf?_eq_some_iff_of_nodup (nodup_methods made)).mpr here, rfl⟩
    | _ => cases at_

/-- What has a definition's token is the module's own. -/
theorem isOwn_of_definition? (made : target.symbols.Made) (h : target.definition? key = some token) :
    target.IsOwn key := by
  obtain ⟨table, i, at_, -⟩ := (definition?_eq_some_iff made).mp h
  have among := List.mem_of_getElem? at_
  cases table with
  | typeDef =>
    obtain ⟨d, hd, rfl⟩ := List.mem_map.mp among
    exact (mem_typeDefs.mp hd).2
  | field =>
    obtain ⟨f, hf, rfl⟩ := List.mem_map.mp among
    obtain ⟨d, hd, listed⟩ := List.mem_flatMap.mp hf
    have owner := (made.wellFormed.listedField listed).2
    exact (congrArg (target.isLocal ·) owner).trans (mem_typeDefs.mp hd).2
  | methodDef =>
    obtain ⟨m, hm, rfl⟩ := List.mem_map.mp among
    obtain ⟨d, hd, listed⟩ := List.mem_flatMap.mp hm
    have owner := (made.wellFormed.listedMethod listed).2
    exact (congrArg (target.isLocal ·) owner).trans (mem_typeDefs.mp hd).2
  | _ => cases among

end Target

/-- The table holds definitions of the module. -/
def TableKind.IsDefinition (table : TableKind) : Prop :=
  table = .typeDef ∨ table = .field ∨ table = .methodDef

theorem RefKey.table_not_definition (key : RefKey) : ¬key.table.IsDefinition := by
  unfold TableKind.IsDefinition
  cases key with
  | type t => cases t <;> simp [RefKey.table]
  | member m => cases m <;> simp [RefKey.table]
  | _ => simp [RefKey.table]

theorem Target.isDefinition_of_getElem? {target : Target} {table : TableKind} {i : Nat} {key : RefKey}
    (h : (target.definitions table)[i]? = some key) : table.IsDefinition := by
  cases table with
  | typeDef => exact .inl rfl
  | field => exact .inr (.inl rfl)
  | methodDef => exact .inr (.inr rfl)
  | _ => cases h

/-- What is found is in a row of its own table among the definitions or among the references. -/
theorem Session.lookup_eq_ok {target : Target} {session : Session} (made : target.symbols.Made)
    (tidy : session.Tidy target) {key : RefKey} {token : Token}
    (h : session.lookup target key = .ok token) :
    (∃ table i, table.IsDefinition ∧ (target.definitions table)[i]? = some key ∧
      token = Token.ofRow table (i + 1)) ∨
    ∃ i : Nat, (session.tokens.rows key.table)[i]? = some key ∧
      token = Token.ofRow key.table (i + 1) := by
  unfold Session.lookup Session.lookup? at h
  cases own : target.definition? key with
  | some token' =>
    rw [own] at h
    cases h
    obtain ⟨table, i, at_, rfl⟩ := (Target.definition?_eq_some_iff made).mp own
    exact .inl ⟨table, i, Target.isDefinition_of_getElem? at_, at_, rfl⟩
  | none =>
    rw [own] at h
    cases found : session.tokens.get? key with
    | none => rw [found] at h; cases h
    | some token' =>
      rw [found] at h
      cases h
      exact .inr (tidy.filed.get?_eq_some_iff.mp found)

theorem Session.lookup_of_definition? {target : Target} {session : Session} {key : RefKey}
    {token : Token} (h : target.definition? key = some token) :
    session.lookup target key = .ok token := by
  rw [Session.lookup, Session.lookup?, h]
  rfl

namespace TablesImage

/-- A row of a table, counted from 1, describes a definition or reference. -/
def Describes (image : TablesImage) (target : Target) (session : Session) (heaps : Draft)
    (key : RefKey) : TableKind → Nat → Prop
  | .assemblyRef, r => ∃ row, image.assemblyRefs[r - 1]? = some row ∧
    target.DescribesAssembly heaps key row
  | .moduleRef, r => ∃ row, image.moduleRefs[r - 1]? = some row ∧
    target.DescribesModule heaps key row
  | .file, r => ∃ row, image.files[r - 1]? = some row ∧ target.DescribesFile heaps key row
  | .typeRef, r => ∃ row, image.typeRefs[r - 1]? = some row ∧
    target.DescribesTypeRef session heaps key row
  | .typeSpec, r => ∃ row, image.typeSpecs[r - 1]? = some row ∧
    target.DescribesTypeSpec session heaps key row
  | .memberRef, r => ∃ row, image.memberRefs[r - 1]? = some row ∧
    target.DescribesMemberRef session heaps key row
  | .methodSpec, r => ∃ row, image.methodSpecs[r - 1]? = some row ∧
    target.DescribesMethodSpec session heaps key row
  | .typeDef, r => ∃ d row, key = .type (.named d) ∧ image.typeDefs[r - 1]? = some row ∧
    target.DescribesTypeDef session heaps d row
  | .field, r => ∃ f row, key = .member (.field f) ∧ image.fields[r - 1]? = some row ∧
    target.DescribesMemberDef session heaps (.field f) row
  | .methodDef, r => ∃ m row, key = .member (.method m) ∧ image.methods[r - 1]? = some row ∧
    target.DescribesMemberDef session heaps (.method m) row

/-- The row behind the fields of the `i`-th type: the next type's first, or the end of the table. -/
def fieldEnd (image : TablesImage) (i : Nat) : Nat :=
  image.typeDefs[i + 1]?.elim (image.fields.length + 1) (·.fieldList.toNat)

def methodEnd (image : TablesImage) (i : Nat) : Nat :=
  image.typeDefs[i + 1]?.elim (image.methods.length + 1) (·.methodList.toNat)

/-- The rows of an image and the tokens of the session that it was built from belong together. -/
structure Agrees (image : TablesImage) (target : Target) (session : Session) (heaps : Draft) :
    Prop where
  /-- Each reference table has one row for each key filed in it. -/
  counts : ∀ table ∈ TableKind.references, (session.tokens.rows table).Nodup ∧
    image.rowCount table = (session.tokens.rows table).length
  /-- The row that a token names describes what the token was given to. -/
  described : ∀ {key token}, session.lookup target key = .ok token →
    ∃ table, token.table? = some table ∧ 1 ≤ token.row ∧
      image.Describes target session heaps key table token.row
  /-- The definition tokens are those of the module's own types and their plain members. -/
  own : ∀ {key}, target.symbols.Knows key →
    ((∃ token table, session.lookup target key = .ok token ∧ token.table? = some table ∧
      table.IsDefinition) ↔ target.IsOwn key)
  distinct : ∀ {key key' token}, target.IsOwn key → target.symbols.Knows key →
    target.IsOwn key' → target.symbols.Knows key' → session.lookup target key = .ok token →
      session.lookup target key' = .ok token → key = key'
  /-- Each definition row is that of the definition whose token names it. -/
  defined : ∀ {table r}, table.IsDefinition → 1 ≤ r → r ≤ image.rowCount table →
    ∃ key, target.IsOwn key ∧ session.lookup target key = .ok (Token.ofRow table r) ∧
      image.Describes target session heaps key table r
  fields : ∀ {i : Nat} {d row}, target.typeDefs[i]? = some d → image.typeDefs[i]? = some row → ∀ f,
    f ∈ (target.symbols.typeDef d).fields ↔
      ∃ r, row.fieldList.toNat ≤ r ∧ r < image.fieldEnd i ∧
        session.lookup target (.member (.field f)) = .ok (Token.ofRow .field r)
  methods : ∀ {i : Nat} {d row}, target.typeDefs[i]? = some d → image.typeDefs[i]? = some row → ∀ m,
    m ∈ (target.symbols.typeDef d).methods ↔
      ∃ r, row.methodList.toNat ≤ r ∧ r < image.methodEnd i ∧
        session.lookup target (.member (.method m)) = .ok (Token.ofRow .methodDef r)

variable {image : TablesImage} {target : Target} {session : Session} {heaps : Draft}

theorem rowCount_of_laid (laid : Layout.Laid target session heaps image) :
    ∀ table ∈ TableKind.references, image.rowCount table = (session.tokens.rows table).length := by
  simp only [TableKind.references, List.mem_cons, List.not_mem_nil, or_false, forall_eq_or_imp,
    forall_eq]
  exact ⟨laid.assemblyRefs.length_eq.symm, laid.moduleRefs.length_eq.symm,
    laid.files.length_eq.symm, laid.typeRefs.length_eq.symm, laid.typeSpecs.length_eq.symm,
    laid.memberRefs.length_eq.symm, laid.methodSpecs.length_eq.symm⟩

theorem rowCount_definitions (laid : Layout.Laid target session heaps image) {table : TableKind}
    (h : table.IsDefinition) : image.rowCount table = (target.definitions table).length := by
  rcases h with rfl | rfl | rfl
  · exact laid.definitions.types.length_eq.symm.trans (List.length_map _).symm
  · exact laid.definitions.fields.length_eq.symm.trans (List.length_map _).symm
  · exact laid.definitions.methods.length_eq.symm.trans (List.length_map _).symm

/-- The rows of a reference table describe the keys filed in it, in their order. -/
theorem describes_reference (laid : Layout.Laid target session heaps image) {key : RefKey} {i : Nat}
    (h : (session.tokens.rows key.table)[i]? = some key) :
    image.Describes target session heaps key key.table (i + 1) := by
  cases key with
  | assembly a => exact forall₂_getElem? laid.assemblyRefs h
  | module m => exact forall₂_getElem? laid.moduleRefs h
  | file f => exact forall₂_getElem? laid.files h
  | type t =>
    cases t with
    | named d => exact forall₂_getElem? laid.typeRefs h
    | _ => exact forall₂_getElem? laid.typeSpecs h
  | member m =>
    cases m with
    | methodInstance => exact forall₂_getElem? laid.methodSpecs h
    | _ => exact forall₂_getElem? laid.memberRefs h
  | arrayMethod kind t => exact forall₂_getElem? laid.memberRefs h

theorem describes_definition (laid : Layout.Laid target session heaps image) {table : TableKind}
    {key : RefKey} {i : Nat} (h : (target.definitions table)[i]? = some key) :
    image.Describes target session heaps key table (i + 1) := by
  cases table with
  | typeDef =>
    obtain ⟨d, here, rfl⟩ := Option.map_eq_some_iff.mp (List.getElem?_map ▸ h)
    obtain ⟨row, at_, described⟩ := forall₂_getElem? laid.definitions.types here
    exact ⟨d, row, rfl, at_, described⟩
  | field =>
    obtain ⟨f, here, rfl⟩ := Option.map_eq_some_iff.mp (List.getElem?_map ▸ h)
    obtain ⟨row, at_, described⟩ := forall₂_getElem? laid.definitions.fields here
    exact ⟨f, row, rfl, at_, described⟩
  | methodDef =>
    obtain ⟨m, here, rfl⟩ := Option.map_eq_some_iff.mp (List.getElem?_map ▸ h)
    obtain ⟨row, at_, described⟩ := forall₂_getElem? laid.definitions.methods here
    exact ⟨m, row, rfl, at_, described⟩
  | _ => cases h

/-- A definition has the token of its row. -/
theorem lookup_eq_row_iff (made : target.symbols.Made) (fits : target.Fits)
    (tidy : session.Tidy target) {table : TableKind} {key : RefKey}
    (kind : key.table ≠ table) {r : Nat} (positive : 1 ≤ r) (small : r < Token.rowLimit) :
    session.lookup target key = .ok (Token.ofRow table r) ↔
      (target.definitions table)[r - 1]? = some key := by
  constructor
  · intro h
    rcases Session.lookup_eq_ok made tidy h with ⟨table', i, -, at_, same⟩ | ⟨i, at_, same⟩
    · have room := Target.definitions_length_lt fits table'
      have inside := (List.getElem?_eq_some_iff.mp at_).1
      obtain ⟨rfl, rfl⟩ := Token.ofRow_inj small (by omega) same
      exact at_
    · have tables := congrArg Token.table? same
      rw [Token.table?_ofRow, Token.table?_ofRow] at tables
      exact absurd (Option.some.inj tables).symm kind
  · intro at_
    refine Session.lookup_of_definition? ((Target.definition?_eq_some_iff made).mpr
      ⟨table, r - 1, at_, ?_⟩)
    rw [Nat.sub_add_cancel positive]

/-- A list that begins behind `n` elements of a list that fits into a table begins at that row. -/
theorem toNat_ofNat_start {n m : Nat} (inside : n ≤ m) (fits : m < Token.rowLimit) :
    (UInt32.ofNat (0 + n + 1)).toNat = n + 1 := by
  rw [UInt32.toNat_ofNat']
  unfold Token.rowLimit at fits
  omega

theorem length_take_flatMap_le {α β : Type} (l : List α) (g : α → List β) (i : Nat) :
    ((l.take i).flatMap g).length ≤ (l.flatMap g).length := by
  rw [flatMap_eq_take_append l g i, List.length_append]
  omega

/-- The members of a type begin at the row its list column gives and end where those of the next
type begin. -/
theorem member_range {rows : List TypeDefRow} {ds : List TypeDefId} {β : Type}
    {g : TypeDefId → List β} (first : TypeDefRow → UInt32) (fits : (ds.flatMap g).length < Token.rowLimit)
    (same : rows.length = ds.length)
    (lists : ∀ {i : Nat} {row : TypeDefRow}, rows[i]? = some row →
      first row = .ofNat (0 + ((ds.take i).flatMap g).length + 1)) {i : Nat} {d : TypeDefId}
    {row : TypeDefRow} (hd : ds[i]? = some d) (hr : rows[i]? = some row) :
    1 ≤ (first row).toNat ∧
      rows[i + 1]?.elim ((ds.flatMap g).length + 1) (fun next => (first next).toNat) ≤
        Token.rowLimit ∧
      ∀ b, b ∈ g d ↔ ∃ r, (first row).toNat ≤ r ∧
        r < rows[i + 1]?.elim ((ds.flatMap g).length + 1) (fun next => (first next).toNat) ∧
        (ds.flatMap g)[r - 1]? = some b := by
  have begin_ : (first row).toNat = ((ds.take i).flatMap g).length + 1 := by
    rw [lists hr]
    exact toNat_ofNat_start (length_take_flatMap_le ..) fits
  have end_ : rows[i + 1]?.elim ((ds.flatMap g).length + 1) (fun next => (first next).toNat) =
      ((ds.take (i + 1)).flatMap g).length + 1 := by
    cases next : rows[i + 1]? with
    | some row' =>
      rw [Option.elim_some, lists next]
      exact toNat_ofNat_start (length_take_flatMap_le ..) fits
    | none =>
      have last := List.getElem?_eq_none_iff.mp next
      rw [Option.elim_none, List.take_of_length_le (by omega)]
  have inside := length_take_flatMap_le ds g (i + 1)
  rw [begin_, end_]
  refine ⟨by omega, by omega, fun b => ?_⟩
  rw [mem_iff_getElem?_flatMap hd]
  constructor
  · rintro ⟨j, from_, below, at_⟩
    exact ⟨j + 1, by omega, by omega, at_⟩
  · rintro ⟨r, from_, below, at_⟩
    exact ⟨r - 1, by omega, by omega, at_⟩

theorem agrees (made : target.symbols.Made) (fits : target.Fits) (tidy : session.Tidy target)
    (laid : Layout.Laid target session heaps image) : image.Agrees target session heaps where
  counts table among :=
    ⟨tidy.filed.nodup_rows table, rowCount_of_laid laid table among⟩
  described {key token} h := by
    rcases Session.lookup_eq_ok made tidy h with ⟨table, i, -, at_, rfl⟩ | ⟨i, at_, rfl⟩
    · have inside := (List.getElem?_eq_some_iff.mp at_).1
      have room := Target.definitions_length_lt fits table
      refine ⟨table, Token.table?_ofRow .., ?_, ?_⟩ <;> rw [Token.row_ofRow_of_lt (by omega)]
      · omega
      · exact describes_definition laid at_
    · have inside := (List.getElem?_eq_some_iff.mp at_).1
      have room := tidy.filed.room key.table
      refine ⟨key.table, Token.table?_ofRow .., ?_, ?_⟩ <;> rw [Token.row_ofRow_of_lt (by omega)]
      · omega
      · exact describes_reference laid at_
  own {key} known := by
    constructor
    · rintro ⟨token, table, h, kind, definition⟩
      cases own : target.definition? key with
      | some token' => exact Target.isOwn_of_definition? made own
      | none =>
        rw [Session.lookup, Session.lookup?, own] at h
        cases found : session.tokens.get? key with
        | none => rw [found] at h; cases h
        | some token' =>
          rw [found] at h
          cases h
          obtain ⟨i, -, rfl⟩ := tidy.filed.get?_eq_some_iff.mp found
          rw [Token.table?_ofRow] at kind
          cases kind
          exact absurd definition key.table_not_definition
    · intro own
      cases found : target.definition? key with
      | none => exact absurd own (target.not_isOwn made.wellFormed known found)
      | some token =>
        obtain ⟨table, i, at_, rfl⟩ := (Target.definition?_eq_some_iff made).mp found
        exact ⟨_, table, Session.lookup_of_definition? found, Token.table?_ofRow ..,
          Target.isDefinition_of_getElem? at_⟩
  distinct {key key' token} own known own' known' h h' := by
    have defined : ∀ {k}, target.IsOwn k → target.symbols.Knows k →
        session.lookup target k = .ok token → target.definition? k = some token := by
      intro k own known h
      cases found : target.definition? k with
      | none => exact absurd own (target.not_isOwn made.wellFormed known found)
      | some token' =>
        rw [Session.lookup_of_definition? found] at h
        cases h
        rfl
    obtain ⟨table, i, at_, rfl⟩ := (Target.definition?_eq_some_iff made).mp (defined own known h)
    obtain ⟨table', i', at_', same⟩ :=
      (Target.definition?_eq_some_iff made).mp (defined own' known' h')
    have inside := (List.getElem?_eq_some_iff.mp at_).1
    have inside' := (List.getElem?_eq_some_iff.mp at_').1
    have room := Target.definitions_length_lt fits table
    have room' := Target.definitions_length_lt fits table'
    obtain ⟨rfl, rows⟩ := Token.ofRow_inj (by omega) (by omega) same
    cases Nat.succ.inj rows
    exact Option.some.inj (at_.symm.trans at_')
  defined {table r} definition positive inside := by
    rw [rowCount_definitions laid definition] at inside
    obtain ⟨key, at_⟩ : ∃ key, (target.definitions table)[r - 1]? = some key :=
      ⟨_, List.getElem?_eq_getElem (by omega)⟩
    have found := (Target.definition?_eq_some_iff made).mpr ⟨table, r - 1, at_, rfl⟩
    have described := describes_definition laid at_
    rw [Nat.sub_add_cancel positive] at found described
    exact ⟨key, Target.isOwn_of_definition? made found, Session.lookup_of_definition? found,
      described⟩
  fields {i d row} hd hr f := by
    have ends : image.fieldEnd i = image.typeDefs[i + 1]?.elim (target.fields.length + 1)
        (fun next => next.fieldList.toNat) := by
      rw [fieldEnd, ← laid.definitions.fields.length_eq]
      rfl
    obtain ⟨positive, room, range⟩ := member_range (·.fieldList) fits.fields
      laid.definitions.types.length_eq.symm (fun at_ => (laid.definitions.lists at_).1) hd hr
    rw [range f, ends]
    refine exists_congr fun r => and_congr_right fun low => and_congr_right fun high => ?_
    have kind : (RefKey.member (.field f)).table ≠ .field := by simp [RefKey.table]
    rw [lookup_eq_row_iff made fits tidy kind (by omega) (Nat.lt_of_lt_of_le high room)]
    exact (Target.getElem?_map_iff (by rintro _ _ ⟨⟩; rfl)).symm
  methods {i d row} hd hr m := by
    have ends : image.methodEnd i = image.typeDefs[i + 1]?.elim (target.methods.length + 1)
        (fun next => next.methodList.toNat) := by
      rw [methodEnd, ← laid.definitions.methods.length_eq]
      rfl
    obtain ⟨positive, room, range⟩ := member_range (·.methodList) fits.methods
      laid.definitions.types.length_eq.symm (fun at_ => (laid.definitions.lists at_).2) hd hr
    rw [range m, ends]
    refine exists_congr fun r => and_congr_right fun low => and_congr_right fun high => ?_
    have kind : (RefKey.member (.method m)).table ≠ .methodDef := by simp [RefKey.table]
    rw [lookup_eq_row_iff made fits tidy kind (by omega) (Nat.lt_of_lt_of_le high room)]
    exact (Target.getElem?_map_iff (by rintro _ _ ⟨⟩; rfl)).symm

/-- A blob is read back from a column, as long as the offsets of the heap are 32-bit numbers. -/
theorem blob?_of_stores (sound : heaps.Sound) (same : image.blobs = heaps.blobs.bytes)
    (small : image.blobs.length ≤ 0x100000000) {blob : List UInt8} {column : UInt32}
    (h : heaps.Stores blob column) : image.blob? column = some blob := by
  obtain ⟨n, given, rfl⟩ := h
  have inside := given.lt_length sound.blobs
  have offset : (UInt32.ofNat n).toNat = n := by
    rw [UInt32.toNat_ofNat']
    rw [same] at small
    omega
  rw [TablesImage.blob?, offset, same]
  exact given.read? sound.blobs

end TablesImage

/-- Building an image lays it out in heaps that hold everything that was given an offset. -/
theorem Target.laid_of_image {target : Target} {session later : Session} {image : TablesImage}
    (tidy : session.Tidy target) (h : target.image session = .ok image later) :
    ∃ heaps, Layout.image target session { arrayMethods := session.arrayMethods } = .ok image heaps ∧
      heaps.Sound ∧ Layout.Laid target session heaps image ∧ image.strings = heaps.strings.bytes ∧
      image.blobs = heaps.blobs.bytes := by
  rw [Target.image_eq] at h
  cases laid : Layout.image target session { arrayMethods := session.arrayMethods } with
  | error fault draft => rw [laid] at h; cases h
  | ok image' heaps =>
    rw [laid] at h
    cases h
    have start : Draft.Sound { arrayMethods := session.arrayMethods } :=
      ⟨StringHeap.sound_empty, BlobHeap.sound_empty, tidy.cached⟩
    exact ⟨heaps, rfl, Layout.laid start laid⟩

/-- In the image of a session, whatever it was asked for, the rows agree with the tokens, each
name stands at its offset in the heap of names, and each signature is read back as it was
encoded. -/
theorem rows_agree_with_tokens {target : Target} (made : target.symbols.Made) (fits : target.Fits)
    {requests : List Request} (known : ∀ r ∈ requests, target.symbols.Answers r)
    {image : TablesImage} {later : Session}
    (built : target.image (target.serveAll {} requests) = .ok image later) :
    ∃ heaps : Draft,
      Layout.image target (target.serveAll {} requests)
        { arrayMethods := (target.serveAll {} requests).arrayMethods } = .ok image heaps ∧
      image.Agrees target (target.serveAll {} requests) heaps ∧
      (∀ name n, heaps.strings.Gives name n →
        utf8Bytes name ++ [0] <+: image.strings.drop n) ∧
      (image.blobs.length ≤ 0x100000000 → ∀ blob column, heaps.Stores blob column →
        image.blob? column = some blob) := by
  have tidy := Target.tidy_serveAll made.wellFormed known (Session.tidy_empty target)
  obtain ⟨heaps, written, sound, laid, strings, blobs⟩ := Target.laid_of_image tidy built
  refine ⟨heaps, written, TablesImage.agrees made fits tidy laid, fun name n given => ?_,
    fun small blob column stored => TablesImage.blob?_of_stores sound blobs small stored⟩
  rw [strings]
  exact given.placed sound.strings

namespace Target

/-- A catalog of numbers with an entry type of its own, built on a list type of another assembly. -/
def catalogSymbols : Symbols :=
  let (entry, symbols) := sampleSymbols.addNestedType ⟨2⟩ "Entry" 0
  let (_, symbols) := symbols.addField entry "next" (.inst ⟨1⟩ [.vector (.named entry)])
  (symbols.addMethod ⟨2⟩ "first" [{ name := "list", ty := .named ⟨0⟩ }] (.named entry)).2

def catalog : Target := { symbols := catalogSymbols, module := ⟨0⟩ }

theorem made_catalog : catalog.symbols.Made := by
  have inScope : ∀ {symbols : Symbols} {t : Ty} {n : Nat}, (∀ d ∈ t.mentions, d.index < n) →
      n ≤ symbols.typeDefs.length → symbols.InScope t := fun ht hl d hd =>
    Nat.lt_of_lt_of_le (ht d hd) hl
  refine .addMethod ?_ (by decide) _ ?_ (inScope (n := 4) (by decide) (by decide)) _ _
  · refine .addField ?_ (by decide) _ (inScope (n := 4) (by decide) (by decide)) _
    refine .addNestedType ?_ (by decide) _ _
    refine .setBase ?_ _ (inScope (n := 2) (by decide) (by decide))
    refine .addType ?_ _ _ _ _
    refine .addField ?_ (by decide) _ (inScope (n := 2) (by decide) (by decide)) _
    refine .addNestedType ?_ (by decide) _ _
    refine .addType ?_ _ _ _ _
    exact .addModule (.addAssembly (.addModule (.addAssembly .empty _ _) _ _) _ _) _ _
  · intro p hp
    rw [List.mem_singleton.mp hp]
    exact inScope (n := 4) (by decide) (by decide)

def catalogRequests : List Request :=
  [.visit .definitions, .token (.type (.vector (.named ⟨3⟩))),
    .visit (.reference (.member (.specializedField ⟨0⟩ (.inst ⟨1⟩ [.vector .int32])))),
    .token (.member (.methodInstance (.method ⟨0⟩) [.named ⟨0⟩]))]

theorem answers_catalog : ∀ r ∈ catalogRequests, catalog.symbols.Answers r := by
  simp [catalogRequests, Symbols.Answers, Symbols.Knows]

theorem image_catalog : ∃ image later,
    catalog.image (catalog.serveAll {} catalogRequests) = .ok image later := by
  have ok : (catalog.image (catalog.serveAll {} catalogRequests) matches .ok ..) = true := by
    decide +kernel
  cases h : catalog.image (catalog.serveAll {} catalogRequests) with
  | ok image later => exact ⟨image, later, rfl⟩
  | error fault later => simp [h] at ok

theorem fits_catalog : catalog.Fits := by
  constructor <;> decide +kernel

end Target

theorem rows_agree_with_tokens_catalog : ∃ image later heaps,
    Target.catalog.image (Target.catalog.serveAll {} Target.catalogRequests) = .ok image later ∧
      image.Agrees Target.catalog (Target.catalog.serveAll {} Target.catalogRequests) heaps := by
  obtain ⟨image, later, built⟩ := Target.image_catalog
  obtain ⟨heaps, -, agrees, -⟩ := rows_agree_with_tokens Target.made_catalog Target.fits_catalog
    Target.answers_catalog built
  exact ⟨image, later, heaps, built, agrees⟩

end ManagedCode
