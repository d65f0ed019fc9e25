import Mathlib.Algebra.GroupWithZero.Nat
import Mathlib.Data.List.Nodup
import ManagedCode.Metadata.TokenTable
import ManagedCode.Proofs.Step

namespace ManagedCode

theorem lookup_append_singleton {α β : Type} [BEq α] (l : List (α × β)) (a a' : α) (b : β) :
    (l ++ [(a, b)]).lookup a' = (l.lookup a').or (if a' == a then some b else none) := by
  rw [List.lookup_append, List.lookup_cons]
  cases a' == a <;> rfl

/-- A value that depends on its key is changed wherever it is looked up. -/
theorem lookup_map_snd {α β : Type} [BEq α] [LawfulBEq α] (l : List (α × β))
    (f : α → β → β) (a : α) :
    (l.map fun (a, b) => (a, f a b)).lookup a = (l.lookup a).map (f a) := by
  induction l with
  | nil => rfl
  | cons entry l ih =>
    obtain ⟨a', b⟩ := entry
    rw [List.map_cons, List.lookup_cons, List.lookup_cons]
    cases same : a == a' with
    | false => exact ih
    | true =>
      obtain rfl := eq_of_beq same
      rfl

theorem Token.row_ofRow_of_lt {table : TableKind} {row : Nat} (h : row < rowLimit) :
    (ofRow table row).row = row := by
  rw [row_ofRow, Nat.mod_eq_of_lt h]

/-- A token tells its table and its row. -/
theorem Token.ofRow_inj {table table' : TableKind} {row row' : Nat} (h : row < rowLimit)
    (h' : row' < rowLimit) (same : ofRow table row = ofRow table' row') :
    table = table' ∧ row = row' := by
  constructor
  · have tables := congrArg Token.table? same
    rw [table?_ofRow, table?_ofRow] at tables
    exact Option.some.inj tables
  · have rows := congrArg Token.row same
    rwa [row_ofRow_of_lt h, row_ofRow_of_lt h'] at rows

namespace TokenTable

variable {tokens : TokenTable} {key : RefKey} {table kind : TableKind} {token : Token}

/-- The references that have a token, in the order in which they got it. -/
def keys (tokens : TokenTable) : List RefKey := tokens.tokens.map (·.1)

theorem get?_isSome_iff : (tokens.get? key).isSome ↔ key ∈ tokens.keys := by
  simp [get?, keys]

theorem contains_iff : tokens.contains key = true ↔ key ∈ tokens.keys := get?_isSome_iff

theorem get?_eq_none_iff : tokens.get? key = none ↔ key ∉ tokens.keys := by
  rw [← get?_isSome_iff, Option.not_isSome_iff_eq_none]

theorem get?_eq_some_iff_mem (distinct : tokens.keys.Nodup) :
    tokens.get? key = some token ↔ (key, token) ∈ tokens.tokens := by
  constructor
  · intro held
    obtain ⟨before, after, split, -⟩ := List.lookup_eq_some_iff.mp held
    simp [split]
  · intro filed
    have among : key ∈ tokens.keys := List.mem_map.mpr ⟨_, filed, rfl⟩
    obtain ⟨token', held⟩ := Option.isSome_iff_exists.mp (get?_isSome_iff.mpr among)
    obtain ⟨before, after, split, -⟩ := List.lookup_eq_some_iff.mp held
    have filed' : (key, token') ∈ tokens.tokens := by simp [split]
    have same := List.inj_on_of_nodup_map distinct filed filed' rfl
    rw [held, (Prod.mk.inj same).2]

/-! ### One call for a token -/

@[simp] theorem tokens_listTable (tokens : TokenTable) (table : TableKind) :
    (tokens.listTable table).tokens = tokens.tokens := by
  unfold listTable
  split <;> rfl

@[simp] theorem keys_listTable (tokens : TokenTable) (table : TableKind) :
    (tokens.listTable table).keys = tokens.keys := by
  rw [keys, tokens_listTable, keys]

@[simp] theorem get?_listTable (tokens : TokenTable) (table : TableKind) (key : RefKey) :
    (tokens.listTable table).get? key = tokens.get? key := by
  rw [get?, tokens_listTable, get?]

/-- A table that is listed newly has no rows. -/
@[simp] theorem rows_listTable (tokens : TokenTable) (table kind : TableKind) :
    (tokens.listTable table).rows kind = tokens.rows kind := by
  unfold listTable
  split
  next => rfl
  next new =>
    rw [rows, lookup_append_singleton, rows]
    cases held : tokens.rowLists.lookup kind with
    | some keys => rfl
    | none => cases kind == table <;> rfl

theorem lookup_listTable (tokens : TokenTable) (table : TableKind) :
    ((tokens.listTable table).rowLists.lookup table).isSome := by
  unfold listTable
  split
  next listed => simp [listed]
  next => simp [lookup_append_singleton]

/-- The table after a reference got the next row of a table. -/
def file (tokens : TokenTable) (key : RefKey) (table : TableKind) : TokenTable :=
  ((tokens.listTable table).pushRow table key).insert key
    (Token.ofRow table ((tokens.rows table).length + 1))

@[simp] theorem tokens_file (tokens : TokenTable) (key : RefKey) (table : TableKind) :
    (tokens.file key table).tokens =
      tokens.tokens ++ [(key, Token.ofRow table ((tokens.rows table).length + 1))] := by
  rw [← tokens_listTable tokens table]
  rfl

@[simp] theorem keys_file (tokens : TokenTable) (key : RefKey) (table : TableKind) :
    (tokens.file key table).keys = tokens.keys ++ [key] := by
  rw [keys, tokens_file, List.map_append]
  rfl

theorem rows_file (tokens : TokenTable) (key : RefKey) (table kind : TableKind) :
    (tokens.file key table).rows kind = tokens.rows kind ++ if kind = table then [key] else [] := by
  have pushed : (tokens.file key table).rowLists.lookup kind =
      ((tokens.listTable table).rowLists.lookup kind).map fun keys =>
        if kind = table then keys ++ [key] else keys :=
    lookup_map_snd _ (fun kind keys => if kind = table then keys ++ [key] else keys) kind
  rw [rows, pushed, ← rows_listTable tokens table kind, rows]
  by_cases same : kind = table
  · subst same
    obtain ⟨keys, listed⟩ := Option.isSome_iff_exists.mp (lookup_listTable tokens kind)
    simp [listed]
  · cases (tokens.listTable table).rowLists.lookup kind <;> simp [same]

theorem reserve_eq (tokens : TokenTable) (key : RefKey) (table : TableKind) :
    reserve key table tokens =
      match tokens.get? key with
      | some token => .ok token tokens
      | none =>
        if (tokens.rows table).length + 1 < Token.rowLimit then
          .ok (Token.ofRow table ((tokens.rows table).length + 1)) (tokens.file key table)
        else
          .error (.tableFull table) (tokens.listTable table) := by
  unfold reserve
  rw [get_bind]
  cases tokens.get? key with
  | some token => rfl
  | none =>
    change (do
      let row := ((← get).rows table).length + 1
      unless row < Token.rowLimit do
        throw (.tableFull table)
      modify (·.pushRow table key)
      modify (·.insert key (Token.ofRow table row))
      return Token.ofRow table row : EStateM Fault TokenTable Token) (tokens.listTable table) = _
    rw [get_bind, rows_listTable]
    by_cases free : (tokens.rows table).length + 1 < Token.rowLimit
    · simp only [free, if_true]
      rfl
    · simp only [free, if_false]
      rfl

/-! ### What calls keep -/

/-- The tokens are those of the rows: no reference has two, each is made of the row in which its
reference stands, and there are as many as there are rows. -/
structure Numbered (tokens : TokenTable) : Prop where
  distinct : tokens.keys.Nodup
  room : ∀ table, (tokens.rows table).length < Token.rowLimit
  placed : ∀ {key token}, (key, token) ∈ tokens.tokens ↔
    ∃ table, ∃ i : Nat, (tokens.rows table)[i]? = some key ∧ token = Token.ofRow table (i + 1)
  counted : tokens.size = (TableKind.all.map fun table => (tokens.rows table).length).sum

/-- Every reference is in its own table. -/
structure Filed (tokens : TokenTable) : Prop extends tokens.Numbered where
  own : ∀ {key table}, key ∈ tokens.rows table → table = key.table

theorem numbered_empty : Numbered {} where
  distinct := List.nodup_nil
  room _ := Nat.succ_pos _
  placed := ⟨nofun, nofun⟩
  counted := rfl

theorem filed_empty : Filed {} where
  toNumbered := numbered_empty
  own := nofun

theorem Numbered.listTable (numbered : tokens.Numbered) (table : TableKind) :
    (tokens.listTable table).Numbered := by
  refine ⟨?_, ?_, ?_, ?_⟩
  · simpa using numbered.distinct
  · simpa using numbered.room
  · intro key token
    simpa using numbered.placed
  · simpa [size] using numbered.counted

theorem Filed.listTable (filed : tokens.Filed) (table : TableKind) :
    (tokens.listTable table).Filed where
  toNumbered := filed.toNumbered.listTable table
  own {key kind} mem := filed.own (by simpa using mem)

/-- Whatever stood in a row still does, and one row is new. -/
theorem getElem?_rows_file {i : Nat} {other : RefKey} :
    ((tokens.file key table).rows kind)[i]? = some other ↔
      (tokens.rows kind)[i]? = some other ∨
        kind = table ∧ i = (tokens.rows table).length ∧ other = key := by
  rw [rows_file]
  by_cases same : kind = table
  · subst same
    rw [if_pos rfl, List.getElem?_append]
    split
    next inside =>
      exact ⟨.inl, fun h => h.elim id fun ⟨_, last, _⟩ => absurd last (by omega)⟩
    next outside =>
      rw [List.getElem?_eq_none (by omega : (tokens.rows kind).length ≤ i)]
      by_cases last : i = (tokens.rows kind).length
      · subst last
        simp [eq_comm]
      · rw [List.getElem?_eq_none (by simp; omega)]
        simp [last]
  · simp [same]

theorem counted_file (counted : tokens.size =
      (TableKind.all.map fun table => (tokens.rows table).length).sum) :
    (tokens.file key table).size =
      (TableKind.all.map fun kind => ((tokens.file key table).rows kind).length).sum := by
  have more : ∀ kind, ((tokens.file key table).rows kind).length =
      (tokens.rows kind).length + if kind = table then 1 else 0 := by
    intro kind
    rw [rows_file, List.length_append]
    split <;> rfl
  rw [size, tokens_file, List.length_append, ← size, counted]
  simp only [more]
  cases table <;> simp [TableKind.all] <;> omega

theorem Numbered.file (numbered : tokens.Numbered) (absent : key ∉ tokens.keys)
    (free : (tokens.rows table).length + 1 < Token.rowLimit) :
    (tokens.file key table).Numbered where
  distinct := by
    rw [keys_file, List.nodup_append]
    refine ⟨numbered.distinct, List.pairwise_singleton _ _, fun k hk k' hk' same => absent ?_⟩
    obtain rfl := List.mem_singleton.mp hk'
    exact same ▸ hk
  room kind := by
    have before := numbered.room kind
    rw [rows_file, List.length_append]
    by_cases same : kind = table
    · subst same
      simpa using free
    · simpa [same] using before
  placed {other token} := by
    rw [tokens_file, List.mem_append, numbered.placed, List.mem_singleton]
    simp only [getElem?_rows_file]
    constructor
    · rintro (⟨kind, i, here, rfl⟩ | new)
      · exact ⟨kind, i, .inl here, rfl⟩
      · obtain ⟨rfl, rfl⟩ := Prod.mk.inj new
        exact ⟨table, _, .inr ⟨rfl, rfl, rfl⟩, rfl⟩
    · rintro ⟨kind, i, here | ⟨rfl, rfl, rfl⟩, rfl⟩
      · exact .inl ⟨kind, i, here, rfl⟩
      · exact .inr rfl
  counted := counted_file numbered.counted

theorem Filed.file (filed : tokens.Filed) (absent : key ∉ tokens.keys)
    (free : (tokens.rows key.table).length + 1 < Token.rowLimit) :
    (tokens.file key key.table).Filed where
  toNumbered := filed.toNumbered.file absent free
  own {other table} among := by
    obtain ⟨i, at_⟩ := List.mem_iff_getElem?.mp among
    rcases getElem?_rows_file.mp at_ with old | ⟨rfl, -, rfl⟩
    · exact filed.own (List.mem_of_getElem? old)
    · rfl

/-- A call that finds a full table leaves the table listed and nothing else. -/
theorem reserve_eq_error {later : TokenTable} {fault : Fault}
    (h : reserve key table tokens = .error fault later) :
    later = tokens.listTable table ∧ fault = .tableFull table ∧ key ∉ tokens.keys ∧
      Token.rowLimit ≤ (tokens.rows table).length + 1 := by
  rw [reserve_eq] at h
  split at h
  next => cases h
  next absent =>
    split at h
    next => cases h
    next full =>
      cases h
      exact ⟨rfl, rfl, get?_eq_none_iff.mp absent, by omega⟩

/-- Reserving adds a reference at the end, or changes nothing if it has its token. -/
theorem reserve_eq_ok {later : TokenTable} (h : reserve key table tokens = .ok token later) :
    tokens.get? key = some token ∧ later = tokens ∨
      tokens.get? key = none ∧ later = tokens.file key table ∧
        (tokens.rows table).length + 1 < Token.rowLimit := by
  rw [reserve_eq] at h
  split at h
  next held =>
    cases h
    exact .inl ⟨held, rfl⟩
  next absent =>
    split at h
    next free =>
      cases h
      exact .inr ⟨absent, rfl, free⟩
    next => cases h

/-- A reference that was asked for has its token by then, its old one or that of the next row. -/
theorem filed_of_reserve {later : TokenTable} (h : reserve key table tokens = .ok token later) :
    (key ∈ tokens.keys ∧ later = tokens) ∨
      (key ∉ tokens.keys ∧ later = tokens.file key table ∧
        (tokens.rows table).length + 1 < Token.rowLimit) :=
  (reserve_eq_ok h).imp
    (.imp_left fun held => get?_isSome_iff.mp (Option.isSome_of_eq_some held))
    (.imp_left get?_eq_none_iff.mp)

/-! ### What tokens and rows say of one another -/

/-- The token of a reference says in which row of which table it is. -/
theorem Numbered.get?_eq_some_iff (numbered : tokens.Numbered) :
    tokens.get? key = some token ↔
      ∃ table, ∃ i : Nat, (tokens.rows table)[i]? = some key ∧ token = Token.ofRow table (i + 1) := by
  rw [get?_eq_some_iff_mem numbered.distinct, numbered.placed]

theorem Numbered.mem_keys_iff (numbered : tokens.Numbered) :
    key ∈ tokens.keys ↔ ∃ table, key ∈ tokens.rows table := by
  rw [← get?_isSome_iff, Option.isSome_iff_exists]
  simp only [numbered.get?_eq_some_iff, List.mem_iff_getElem?]
  exact ⟨fun ⟨_, table, i, here, _⟩ => ⟨table, i, here⟩, fun ⟨table, i, here⟩ => ⟨_, table, i, here, rfl⟩⟩

/-- A reference stands in one row at most. -/
theorem Numbered.once (numbered : tokens.Numbered) {table' : TableKind} {i j : Nat}
    (here : (tokens.rows table)[i]? = some key) (there : (tokens.rows table')[j]? = some key) :
    table = table' ∧ i = j := by
  have held := numbered.get?_eq_some_iff.mpr ⟨table, i, here, rfl⟩
  have held' := numbered.get?_eq_some_iff.mpr ⟨table', j, there, rfl⟩
  obtain ⟨inside, -⟩ := List.getElem?_eq_some_iff.mp here
  obtain ⟨inside', -⟩ := List.getElem?_eq_some_iff.mp there
  have room := numbered.room table
  have room' := numbered.room table'
  obtain ⟨tables, rows⟩ := Token.ofRow_inj (by omega) (by omega)
    (Option.some.inj (held.symm.trans held'))
  exact ⟨tables, by omega⟩

theorem Numbered.nodup_rows (numbered : tokens.Numbered) (table : TableKind) :
    (tokens.rows table).Nodup := by
  refine List.nodup_iff_getElem?_ne_getElem?.mpr fun i j before inside same => ?_
  have there := List.getElem?_eq_getElem inside
  exact absurd (numbered.once (same.trans there) there).2 (by omega)

/-- A reference in its own table has the token of its row there. -/
theorem Filed.get?_eq_some_iff (filed : tokens.Filed) :
    tokens.get? key = some token ↔
      ∃ i : Nat, (tokens.rows key.table)[i]? = some key ∧ token = Token.ofRow key.table (i + 1) := by
  rw [filed.toNumbered.get?_eq_some_iff]
  constructor
  · rintro ⟨table, i, here, rfl⟩
    obtain rfl : table = key.table := filed.own (List.mem_of_getElem? here)
    exact ⟨i, here, rfl⟩
  · rintro ⟨i, here, rfl⟩
    exact ⟨key.table, i, here, rfl⟩

theorem Filed.mem_rows (filed : tokens.Filed) :
    key ∈ tokens.rows table ↔ key ∈ tokens.keys ∧ table = key.table := by
  rw [filed.toNumbered.mem_keys_iff]
  constructor
  · exact fun among => ⟨⟨table, among⟩, filed.own among⟩
  · rintro ⟨⟨table', among⟩, rfl⟩
    exact filed.own among ▸ among

end TokenTable

end ManagedCode
