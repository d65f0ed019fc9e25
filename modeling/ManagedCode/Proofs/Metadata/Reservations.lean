import Mathlib.Algebra.GroupWithZero.Nat
import ManagedCode.Proofs.Metadata.RowsByToken

namespace ManagedCode

namespace TokenTable

variable {tokens later : TokenTable} {key : RefKey} {table : TableKind}

/-- What the tokens say and what the rows of the tables say is the same. -/
structure Bijective (tokens : TokenTable) : Prop where
  /-- A reference has the token of a row exactly if it stands in that row. -/
  placed : ∀ {key table r},
    (∃ token, tokens.get? key = some token ∧ token.table? = some table ∧ token.row = r) ↔
      1 ≤ r ∧ (tokens.rows table)[r - 1]? = some key
  /-- A token that was handed out is made of the table and the row that it gives back. -/
  made : ∀ {key token}, tokens.get? key = some token →
    ∃ table, token.table? = some table ∧ token = Token.ofRow table token.row
  /-- No reference stands in two rows, of one table or of two. -/
  once : ∀ {key table table'} {i j : Nat}, (tokens.rows table)[i]? = some key →
    (tokens.rows table')[j]? = some key → table = table' ∧ i = j
  known : ∀ {key}, tokens.contains key = true ↔ ∃ token, tokens.get? key = some token
  injective : ∀ {key key' token}, tokens.get? key = some token →
    tokens.get? key' = some token → key = key'
  counted : tokens.size = (TableKind.all.map fun table => (tokens.rows table).length).sum

theorem Numbered.bijective (numbered : tokens.Numbered) : tokens.Bijective where
  placed {key table r} := by
    constructor
    · rintro ⟨token, held, kind, rfl⟩
      obtain ⟨table', i, here, rfl⟩ := numbered.get?_eq_some_iff.mp held
      obtain ⟨inside, -⟩ := List.getElem?_eq_some_iff.mp here
      have room := numbered.room table'
      rw [Token.table?_ofRow] at kind
      obtain rfl : table' = table := Option.some.inj kind
      rw [Token.row_ofRow_of_lt (by omega)]
      exact ⟨by omega, here⟩
    · rintro ⟨positive, here⟩
      obtain ⟨inside, -⟩ := List.getElem?_eq_some_iff.mp here
      have room := numbered.room table
      refine ⟨_, numbered.get?_eq_some_iff.mpr ⟨table, r - 1, here, rfl⟩,
        Token.table?_ofRow .., ?_⟩
      rw [Token.row_ofRow_of_lt (by omega)]
      omega
  made {key token} held := by
    obtain ⟨table, i, here, rfl⟩ := numbered.get?_eq_some_iff.mp held
    obtain ⟨inside, -⟩ := List.getElem?_eq_some_iff.mp here
    have room := numbered.room table
    exact ⟨table, Token.table?_ofRow .., by rw [Token.row_ofRow_of_lt (by omega)]⟩
  once := numbered.once
  known := Option.isSome_iff_exists
  injective {key key' token} held held' := by
    obtain ⟨table, i, here, rfl⟩ := numbered.get?_eq_some_iff.mp held
    obtain ⟨table', j, here', same⟩ := numbered.get?_eq_some_iff.mp held'
    obtain ⟨inside, -⟩ := List.getElem?_eq_some_iff.mp here
    obtain ⟨inside', -⟩ := List.getElem?_eq_some_iff.mp here'
    have room := numbered.room table
    have room' := numbered.room table'
    obtain ⟨rfl, rows⟩ := Token.ofRow_inj (by omega) (by omega) same
    obtain rfl : i = j := by omega
    exact Option.some.inj (here.symm.trans here')
  counted := numbered.counted

/-- Two tables that give the same answers. -/
structure Agrees (later tokens : TokenTable) : Prop where
  get? : ∀ key, later.get? key = tokens.get? key
  rows : ∀ table, later.rows table = tokens.rows table
  size : later.size = tokens.size

/-- A table in which a reference has the next row of a table, and that gives the answers of the
other one to all else. -/
structure Adds (later tokens : TokenTable) (key : RefKey) (table : TableKind) : Prop where
  new : later.get? key = some (Token.ofRow table ((tokens.rows table).length + 1))
  old : ∀ k, k ≠ key → later.get? k = tokens.get? k
  rows : ∀ kind, later.rows kind = tokens.rows kind ++ if kind = table then [key] else []
  size : later.size = tokens.size + 1

theorem agrees_listTable (tokens : TokenTable) (table : TableKind) :
    (tokens.listTable table).Agrees tokens where
  get? := get?_listTable tokens table
  rows := rows_listTable tokens table
  size := by rw [size, tokens_listTable, size]

theorem adds_file (absent : tokens.get? key = none) (table : TableKind) :
    (tokens.file key table).Adds tokens key table where
  new := by
    rw [get?] at absent
    simp [get?, lookup_append_singleton, absent]
  old k other := by
    have different : (k == key) = false := by simpa using other
    simp [get?, lookup_append_singleton, different]
  rows kind := rows_file tokens key table kind
  size := by simp [size]

end TokenTable

/-- What a call for a token does: it gives the token there is, or the next row of the table it
names, or it finds that table full, which changes no answer. -/
inductive Session.Serves (session : Session) (key : RefKey) (table : TableKind) :
    EStateM.Result Fault Session Token → Prop where
  | held {token : Token} (found : session.tokens.get? key = some token) :
    Serves session key table (.ok token session)
  | next {later : Session} (absent : session.tokens.get? key = none)
    (free : (session.tokens.rows table).length + 1 < Token.rowLimit)
    (adds : later.tokens.Adds session.tokens key table) :
    Serves session key table
      (.ok (Token.ofRow table ((session.tokens.rows table).length + 1)) later)
  | full {later : Session} (absent : session.tokens.get? key = none)
    (taken : Token.rowLimit ≤ (session.tokens.rows table).length + 1)
    (agrees : later.tokens.Agrees session.tokens) :
    Serves session key table (.error (.tableFull table) later)

theorem Emit.serves_reserveIn (session : Session) (key : RefKey) (table : TableKind) :
    session.Serves key table (reserveIn key table session) := by
  rw [reserveIn_eq, TokenTable.reserve_eq]
  cases found : session.tokens.get? key with
  | some token => exact .held found
  | none =>
    by_cases free : (session.tokens.rows table).length + 1 < Token.rowLimit
    · simp only [free, if_true]
      exact .next found free (TokenTable.adds_file found table)
    · simp only [free, if_false]
      exact .full found (by omega) (TokenTable.agrees_listTable _ _)

theorem Emit.numbered_reserveIn {session : Session} (numbered : session.tokens.Numbered)
    (key : RefKey) (table : TableKind) :
    (finalState (reserveIn key table session)).tokens.Numbered := by
  rw [reserveIn_eq]
  split
  next served =>
    rcases TokenTable.filed_of_reserve served with ⟨-, rfl⟩ | ⟨absent, rfl, free⟩
    · exact numbered
    · exact numbered.file absent free
  next failed =>
    obtain ⟨rfl, -⟩ := TokenTable.reserve_eq_error failed
    exact numbered.listTable table

namespace Session

/-- A session after calls for tokens, also after those that failed. -/
def reserveAll (session : Session) (calls : List (RefKey × TableKind)) : Session :=
  calls.foldl (fun session call => finalState (Emit.reserveIn call.1 call.2 session)) session

/-- The tokens that the calls hand out, each with the reference it was asked for. -/
def handedOut (session : Session) : List (RefKey × TableKind) → List (RefKey × Token)
  | [] => []
  | (key, table) :: calls =>
    match Emit.reserveIn key table session with
    | .ok token later => (key, token) :: later.handedOut calls
    | .error _ later => later.handedOut calls

variable {session : Session} {key : RefKey} {table : TableKind}
  {result : EStateM.Result Fault Session Token}

theorem reserveAll_cons (session : Session) (key : RefKey) (table : TableKind)
    (calls : List (RefKey × TableKind)) :
    session.reserveAll ((key, table) :: calls) =
      (finalState (Emit.reserveIn key table session)).reserveAll calls :=
  rfl

theorem handedOut_of_ok {token : Token} {later : Session}
    (served : Emit.reserveIn key table session = .ok token later)
    (calls : List (RefKey × TableKind)) :
    session.handedOut ((key, table) :: calls) = (key, token) :: later.handedOut calls := by
  rw [handedOut, served]

theorem handedOut_of_error {fault : Fault} {later : Session}
    (failed : Emit.reserveIn key table session = .error fault later)
    (calls : List (RefKey × TableKind)) :
    session.handedOut ((key, table) :: calls) = later.handedOut calls := by
  rw [handedOut, failed]

theorem numbered_reserveAll (numbered : session.tokens.Numbered)
    (calls : List (RefKey × TableKind)) : (session.reserveAll calls).tokens.Numbered := by
  induction calls generalizing session with
  | nil => exact numbered
  | cons call calls ih => exact ih (Emit.numbered_reserveIn numbered call.1 call.2)

/-- After the calls a reference has the token it had before or the one they handed out for it. -/
theorem get?_reserveAll (calls : List (RefKey × TableKind)) {token : Token} :
    (session.reserveAll calls).tokens.get? key = some token ↔
      session.tokens.get? key = some token ∨ (key, token) ∈ session.handedOut calls := by
  induction calls generalizing session with
  | nil => simp [reserveAll, handedOut]
  | cons call calls ih =>
    obtain ⟨asked, kind⟩ := call
    have served := Emit.serves_reserveIn session asked kind
    rw [reserveAll_cons, ih]
    generalize answer : Emit.reserveIn asked kind session = result at served
    cases served with
    | held found =>
      rw [handedOut_of_ok answer, List.mem_cons]
      constructor
      · rintro (before | later)
        · exact .inl before
        · exact .inr (.inr later)
      · rintro (before | same | later)
        · exact .inl before
        · obtain ⟨rfl, rfl⟩ := Prod.mk.inj same
          exact .inl found
        · exact .inr later
    | @next later absent free adds =>
      rw [handedOut_of_ok answer, List.mem_cons, ← or_assoc]
      refine or_congr_left ?_
      show later.tokens.get? key = some token ↔ _
      by_cases same : key = asked
      · subst same
        rw [adds.new, absent]
        simp [eq_comm]
      · rw [adds.old key same]
        simp [same]
    | @full later _ _ agrees =>
      rw [handedOut_of_error answer]
      dsimp only [finalState]
      rw [agrees.get?]

/-- A token stays what it is, whatever is asked for later. -/
theorem get?_reserveAll_of_get? (calls : List (RefKey × TableKind)) {token : Token}
    (held : session.tokens.get? key = some token) :
    (session.reserveAll calls).tokens.get? key = some token :=
  (get?_reserveAll calls).mpr (.inl held)

/-- The rows of a table list the references that its tokens were given to, in the order in which
the first call for each was served. -/
theorem rows_reserveAll (numbered : session.tokens.Numbered) (calls : List (RefKey × TableKind))
    (table : TableKind) :
    (session.reserveAll calls).tokens.rows table =
      (session.tokens.rows table ++
        ((session.handedOut calls).filter (·.2.table? = some table)).map (·.1)).eraseDups := by
  induction calls generalizing session with
  | nil =>
    have distinct := numbered.nodup_rows table
    simpa [reserveAll, handedOut] using (eraseDups_of_nodup distinct).symm
  | cons call calls ih =>
    obtain ⟨asked, kind⟩ := call
    have served := Emit.serves_reserveIn session asked kind
    rw [reserveAll_cons, ih (Emit.numbered_reserveIn numbered asked kind)]
    generalize answer : Emit.reserveIn asked kind session = result at served
    cases served with
    | held found =>
      obtain ⟨table', i, here, rfl⟩ := numbered.get?_eq_some_iff.mp found
      have filed : asked ∈ session.tokens.rows table' := List.mem_of_getElem? here
      rw [handedOut_of_ok answer, List.filter_cons, Token.table?_ofRow]
      by_cases same : table' = table
      · subst same
        simp only [decide_true, if_true, List.map_cons, eraseDups_append_cons_of_mem filed]
        rfl
      · simp only [Option.some.injEq, same, decide_false, Bool.false_eq_true, if_false]
        rfl
    | @next later absent free adds =>
      dsimp only [finalState]
      rw [handedOut_of_ok answer, List.filter_cons, Token.table?_ofRow, adds.rows]
      by_cases same : table = kind
      · subst same
        simp only [decide_true, if_true, List.map_cons, List.append_assoc, List.singleton_append]
      · simp only [Option.some.injEq, same, Ne.symm same, decide_false, Bool.false_eq_true,
          if_false, List.append_nil]
    | @full later _ _ agrees =>
      dsimp only [finalState]
      rw [handedOut_of_error answer, agrees.rows]

end Session

/-- Tokens and rows stay inverse to each other through any calls, failed ones included: a token
never changes, the rows of a table are numbered in the order in which the references were first
served, and a call either gives the token on file, or the next row of the table it names, or finds
that table full and then changes no token, no row and no count. -/
theorem reservation_stable_bijection (calls : List (RefKey × TableKind)) :
    (Session.reserveAll {} calls).tokens.Bijective ∧
      (∀ later key token, (Session.reserveAll {} calls).tokens.get? key = some token →
        (Session.reserveAll {} (calls ++ later)).tokens.get? key = some token) ∧
      (∀ key token, (Session.reserveAll {} calls).tokens.get? key = some token ↔
        (key, token) ∈ Session.handedOut {} calls) ∧
      (∀ table, (Session.reserveAll {} calls).tokens.rows table =
        (((Session.handedOut {} calls).filter (·.2.table? = some table)).map (·.1)).eraseDups) ∧
      ∀ key table, (Session.reserveAll {} calls).Serves key table
        (Emit.reserveIn key table (Session.reserveAll {} calls)) := by
  have empty : (TokenTable.Numbered ({} : Session).tokens) := TokenTable.numbered_empty
  have numbered := Session.numbered_reserveAll empty calls
  refine ⟨numbered.bijective, ?_, ?_, ?_, Emit.serves_reserveIn _⟩
  · intro later key token held
    have split : Session.reserveAll {} (calls ++ later) =
        (Session.reserveAll {} calls).reserveAll later := List.foldl_append
    rw [split]
    exact Session.get?_reserveAll_of_get? later held
  · intro key token
    rw [Session.get?_reserveAll]
    exact or_iff_right nofun
  · exact Session.rows_reserveAll empty calls

/-- A type that is asked for again keeps its token, also when another table is named. -/
example : (Session.handedOut {} [(.type .int32, .typeSpec), (.type (.array .int32 2), .typeSpec),
    (.type .int32, .typeRef)]).map (·.2) = [⟨0x1B000001⟩, ⟨0x1B000002⟩, ⟨0x1B000001⟩] := by
  decide +kernel

end ManagedCode
