import ManagedCode.Metadata.Session
import ManagedCode.Proofs.Metadata.TokenTable

namespace ManagedCode

theorem ArrayMethod.build_eq_ok {kind : ArrayMethodKind} {arrayTy : Ty} {method : ArrayMethod}
    (h : build kind arrayTy = .ok method) : method.kind = kind ∧ method.arrayTy = arrayTy := by
  unfold build at h
  split at h
  next => cases h; exact ⟨rfl, rfl⟩
  next => cases h

/-- Every member in a cache is the one that is made for its array type. -/
def ArrayMethodCache.Cached (cache : ArrayMethodCache) : Prop :=
  ∀ method ∈ cache.methods, ArrayMethod.build method.kind method.arrayTy = .ok method

theorem ArrayMethodCache.get_eq_ok {cache later : ArrayMethodCache} {kind : ArrayMethodKind}
    {arrayTy : Ty} {method : ArrayMethod}
    (cached : cache.Cached) (h : cache.get kind arrayTy = .ok (method, later)) :
    ArrayMethod.build kind arrayTy = .ok method ∧ later.Cached := by
  unfold get find? at h
  split at h
  next found =>
    cases h
    have same := List.find?_some found
    obtain ⟨rfl, rfl⟩ : method.kind = kind ∧ method.arrayTy = arrayTy := by simpa using same
    exact ⟨cached method (List.mem_of_find?_eq_some found), cached⟩
  next =>
    cases built : ArrayMethod.build kind arrayTy with
    | error misuse => rw [built] at h; cases h
    | ok made =>
      rw [built] at h
      cases h
      obtain ⟨rfl, rfl⟩ := ArrayMethod.build_eq_ok built
      refine ⟨rfl, fun m hm => ?_⟩
      rcases List.mem_append.mp hm with old | new
      · exact cached m old
      · rw [List.mem_singleton.mp new]
        exact built

/-- A member that can be made is handed out. -/
theorem ArrayMethodCache.get_of_build {cache : ArrayMethodCache} {kind : ArrayMethodKind}
    {arrayTy : Ty} {method : ArrayMethod} (cached : cache.Cached)
    (built : ArrayMethod.build kind arrayTy = .ok method) :
    ∃ later, cache.get kind arrayTy = .ok (method, later) ∧ later.Cached := by
  cases got : cache.get kind arrayTy with
  | error misuse =>
    unfold get at got
    split at got
    next => cases got
    next => rw [built] at got; cases got
  | ok result =>
    obtain ⟨made, later⟩ := result
    obtain ⟨built', cached'⟩ := get_eq_ok cached got
    rw [built] at built'
    cases built'
    exact ⟨later, rfl, cached'⟩

namespace Session

/-- A reference has a token. -/
def Reserved (session : Session) (key : RefKey) : Prop := key ∈ session.tokens.keys

theorem reserved_iff_contains {session : Session} {key : RefKey} :
    session.tokens.contains key = true ↔ session.Reserved key := TokenTable.contains_iff

/-- Whether a reference has a token depends on the tokens alone. -/
theorem reserved_congr {session later : Session} (same : later.tokens.keys = session.tokens.keys)
    {key : RefKey} : later.Reserved key ↔ session.Reserved key := by
  rw [Reserved, Reserved, same]

theorem hasSeen_iff {session : Session} {key : RefKey} :
    session.hasSeen key = true ↔ key ∈ session.seen := decide_eq_true_iff

end Session

namespace Emit

variable {session later : Session} {key : RefKey}

theorem markSeen_eq (session : Session) (key : RefKey) :
    markSeen key session =
      if session.hasSeen key then .ok false session
      else .ok true { session with seen := session.seen ++ [key] } := by
  unfold markSeen
  rw [get_bind]
  cases session.hasSeen key <;> rfl

theorem unlessReserved_eq (session : Session) (key : RefKey) (visit : Emit Unit) :
    unlessReserved key visit session =
      if session.tokens.contains key then .ok () session else visit session := by
  unfold unlessReserved
  rw [get_bind]
  cases session.tokens.contains key <;> rfl

/-- Marking a reference fails nowhere and touches nothing else. -/
theorem exists_mark (session : Session) (key : RefKey) :
    ∃ marked : Session, (discard (markSeen key) : Emit Unit) session = .ok () marked ∧
      marked.tokens = session.tokens ∧ marked.arrayMethods = session.arrayMethods ∧
      ∀ k, k ∈ marked.seen ↔ k ∈ session.seen ∨ k = key := by
  have marks := markSeen_eq session key
  split at marks
  next old =>
    have among := Session.hasSeen_iff.mp old
    exact ⟨session, bind_of_ok marks, rfl, rfl, fun k =>
      ⟨.inl, by rintro (mem | rfl) <;> assumption⟩⟩
  next => exact ⟨_, bind_of_ok marks, rfl, rfl, fun k => by simp⟩

theorem markSeen_then (session : Session) (key : RefKey) (visit : Emit Unit) :
    (do if ← markSeen key then visit : Emit Unit) session =
      if session.hasSeen key then .ok () session
      else (do discard (markSeen key); visit : Emit Unit) session := by
  have marks := markSeen_eq session key
  split
  next seen =>
    rw [if_pos seen] at marks
    exact bind_of_ok marks
  next fresh =>
    rw [if_neg fresh] at marks
    have marks' : (discard (markSeen key) : Emit Unit) session = .ok () _ := bind_of_ok marks
    rw [bind_of_ok marks']
    exact bind_of_ok marks

theorem reserveIn_eq (session : Session) (key : RefKey) (table : TableKind) :
    reserveIn key table session =
      match TokenTable.reserve key table session.tokens with
      | .ok token tokens => .ok token { session with tokens }
      | .error fault tokens => .error fault { session with tokens } := by
  unfold reserveIn onTokens
  cases TokenTable.reserve key table session.tokens <;> rfl

/-- A reference that was asked for has a token, its old one or that of the next row. -/
theorem reserveIn_eq_ok {table : TableKind} {token : Token}
    (h : reserveIn key table session = .ok token later) :
    later.arrayMethods = session.arrayMethods ∧ later.seen = session.seen ∧
      ((session.Reserved key ∧ later.tokens = session.tokens) ∨
        (¬session.Reserved key ∧ later.tokens = session.tokens.file key table ∧
          (session.tokens.rows table).length + 1 < Token.rowLimit)) := by
  rw [reserveIn_eq] at h
  split at h
  next token' tokens served =>
    cases h
    exact ⟨rfl, rfl, TokenTable.filed_of_reserve served⟩
  next => cases h

theorem arrayMethod_eq (session : Session) (kind : ArrayMethodKind) (arrayTy : Ty) :
    arrayMethod kind arrayTy session =
      match session.arrayMethods.get kind arrayTy with
      | .ok (method, arrayMethods) => .ok method { session with arrayMethods }
      | .error misuse => .error (.misuse misuse) session := by
  unfold arrayMethod
  rw [get_bind]
  cases session.arrayMethods.get kind arrayTy <;> rfl

/-- After a reference was filed, it has a token and the others have them as before. -/
theorem reserved_of_filed
    (h : (session.Reserved key ∧ later.tokens = session.tokens) ∨
      (¬session.Reserved key ∧ later.tokens = session.tokens.file key key.table ∧
        (session.tokens.rows key.table).length + 1 < Token.rowLimit)) (k : RefKey) :
    later.Reserved k ↔ session.Reserved k ∨ k = key := by
  rcases h with ⟨held, same⟩ | ⟨-, filed, -⟩
  · rw [Session.Reserved, same]
    exact ⟨.inl, by rintro (hr | rfl) <;> assumption⟩
  · simp [Session.Reserved, filed]

/-- Reserving marks the reference and then asks for its token. -/
theorem reserve_eq (session : Session) (key : RefKey) :
    ∃ marked : Session, marked.arrayMethods = session.arrayMethods ∧
      (∀ k, k ∈ marked.seen ↔ k ∈ session.seen ∨ k = key) ∧
      reserve key session = match TokenTable.reserve key key.table session.tokens with
        | .ok _ tokens => .ok () { marked with tokens }
        | .error fault tokens => .error fault { marked with tokens } := by
  obtain ⟨marked, run, tokens, arrayMethods, seen⟩ := exists_mark session key
  refine ⟨marked, arrayMethods, seen, ?_⟩
  have step : reserve key session = (do discard <| reserveIn key key.table : Emit Unit) marked :=
    bind_of_ok run
  have filing := reserveIn_eq marked key key.table
  rw [tokens] at filing
  rw [step]
  cases served : TokenTable.reserve key key.table session.tokens with
  | ok token table =>
    rw [served] at filing
    exact bind_of_ok filing
  | error fault table =>
    rw [served] at filing
    exact bind_of_error filing

/-- Reserving marks the reference and files it in its own table. -/
theorem reserve_eq_ok {u : Unit} (h : reserve key session = .ok u later) :
    later.arrayMethods = session.arrayMethods ∧
      (∀ k, k ∈ later.seen ↔ k ∈ session.seen ∨ k = key) ∧
      ((session.Reserved key ∧ later.tokens = session.tokens) ∨
        (¬session.Reserved key ∧ later.tokens = session.tokens.file key key.table ∧
          (session.tokens.rows key.table).length + 1 < Token.rowLimit)) := by
  obtain ⟨marked, arrayMethods, seen, run⟩ := reserve_eq session key
  rw [run] at h
  split at h
  next served =>
    cases h
    exact ⟨arrayMethods, seen, TokenTable.filed_of_reserve served⟩
  next => cases h

/-- Where a table is full, reserving has marked the reference and done nothing else. -/
theorem reserve_eq_error {fault : Fault} (h : reserve key session = .error fault later) :
    later.arrayMethods = session.arrayMethods ∧
      (∀ k, k ∈ later.seen ↔ k ∈ session.seen ∨ k = key) ∧
      later.tokens.keys = session.tokens.keys := by
  obtain ⟨marked, arrayMethods, seen, run⟩ := reserve_eq session key
  rw [run] at h
  split at h
  next => cases h
  next served =>
    cases h
    obtain ⟨rfl, -⟩ := TokenTable.reserve_eq_error served
    exact ⟨arrayMethods, seen, TokenTable.keys_listTable ..⟩

/-- A reference without a token gets one where its table has a row to give. -/
theorem exists_reserve (absent : ¬session.Reserved key)
    (free : (session.tokens.rows key.table).length + 1 < Token.rowLimit) :
    ∃ later, reserve key session = .ok () later ∧
      later.tokens = session.tokens.file key key.table ∧
      ∀ k, k ∈ later.seen ↔ k ∈ session.seen ∨ k = key := by
  obtain ⟨marked, -, seen, run⟩ := reserve_eq session key
  have unfiled := TokenTable.get?_eq_none_iff.mpr absent
  rw [TokenTable.reserve_eq, unfiled, if_pos free] at run
  exact ⟨_, run, rfl, seen⟩

/-- It gets none where the table has no more rows. -/
theorem exists_reserve_full (absent : ¬session.Reserved key)
    (full : Token.rowLimit ≤ (session.tokens.rows key.table).length + 1) :
    ∃ later, reserve key session = .error (.tableFull key.table) later := by
  obtain ⟨marked, -, -, run⟩ := reserve_eq session key
  have unfiled := TokenTable.get?_eq_none_iff.mpr absent
  rw [TokenTable.reserve_eq, unfiled, if_neg (by omega)] at run
  exact ⟨_, run⟩

end Emit

end ManagedCode
