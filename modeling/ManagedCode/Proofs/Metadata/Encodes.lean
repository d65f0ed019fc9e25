import ManagedCode.Metadata.Layout
import ManagedCode.Proofs.Metadata.Collect

namespace ManagedCode

/-- The one fault that does not depend on what was visited: a number is too large to be written. -/
def Fault.IsOverflow (fault : Fault) : Prop := ∃ value, fault = .compressedOverflow value

/-- Something is written, unless a number in it is too large. -/
def Encodes {α : Type} (result : Except Fault α) : Prop :=
  ∀ fault, result = .error fault → fault.IsOverflow

namespace Encodes

variable {α β : Type}

theorem pure (a : α) : Encodes (.ok a) := nofun

theorem bind {result : Except Fault α} {f : α → Except Fault β} (h : Encodes result)
    (next : ∀ a, Encodes (f a)) : Encodes (result >>= f) := by
  cases result with
  | error fault =>
    intro fault' he
    cases he
    exact h fault rfl
  | ok a => exact next a

theorem compressed (value : Nat) : Encodes (Compressed.encode value) := by
  intro fault h
  unfold Compressed.encode at h
  split at h
  next => cases h
  next => cases h; exact ⟨value, rfl⟩

end Encodes

/-- Something is a definition of the module itself or has a token. -/
def Session.Finds (session : Session) (target : Target) (key : RefKey) : Prop :=
  (session.lookup? target key).isSome

namespace Signature

variable {target : Target} {session : Session}

theorem typeIndex_ofRow {table : TableKind} (row : Nat)
    (h : table = .typeDef ∨ table = .typeRef) :
    ∃ index, typeIndex (Token.ofRow table row) = .ok index := by
  rcases h with rfl | rfl <;> simp [typeIndex, Token.typeIndex?, Token.table?_ofRow]

/-- A type definition that is found has a token of a table that signatures can name. -/
theorem typeIndex_lookup (filed : session.tokens.Filed) {d : TypeDefId} (h : session.Finds target (.type (.named d))) :
    ∃ token index, session.lookup target (.type (.named d)) = .ok token ∧
      typeIndex token = .ok index := by
  obtain ⟨token, found⟩ := Option.isSome_iff_exists.mp h
  have typed : ∃ index, typeIndex token = .ok index := by
    unfold Session.lookup? at found
    cases hd : target.definition? (.type (.named d)) with
    | some own =>
      rw [hd] at found
      cases found
      obtain ⟨i, -, rfl⟩ := Option.map_eq_some_iff.mp hd
      exact typeIndex_ofRow (i + 1) (.inl rfl)
    | none =>
      rw [hd] at found
      obtain ⟨i, -, rfl⟩ := filed.get?_eq_some_iff.mp found
      exact typeIndex_ofRow (i + 1) (.inr rfl)
  obtain ⟨index, hi⟩ := typed
  exact ⟨token, index, by rw [Session.lookup, found], hi⟩

theorem encodes_named (filed : session.tokens.Filed) {d : TypeDefId} (h : session.Finds target (.type (.named d))) :
    Encodes (encodeNamed target session d) := by
  obtain ⟨token, index, hl, hi⟩ := typeIndex_lookup filed h
  have eq : encodeNamed target session d =
      (do let bytes ← Compressed.encode index
          return (if (target.symbols.typeDef d).isValueType then valueTypeCode else classCode) ::
            bytes) := by
    unfold encodeNamed
    rw [hl]
    change (do let index ← (typeIndex token).mapError Fault.misuse; _) = _
    rw [hi]
    rfl
  rw [eq]
  exact .bind (.compressed index) fun _ => .pure _

mutual

theorem encodes_ty (filed : session.tokens.Filed) (t : Ty) (h : ∀ d ∈ t.mentions, session.Finds target (.type (.named d))) :
    Encodes (encodeTy target session t) := by
  cases t with
  | primitive p => exact .pure _
  | typeParam i | methodParam i => exact .bind (.compressed i) fun _ => .pure _
  | named d => exact encodes_named filed (h d (List.mem_singleton.mpr rfl))
  | inst d args =>
    unfold encodeTy
    refine .bind (encodes_named filed (h d List.mem_cons_self)) fun _ => ?_
    refine .bind (.compressed _) fun _ => .bind (encodes_tys filed args fun e he => ?_) fun _ => .pure _
    exact h e (List.mem_cons_of_mem d he)
  | vector t | pointer t | byRef t =>
    unfold encodeTy
    exact .bind (encodes_ty filed t h) fun _ => .pure _
  | array t rank =>
    unfold encodeTy
    exact .bind (encodes_ty filed t h) fun _ => .bind (.compressed rank) fun _ => .pure _

theorem encodes_tys (filed : session.tokens.Filed) (ts : List Ty)
    (h : ∀ d ∈ Ty.mentionsAll ts, session.Finds target (.type (.named d))) :
    Encodes (encodeTys target session ts) := by
  cases ts with
  | nil => exact .pure _
  | cons t ts =>
    unfold encodeTys
    refine .bind (encodes_ty filed t fun d hd => h d (List.mem_append_left _ hd)) fun _ => ?_
    exact .bind (encodes_tys filed ts fun d hd => h d (List.mem_append_right _ hd)) fun _ => .pure _

end

theorem encodes_typed (filed : session.tokens.Filed) {t : Ty} (h : ∀ k ∈ t.namedKeys, session.Finds target k) :
    Encodes (encodeTy target session t) :=
  encodes_ty filed t fun _ hd => h _ (List.mem_map_of_mem hd)

theorem encodes_typedAll (filed : session.tokens.Filed) {ts : List Ty} (h : ∀ k ∈ ts.flatMap Ty.namedKeys, session.Finds target k) :
    Encodes (encodeTys target session ts) := by
  refine encodes_tys filed ts fun d hd => h _ ?_
  rw [Ty.mentionsAll_eq_flatMap] at hd
  obtain ⟨t, ht, hd⟩ := List.mem_flatMap.mp hd
  exact List.mem_flatMap.mpr ⟨t, ht, List.mem_map_of_mem hd⟩

theorem encodes_field (filed : session.tokens.Filed) {t : Ty} (h : ∀ k ∈ t.namedKeys, session.Finds target k) :
    Encodes (encodeField target session t) :=
  .bind (encodes_typed filed h) fun _ => .pure _

theorem encodes_method (filed : session.tokens.Filed) {signature : MethodSignature}
    (h : ∀ k ∈ signature.namedKeys, session.Finds target k) :
    Encodes (encodeMethod target session signature) := by
  have params := encodes_typedAll filed fun k hk => h k (List.mem_append_left _ hk)
  have ret := encodes_typed filed fun k hk => h k (List.mem_append_right _ hk)
  have rest : ∀ arity : List UInt8, Encodes (do
      let count ← Compressed.encode signature.params.length
      let ret ← encodeTy target session signature.ret
      let params ← encodeTys target session signature.params
      return methodCode signature.hasThis (signature.genericArity > 0) :: arity ++ count ++ ret ++
        params) := fun arity =>
    .bind (.compressed _) fun _ => .bind ret fun _ => .bind params fun _ => .pure _
  unfold encodeMethod
  dsimp only
  split
  next => exact .bind (.compressed _) rest
  next => exact .bind (.pure []) rest

theorem encodes_methodInstance (filed : session.tokens.Filed) {args : List Ty}
    (h : ∀ k ∈ args.flatMap Ty.namedKeys, session.Finds target k) :
    Encodes (encodeMethodInstance target session args) :=
  .bind (.compressed _) fun _ => .bind (encodes_typedAll filed h) fun _ => .pure _

end Signature

end ManagedCode
