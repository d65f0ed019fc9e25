import ManagedCode.Proofs.Metadata.RowsByToken
import ManagedCode.Proofs.Metadata.SignatureReader

namespace ManagedCode

/-- A token is its table and its row. -/
theorem Token.ext_of_table {token token' : Token} {table : TableKind}
    (h : token.table? = some table) (h' : token'.table? = some table)
    (rows : token.row = token'.row) : token = token' := by
  have tagged : ∀ {token : Token}, token.table? = some table →
      table.tag = token.raw.toNat / rowLimit := fun h => by simpa using List.find?_some h
  have high := (tagged h).symm.trans (tagged h')
  have raw : token.raw.toNat = token'.raw.toNat := by
    rw [← Nat.div_add_mod token.raw.toNat rowLimit, ← Nat.div_add_mod token'.raw.toNat rowLimit,
      high]
    exact congrArg _ rows
  cases token
  cases token'
  exact congrArg Token.mk (UInt32.toNat_inj.mp raw)

/-- Different things have different tokens, as long as the types of the module itself have a row
each. -/
theorem Session.lookup_type_inj {target : Target} {session : Session} (made : target.symbols.Made)
    (fits : target.typeDefs.length < Token.rowLimit) (tidy : session.Tidy target)
    {d e : TypeDefId} {token : Token} (hd : session.lookup target (.type (.named d)) = .ok token)
    (he : session.lookup target (.type (.named e)) = .ok token) : d = e := by
  have own : ∀ {table : TableKind} {i : Nat} {d : TypeDefId},
      (target.definitions table)[i]? = some (.type (.named d)) →
        table = .typeDef ∧ target.typeDefs[i]? = some d := by
    intro table i d at_
    cases table with
    | typeDef => exact ⟨rfl, (Target.getElem?_map_iff (by rintro _ _ ⟨⟩; rfl)).mp at_⟩
    | field | methodDef =>
      obtain ⟨_, -, same⟩ := List.mem_map.mp (List.mem_of_getElem? at_)
      cases same
    | _ => cases at_
  have foreign : ∀ {i j : Nat}, Token.ofRow .typeDef i ≠ Token.ofRow .typeRef j := by
    intro i j same
    have tables := congrArg Token.table? same
    rw [Token.table?_ofRow, Token.table?_ofRow] at tables
    cases tables
  rcases Session.lookup_eq_ok made tidy hd with ⟨_, i, -, at_, rfl⟩ | ⟨i, at_, rfl⟩ <;>
    rcases Session.lookup_eq_ok made tidy he with ⟨_, j, -, at', same⟩ | ⟨j, at', same⟩
  · obtain ⟨rfl, here⟩ := own at_
    obtain ⟨rfl, there⟩ := own at'
    have inside := (List.getElem?_eq_some_iff.mp here).1
    have inside' := (List.getElem?_eq_some_iff.mp there).1
    obtain ⟨-, rows⟩ := Token.ofRow_inj (by omega) (by omega) same
    cases Nat.succ.inj rows
    exact Option.some.inj (here.symm.trans there)
  · obtain ⟨rfl, -⟩ := own at_
    exact absurd same foreign
  · obtain ⟨rfl, -⟩ := own at'
    exact absurd same.symm foreign
  · have room := tidy.filed.room .typeRef
    have inside := (List.getElem?_eq_some_iff.mp at_).1
    have inside' := (List.getElem?_eq_some_iff.mp at').1
    change i < (session.tokens.rows .typeRef).length at inside
    change j < (session.tokens.rows .typeRef).length at inside'
    obtain ⟨-, rows⟩ := Token.ofRow_inj (by omega) (by omega) same
    cases Nat.succ.inj rows
    cases at_.symm.trans at'
    rfl

namespace Signature

/-- If the same bytes begin with the encodings of both, it is one thing and one encoding. -/
def Separates {α : Type} (encode : α → Except Fault (List UInt8)) (a b : α) : Prop :=
  ∀ ⦃code code' rest rest' : List UInt8⦄, encode a = .ok code → encode b = .ok code' →
    code ++ rest = code' ++ rest' → a = b ∧ rest = rest'

theorem Separates.inj {α : Type} {encode : α → Except Fault (List UInt8)} {a b : α}
    (h : Separates encode a b) {code : List UInt8} (ha : encode a = .ok code)
    (hb : encode b = .ok code) : a = b :=
  (h ha hb (rfl : code ++ [] = code ++ [])).1

theorem separates_number (m n : Nat) : Separates Compressed.encode m n := by
  intro code code' rest rest' hm hn same
  have read := readNumber_encode hm rest
  rw [same, readNumber_encode hn] at read
  cases read
  exact ⟨rfl, rfl⟩

/-- A type index says which token it was made from. -/
theorem typeIndex_inj {token token' : Token} {index : Nat} (h : typeIndex token = .ok index)
    (h' : typeIndex token' = .ok index) : token = token' := by
  have typed : ∀ {token}, typeIndex token = .ok index → 
      (token.table? = some .typeDef ∧ index = token.row * 4) ∨
      (token.table? = some .typeRef ∧ index = token.row * 4 + 1) ∨
      (token.table? = some .typeSpec ∧ index = token.row * 4 + 2) := by
    intro token h
    unfold typeIndex Token.typeIndex? at h
    split at h
    next found =>
      cases h
      split at found
      next kind => cases found; exact .inl ⟨kind, rfl⟩
      next kind => cases found; exact .inr (.inl ⟨kind, rfl⟩)
      next kind => cases found; exact .inr (.inr ⟨kind, rfl⟩)
      next => cases found
    next => cases h
  rcases typed h with ⟨kind, here⟩ | ⟨kind, here⟩ | ⟨kind, here⟩ <;>
    rcases typed h' with ⟨kind', there⟩ | ⟨kind', there⟩ | ⟨kind', there⟩
  all_goals first
    | exact Token.ext_of_table kind kind' (by omega)
    | omega

variable (target : Target) (session : Session)

/-- No two type definitions are found with the same token. -/
def Distinguishes : Prop :=
  ∀ ⦃d e token⦄, session.lookup target (.type (.named d)) = .ok token →
    session.lookup target (.type (.named e)) = .ok token → d = e

/-- The byte that the encoding of a type begins with. -/
def typeCode : Ty → UInt8
  | .primitive p => p.elementCode
  | .named d => if (target.symbols.typeDef d).isValueType then valueTypeCode else classCode
  | .inst _ _ => instanceCode
  | .typeParam _ => typeParamCode
  | .methodParam _ => methodParamCode
  | .vector _ => vectorCode
  | .array _ _ => arrayCode
  | .pointer _ => pointerCode
  | .byRef _ => byRefCode

variable {target session}

theorem encodeNamed_eq_ok {d : TypeDefId} {code : List UInt8}
    (h : encodeNamed target session d = .ok code) : ∃ token index number,
      session.lookup target (.type (.named d)) = .ok token ∧ typeIndex token = .ok index ∧
      Compressed.encode index = .ok number ∧ code = typeCode target (.named d) :: number := by
  unfold encodeNamed at h
  obtain ⟨token, found, h⟩ := except_bind_eq_ok.mp h
  obtain ⟨index, ofToken, h⟩ := except_bind_eq_ok.mp h
  obtain ⟨number, encoded, h⟩ := except_bind_eq_ok.mp h
  cases h
  refine ⟨token, index, number, found, ?_, encoded, rfl⟩
  cases typed : typeIndex token with
  | ok i => rw [typed] at ofToken; cases ofToken; rfl
  | error misuse => rw [typed] at ofToken; cases ofToken

theorem separates_named (distinct : Distinguishes target session) (d e : TypeDefId) :
    Separates (encodeNamed target session) d e := by
  intro code code' rest rest' hd he same
  obtain ⟨token, index, number, found, typed, encoded, rfl⟩ := encodeNamed_eq_ok hd
  obtain ⟨token', index', number', found', typed', encoded', rfl⟩ := encodeNamed_eq_ok he
  obtain ⟨-, same⟩ := List.cons.inj same
  obtain ⟨rfl, behind⟩ := separates_number index index' encoded encoded' same
  cases typeIndex_inj typed typed'
  exact ⟨distinct found found', behind⟩

theorem head_encodeTy {t : Ty} {code : List UInt8} (h : encodeTy target session t = .ok code) :
    ∃ parts, code = typeCode target t :: parts := by
  cases t with
  | primitive p =>
    rw [encodeTy] at h
    cases h
    exact ⟨[], rfl⟩
  | named d =>
    rw [encodeTy] at h
    obtain ⟨_, _, number, -, -, -, rfl⟩ := encodeNamed_eq_ok h
    exact ⟨number, rfl⟩
  | inst d args =>
    rw [encodeTy] at h
    obtain ⟨_, -, h⟩ := except_bind_eq_ok.mp h
    obtain ⟨_, -, h⟩ := except_bind_eq_ok.mp h
    obtain ⟨_, -, h⟩ := except_bind_eq_ok.mp h
    cases h
    exact ⟨_, rfl⟩
  | array t rank =>
    rw [encodeTy] at h
    obtain ⟨_, -, h⟩ := except_bind_eq_ok.mp h
    obtain ⟨_, -, h⟩ := except_bind_eq_ok.mp h
    cases h
    exact ⟨_, rfl⟩
  | typeParam _ | methodParam _ | vector _ | pointer _ | byRef _ =>
    rw [encodeTy] at h
    obtain ⟨_, -, h⟩ := except_bind_eq_ok.mp h
    cases h
    exact ⟨_, rfl⟩

/-- The kind of type that follows a first byte, by the place of its constructor. -/
def kindOfCode (code : UInt8) : Nat :=
  if isPrimitiveCode code then 0
  else if code = classCode ∨ code = valueTypeCode then 1
  else if code = instanceCode then 2
  else if code = typeParamCode then 3
  else if code = methodParamCode then 4
  else if code = vectorCode then 5
  else if code = arrayCode then 6
  else if code = pointerCode then 7
  else 8

theorem kindOfCode_typeCode (target : Target) (t : Ty) : kindOfCode (typeCode target t) = t.ctorIdx := by
  cases t with
  | primitive p => exact if_pos (primitiveCode_elementCode p)
  | named d =>
    rw [typeCode]
    cases (target.symbols.typeDef d).isValueType <;> rfl
  | _ => rfl

/-- A primitive type is found by its byte. -/
theorem elementCode_inj {p q : Primitive} (h : p.elementCode = q.elementCode) : p = q := by
  have found : ∀ p : Primitive, Primitive.all.find? (·.elementCode = p.elementCode) = some p := by
    intro p
    cases p <;> rfl
  have same := found p
  rw [h, found q] at same
  exact (Option.some.inj same).symm

mutual

/-- Types are told apart from the front: by what kind they are, then part by part. -/
theorem separates_ty (distinct : Distinguishes target session) (t u : Ty) :
    Separates (encodeTy target session) t u := by
  intro code code' rest rest' ht hu same
  have kinds : t.ctorIdx = u.ctorIdx := by
    obtain ⟨parts, rfl⟩ := head_encodeTy ht
    obtain ⟨parts', rfl⟩ := head_encodeTy hu
    rw [← kindOfCode_typeCode target, (List.cons.inj same).1, kindOfCode_typeCode]
  match t, u, kinds with
  | .primitive p, .primitive q, _ =>
    rw [encodeTy] at ht hu
    cases ht
    cases hu
    obtain ⟨first, behind⟩ := List.cons.inj same
    exact ⟨congrArg Ty.primitive (elementCode_inj first), behind⟩
  | .named d, .named e, _ =>
    rw [encodeTy] at ht hu
    obtain ⟨rfl, behind⟩ := separates_named distinct d e ht hu same
    exact ⟨rfl, behind⟩
  | .inst d ts, .inst e us, _ =>
    rw [encodeTy] at ht hu
    obtain ⟨definition, hd, ht⟩ := except_bind_eq_ok.mp ht
    obtain ⟨count, hc, ht⟩ := except_bind_eq_ok.mp ht
    obtain ⟨args, ha, ht⟩ := except_bind_eq_ok.mp ht
    obtain ⟨definition', he, hu⟩ := except_bind_eq_ok.mp hu
    obtain ⟨count', hc', hu⟩ := except_bind_eq_ok.mp hu
    obtain ⟨args', ha', hu⟩ := except_bind_eq_ok.mp hu
    cases ht
    cases hu
    simp only [List.cons_append, List.append_assoc, List.cons.injEq, true_and] at same
    obtain ⟨rfl, same⟩ := separates_named distinct d e hd he same
    obtain ⟨length, same⟩ := separates_number ts.length us.length hc hc' same
    obtain ⟨rfl, behind⟩ := separates_tys distinct ts us length ha ha' same
    exact ⟨rfl, behind⟩
  | .typeParam i, .typeParam j, _ | .methodParam i, .methodParam j, _ =>
    rw [encodeTy] at ht hu
    obtain ⟨number, hi, ht⟩ := except_bind_eq_ok.mp ht
    obtain ⟨number', hj, hu⟩ := except_bind_eq_ok.mp hu
    cases ht
    cases hu
    obtain ⟨rfl, behind⟩ := separates_number i j hi hj (List.cons.inj same).2
    exact ⟨rfl, behind⟩
  | .vector t, .vector u, _ | .pointer t, .pointer u, _ | .byRef t, .byRef u, _ =>
    rw [encodeTy] at ht hu
    obtain ⟨inner, ha, ht⟩ := except_bind_eq_ok.mp ht
    obtain ⟨inner', hb, hu⟩ := except_bind_eq_ok.mp hu
    cases ht
    cases hu
    obtain ⟨rfl, behind⟩ := separates_ty distinct t u ha hb (List.cons.inj same).2
    exact ⟨rfl, behind⟩
  | .array t m, .array u n, _ =>
    rw [encodeTy] at ht hu
    obtain ⟨inner, ha, ht⟩ := except_bind_eq_ok.mp ht
    obtain ⟨number, hm, ht⟩ := except_bind_eq_ok.mp ht
    obtain ⟨inner', hb, hu⟩ := except_bind_eq_ok.mp hu
    obtain ⟨number', hn, hu⟩ := except_bind_eq_ok.mp hu
    cases ht
    cases hu
    simp only [List.cons_append, List.append_assoc, List.cons.injEq, true_and] at same
    obtain ⟨rfl, same⟩ := separates_ty distinct t u ha hb same
    obtain ⟨rfl, same⟩ := separates_number m n hm hn same
    exact ⟨rfl, (List.cons.inj (List.cons.inj same).2).2⟩

/-- Lists of types of one length are told apart from the front. -/
theorem separates_tys (distinct : Distinguishes target session) (ts us : List Ty)
    (length : ts.length = us.length) : Separates (encodeTys target session) ts us := by
  intro code code' rest rest' ht hu same
  match ts, us, length with
  | [], [], _ =>
    rw [encodeTys] at ht hu
    cases ht
    cases hu
    exact ⟨rfl, same⟩
  | t :: ts, u :: us, length =>
    rw [encodeTys] at ht hu
    obtain ⟨first, hf, ht⟩ := except_bind_eq_ok.mp ht
    obtain ⟨others, ho, ht⟩ := except_bind_eq_ok.mp ht
    obtain ⟨first', hf', hu⟩ := except_bind_eq_ok.mp hu
    obtain ⟨others', ho', hu⟩ := except_bind_eq_ok.mp hu
    cases ht
    cases hu
    rw [List.append_assoc, List.append_assoc] at same
    obtain ⟨rfl, same⟩ := separates_ty distinct t u hf hf' same
    obtain ⟨rfl, behind⟩ := separates_tys distinct ts us (Nat.succ.inj length) ho ho' same
    exact ⟨rfl, behind⟩

end

theorem separates_field (distinct : Distinguishes target session) (t u : Ty) :
    Separates (encodeField target session) t u := by
  intro code code' rest rest' ht hu same
  obtain ⟨inner, ha, ht⟩ := except_bind_eq_ok.mp ht
  obtain ⟨inner', hb, hu⟩ := except_bind_eq_ok.mp hu
  cases ht
  cases hu
  exact separates_ty distinct t u ha hb (List.cons.inj same).2

theorem separates_methodInstance (distinct : Distinguishes target session) (ts us : List Ty) :
    Separates (encodeMethodInstance target session) ts us := by
  intro code code' rest rest' ht hu same
  obtain ⟨count, hc, ht⟩ := except_bind_eq_ok.mp ht
  obtain ⟨args, ha, ht⟩ := except_bind_eq_ok.mp ht
  obtain ⟨count', hc', hu⟩ := except_bind_eq_ok.mp hu
  obtain ⟨args', ha', hu⟩ := except_bind_eq_ok.mp hu
  cases ht
  cases hu
  simp only [List.cons_append, List.append_assoc, List.cons.injEq, true_and] at same
  obtain ⟨length, same⟩ := separates_number ts.length us.length hc hc' same
  exact separates_tys distinct ts us length ha ha' same

/-- The first byte of a method says whether it has a receiver and whether a number of type
parameters follows. -/
theorem separates_method (distinct : Distinguishes target session) (m n : MethodSignature) :
    Separates (encodeMethod target session) m n := by
  intro code code' rest rest' hm hn same
  obtain ⟨arity, number, types, generic, counted, typed, rfl⟩ := encodeMethod_eq_ok hm
  obtain ⟨arity', number', types', generic', counted', typed', rfl⟩ := encodeMethod_eq_ok hn
  simp only [List.cons_append, List.append_assoc, List.cons.injEq] at same
  obtain ⟨first, same⟩ := same
  have flags : ∀ a b a' b', methodCode a b = methodCode a' b' → a = a' ∧ b = b' := by decide
  obtain ⟨hasThis, isGeneric⟩ := flags _ _ _ _ first
  rw [decide_eq_decide] at isGeneric
  have arities : m.genericArity = n.genericArity ∧
      number ++ (types ++ rest) = number' ++ (types' ++ rest') := by
    by_cases many : 0 < m.genericArity
    · rw [if_pos many] at generic
      rw [if_pos (isGeneric.mp many)] at generic'
      exact separates_number _ _ generic generic' same
    · have none : ¬0 < n.genericArity := fun many' => many (isGeneric.mpr many')
      rw [if_neg many] at generic
      rw [if_neg none] at generic'
      subst generic generic'
      exact ⟨by omega, same⟩
  obtain ⟨arities, same⟩ := arities
  obtain ⟨length, same⟩ := separates_number _ _ counted counted' same
  obtain ⟨listed, behind⟩ := separates_tys distinct (m.ret :: m.params) (n.ret :: n.params)
    (congrArg Nat.succ length) typed typed' same
  obtain ⟨ret, params⟩ := List.cons.inj listed
  refine ⟨?_, behind⟩
  cases m
  cases n
  simp only [MethodSignature.mk.injEq]
  exact ⟨params, ret, hasThis, arities⟩

/-- A field is not written like a method. -/
theorem encodeField_ne_encodeMethod {t : Ty} {m : MethodSignature} {code code' : List UInt8}
    (ht : encodeField target session t = .ok code)
    (hm : encodeMethod target session m = .ok code') : code ≠ code' := by
  obtain ⟨inner, -, h⟩ := except_bind_eq_ok.mp ht
  cases h
  obtain ⟨arity, number, types, -, -, -, rfl⟩ := encodeMethod_eq_ok hm
  have other : ∀ a b, fieldCode ≠ methodCode a b := by decide
  intro same
  exact other _ _ (List.cons.inj same).1

end Signature

/-- If columns only agree where the things they describe do, those of distinct things are
distinct. -/
theorem nodup_of_forall₂ {α β γ : Type} {R : α → β → Prop} {column : β → γ} {as : List α}
    {bs : List β} (h : List.Forall₂ R as bs) (distinct : as.Nodup)
    (tells : ∀ {a a' b b'}, R a b → R a' b' → column b = column b' → a = a') :
    (bs.map column).Nodup := by
  induction h with
  | nil => exact List.nodup_nil
  | cons first rest ih =>
    obtain ⟨new, distinct⟩ := List.nodup_cons.mp distinct
    rw [List.map_cons, List.nodup_cons]
    refine ⟨fun again => ?_, ih distinct⟩
    obtain ⟨b, hb, same⟩ := List.mem_map.mp again
    obtain ⟨a, ha, related⟩ := forall₂_mem_right rest hb
    exact new (tells first related same.symm ▸ ha)

/-- The bytes of a signature say of what it is the signature, in any session: a type is told from
its bytes even where others follow, and so are a field's type, a method's signature and generic
arguments. So the rows of constructed types differ in their signatures.

Two bounds are those of the format: the types of the module are fewer than `Token.rowLimit`, as
beyond it two of them share a token, and rows are compared in images whose blobs have offsets of 32
bits. -/
theorem signatures_uniquely_decodable {target : Target} (made : target.symbols.Made)
    (fits : target.typeDefs.length < Token.rowLimit) {requests : List Request}
    (known : ∀ r ∈ requests, target.symbols.Answers r) {session : Session}
    (served : target.serveAll {} requests = session) :
    (∀ t u code code' rest rest', Signature.encodeTy target session t = .ok code →
      Signature.encodeTy target session u = .ok code' → code ++ rest = code' ++ rest' →
        t = u ∧ rest = rest') ∧
    (∀ t u code, Signature.encodeField target session t = .ok code →
      Signature.encodeField target session u = .ok code → t = u) ∧
    (∀ m n code, Signature.encodeMethod target session m = .ok code →
      Signature.encodeMethod target session n = .ok code → m = n) ∧
    (∀ ts us code, Signature.encodeMethodInstance target session ts = .ok code →
      Signature.encodeMethodInstance target session us = .ok code → ts = us) ∧
    (∀ t m code, Signature.encodeField target session t = .ok code →
      Signature.encodeMethod target session m ≠ .ok code) ∧
    ∀ image later, target.image session = .ok image later → image.blobs.length ≤ 0x100000000 →
      (image.typeSpecs.map (·.signature)).Nodup := by
  have tidy : session.Tidy target :=
    served ▸ Target.tidy_serveAll made.wellFormed known (Session.tidy_empty target)
  have distinct : Signature.Distinguishes target session :=
    fun _ _ _ hd he => Session.lookup_type_inj made fits tidy hd he
  refine ⟨fun t u code code' rest rest' ht hu => Signature.separates_ty distinct t u ht hu,
    fun t u code => (Signature.separates_field distinct t u).inj,
    fun m n code => (Signature.separates_method distinct m n).inj,
    fun ts us code => (Signature.separates_methodInstance distinct ts us).inj,
    fun t m code ht hm => Signature.encodeField_ne_encodeMethod ht hm rfl,
    fun image later built small => ?_⟩
  obtain ⟨heaps, -, sound, laid, -, blobs⟩ := Target.laid_of_image tidy built
  refine nodup_of_forall₂ laid.typeSpecs (tidy.filed.nodup_rows _) ?_
  intro key key' row row' described described' same
  cases key with
  | type t =>
    cases key' with
    | type u =>
      obtain ⟨code, encoded, stored⟩ := described
      obtain ⟨code', encoded', stored'⟩ := described'
      have read := TablesImage.blob?_of_stores sound blobs small stored
      rw [same, TablesImage.blob?_of_stores sound blobs small stored'] at read
      cases read
      exact congrArg RefKey.type ((Signature.separates_ty distinct t u).inj encoded encoded')
    | _ => cases described'
  | _ => cases described

theorem encodeTy_catalog : ∃ code, Signature.encodeTy Target.catalog
    (Target.catalog.serveAll {} Target.catalogRequests)
    (.inst ⟨1⟩ [.vector (.named ⟨3⟩), .array .int32 2]) = .ok code := by
  have ok : (Signature.encodeTy Target.catalog
      (Target.catalog.serveAll {} Target.catalogRequests)
      (.inst ⟨1⟩ [.vector (.named ⟨3⟩), .array .int32 2]) matches .ok _) = true := by
    decide +kernel
  cases h : Signature.encodeTy Target.catalog
      (Target.catalog.serveAll {} Target.catalogRequests)
      (.inst ⟨1⟩ [.vector (.named ⟨3⟩), .array .int32 2]) with
  | ok code => exact ⟨code, rfl⟩
  | error fault => simp [h] at ok

/-- No other type of the catalog is written like a list of entries and matrices, even with
something behind it. -/
theorem signatures_uniquely_decodable_catalog : ∃ code,
    Signature.encodeTy Target.catalog (Target.catalog.serveAll {} Target.catalogRequests)
        (.inst ⟨1⟩ [.vector (.named ⟨3⟩), .array .int32 2]) = .ok code ∧
      (∀ u code' rest, Signature.encodeTy Target.catalog
          (Target.catalog.serveAll {} Target.catalogRequests) u = .ok code' →
        code = code' ++ rest → u = .inst ⟨1⟩ [.vector (.named ⟨3⟩), .array .int32 2] ∧ rest = []) ∧
      ∃ image later, Target.catalog.image (Target.catalog.serveAll {} Target.catalogRequests) =
          .ok image later ∧
        (image.blobs.length ≤ 0x100000000 → (image.typeSpecs.map (·.signature)).Nodup) := by
  obtain ⟨code, encoded⟩ := encodeTy_catalog
  obtain ⟨image, later, built⟩ := Target.image_catalog
  obtain ⟨types, -, -, -, -, rows⟩ := signatures_uniquely_decodable Target.made_catalog
    Target.fits_catalog.types Target.answers_catalog rfl
  refine ⟨code, encoded, fun u code' rest encoded' same => ?_, image, later, built,
    rows image later built⟩
  obtain ⟨kind, behind⟩ := types _ _ _ _ [] rest encoded encoded' (by rwa [List.append_nil])
  exact ⟨kind.symm, behind.symm⟩

end ManagedCode
