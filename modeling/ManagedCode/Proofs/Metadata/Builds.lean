import ManagedCode.Proofs.Metadata.Encodes
import ManagedCode.Proofs.Metadata.ReferenceScope
import ManagedCode.Proofs.Metadata.ReservedSet

namespace ManagedCode

namespace Layout

theorem addBlob_eq (blob : List UInt8) (draft : Draft) :
    addBlob blob draft =
      match draft.blobs.add blob with
      | .ok (offset, blobs) => .ok (.ofNat offset) { draft with blobs }
      | .error fault => .error fault draft := by
  unfold addBlob
  rw [get_bind]
  cases draft.blobs.add blob <;> rfl

theorem arrayMethod_eq (kind : ArrayMethodKind) (arrayTy : Ty) (draft : Draft) :
    arrayMethod kind arrayTy draft =
      match draft.arrayMethods.get kind arrayTy with
      | .ok (method, arrayMethods) => .ok method { draft with arrayMethods }
      | .error misuse => .error (.misuse misuse) draft := by
  unfold arrayMethod
  rw [get_bind]
  cases draft.arrayMethods.get kind arrayTy <;> rfl

end Layout

/-- A step of laying out an image only fails on a number that is too large. -/
def Layout.Writes {α : Type} (step : Layout α) (post : α → Prop := fun _ => True) : Prop :=
  ∀ draft : Draft, draft.arrayMethods.Cached →
    match step draft with
    | .ok a later => later.arrayMethods.Cached ∧ post a
    | .error fault _ => fault.IsOverflow

namespace Layout.Writes

variable {α β : Type} {post : α → Prop} {post' : β → Prop}

theorem pure (a : α) : Writes (Pure.pure a : Layout α) := fun _ h => ⟨h, trivial⟩

theorem bind {step : Layout α} {next : α → Layout β} (h : Writes step post)
    (h' : ∀ a, post a → Writes (next a) post') : Writes (step >>= next) post' := by
  intro draft cached
  have first := h draft cached
  change match EStateM.bind step next draft with | .ok a later => _ | .error fault _ => _
  unfold EStateM.bind
  cases hs : step draft with
  | ok a later =>
    rw [hs] at first
    exact h' a first.2 later first.1
  | error fault later =>
    rw [hs] at first
    exact first

theorem bindAny {step : Layout α} {next : α → Layout β} (h : Writes step)
    (h' : ∀ a, Writes (next a) post') : Writes (step >>= next) post' :=
  bind h fun a _ => h' a

theorem mapM {f : α → Layout β} {l : List α} (h : ∀ a ∈ l, Writes (f a)) : Writes (l.mapM f) := by
  induction l with
  | nil => exact pure []
  | cons a l ih =>
    rw [List.mapM_cons]
    refine bindAny (h a List.mem_cons_self) fun b => ?_
    exact bindAny (ih fun c hc => h c (List.mem_cons_of_mem a hc)) fun bs => pure (b :: bs)

theorem ofExcept {result : Except Fault α} (h : Encodes result) :
    Writes (MonadExcept.ofExcept result : Layout α) := by
  intro draft cached
  cases result with
  | ok a => exact ⟨cached, trivial⟩
  | error fault => exact h fault rfl

theorem addString (name : String) : Writes (Layout.addString name) :=
  fun _ cached => ⟨cached, trivial⟩

theorem addBlob (blob : List UInt8) : Writes (Layout.addBlob blob) := by
  intro draft cached
  have encodes : Encodes (draft.blobs.add blob) := by
    unfold BlobHeap.add
    split
    next => exact .pure _
    next =>
      split
      next => exact .pure _
      next => exact .bind (.compressed _) fun _ => .pure _
  rw [addBlob_eq]
  cases added : draft.blobs.add blob with
  | ok result => exact ⟨cached, trivial⟩
  | error fault => exact encodes fault added

theorem arrayMethod {kind : ArrayMethodKind} {arrayTy : Ty} {method : ArrayMethod}
    (built : ArrayMethod.build kind arrayTy = .ok method) :
    Writes (Layout.arrayMethod kind arrayTy) (· = method) := by
  intro draft cached
  obtain ⟨later, got, cached'⟩ := ArrayMethodCache.get_of_build cached built
  rw [arrayMethod_eq, got]
  exact ⟨cached', rfl⟩

theorem token {target : Target} {session : Session} {key : RefKey}
    (h : session.Finds target key) : Writes (Layout.token target session key) := by
  obtain ⟨token, found⟩ := Option.isSome_iff_exists.mp h
  refine bindAny (ofExcept ?_) fun _ => pure _
  rw [Session.lookup, found]
  exact .pure token

end Layout.Writes

/-- What holds of a session in which the definitions of the module were visited. -/
structure Session.Indexed (session : Session) (target : Target) : Prop where
  symbols : target.symbols.WellFormed
  filed : session.tokens.Filed
  cached : session.arrayMethods.Cached
  parts : ∀ {key}, session.Reserved key →
    ∀ part ∈ target.parts key, target.IsOwn part ∨ session.Reserved part
  scope : ∀ {key}, session.Reserved key → target.symbols.KeyInScope key
  definitions : ∀ {d}, d ∈ target.typeDefs → ∀ key ∈ target.typeDefRefs d, session.Reserved key

namespace Session

variable {target : Target} {session : Session}

/-- What a reference is made from has its token, unless it is excused. -/
theorem Sound.part {excused : List RefKey} {pending : List Ty}
    (sound : session.Sound target excused pending) {key part : RefKey} (h : session.Reserved key)
    (hp : part ∈ target.parts key) : target.IsOwn part ∨ session.Held excused part := by
  obtain ⟨before, after, split⟩ := List.append_of_mem h
  refine (sound.ordered split part hp).imp_right fun earlier => earlier.imp_left fun earlier => ?_
  rw [Reserved, split]
  exact List.mem_append_left _ earlier

theorem Finds.of_definition {key : RefKey} (h : (target.definition? key).isSome) :
    session.Finds target key := by
  simp [Finds, lookup?, h]

theorem Finds.of_reserved {key : RefKey} (h : session.Reserved key) :
    session.Finds target key := by
  have := TokenTable.get?_isSome_iff.mpr h
  simp [Finds, lookup?, this]

variable (indexed : session.Indexed target)
include indexed

/-- The rows of references are made from what has a token. -/
theorem Indexed.finds_part {key part : RefKey} (h : session.Reserved key)
    (hp : part ∈ target.parts key) : session.Finds target part := by
  have scope := Target.inScope_parts indexed.symbols (indexed.scope h) hp
  rcases indexed.parts h part hp with own | reserved
  · exact .of_definition (Target.definition?_isSome indexed.symbols scope own)
  · exact .of_reserved reserved

theorem Indexed.finds_of_refs {key : RefKey} {refs : List RefKey}
    (h : target.IsOwn key ∨ key ∈ refs) (scope : target.symbols.KeyInScope key)
    (reserved : ∀ k ∈ refs, session.Reserved k) : session.Finds target key := by
  rcases h with own | hm
  · exact .of_definition (Target.definition?_isSome indexed.symbols scope own)
  · exact .of_reserved (reserved key hm)

theorem Indexed.finds_namedKeys {t : Ty} (scope : target.symbols.InScope t)
    (reserved : ∀ k ∈ target.embeddedRefs t, session.Reserved k) :
    ∀ k ∈ t.namedKeys, session.Finds target k := fun _ hk =>
  indexed.finds_of_refs (Target.own_or_mem_embeddedRefs hk) (Target.inScope_namedKeys scope hk)
    reserved

theorem Indexed.finds_signatureKeys {signature : MethodSignature}
    (scope : target.symbols.SignatureInScope signature)
    (reserved : ∀ k ∈ target.signatureRefs signature, session.Reserved k) :
    ∀ k ∈ signature.namedKeys, session.Finds target k := fun _ hk =>
  indexed.finds_of_refs (Target.own_or_mem_signatureRefs hk)
    (Target.inScope_signatureKeys scope hk) reserved

theorem Indexed.finds_base {d : TypeDefId} {base : Ty} (hd : d ∈ target.typeDefs)
    (hb : (target.symbols.typeDef d).base = some base) :
    session.Finds target (.type base) := by
  refine indexed.finds_of_refs (Target.own_or_mem_tokenRefs base) (indexed.symbols.base hb)
    fun k hk => indexed.definitions hd k ?_
  simp only [Target.typeDefRefs, hb, Option.elim, List.mem_append]
  exact .inl (.inl hk)

theorem Indexed.finds_encloser {d e : TypeDefId} (hd : d ∈ target.typeDefs)
    (he : target.symbols.encloser? d = some e) : session.Finds target (.type (.named e)) := by
  obtain ⟨rest, he⟩ := List.head?_eq_some_iff.mp he
  obtain ⟨inRange, -, hm⟩ := indexed.symbols.enclosing he
  have own : target.IsOwn (.type (.named e)) := by
    have := (Target.mem_typeDefs.mp hd).2
    simp only [Target.isLocal, Symbols.isDefinedIn, decide_eq_true_eq] at this
    simp only [Target.IsOwn, Target.isLocal, Symbols.isDefinedIn, decide_eq_true_eq, hm, this]
  refine .of_definition (Target.definition?_isSome indexed.symbols (fun e' he' => ?_) own)
  rw [List.mem_singleton.mp he']
  exact inRange

theorem Indexed.finds_fieldTy {d : TypeDefId} {f : FieldId} (hd : d ∈ target.typeDefs)
    (hf : f ∈ (target.symbols.typeDef d).fields) :
    ∀ k ∈ (target.symbols.field f).ty.namedKeys, session.Finds target k := by
  obtain ⟨-, -, scope⟩ := indexed.symbols.field (indexed.symbols.listedField hf).1
  refine indexed.finds_namedKeys scope fun k hk => indexed.definitions hd k ?_
  simp only [Target.typeDefRefs, List.mem_append]
  exact .inl (.inr (List.mem_flatMap.mpr ⟨f, hf, hk⟩))

theorem Indexed.finds_methodSignature {d : TypeDefId} {m : MethodId} (hd : d ∈ target.typeDefs)
    (hm : m ∈ (target.symbols.typeDef d).methods) :
    ∀ k ∈ (target.symbols.method m).signature.namedKeys, session.Finds target k := by
  have scope := indexed.symbols.signature (indexed.symbols.listedMethod hm).1
  refine indexed.finds_signatureKeys scope fun k hk => indexed.definitions hd k ?_
  simp only [Target.typeDefRefs, List.mem_append]
  exact .inr (List.mem_flatMap.mpr ⟨m, hm, hk⟩)

/-- The type of a field that is found is written with definitions that are found. -/
theorem Indexed.finds_openField {f : FieldId} (h : session.Finds target (.member (.field f))) :
    ∀ k ∈ (target.symbols.field f).ty.namedKeys, session.Finds target k := by
  by_cases own : f ∈ target.fields
  · obtain ⟨d, hd, hf⟩ := List.mem_flatMap.mp own
    exact indexed.finds_fieldTy hd hf
  · have none : target.definition? (.member (.field f)) = none := by
      simpa [Target.definition?, Target.fieldToken?] using own
    have held : session.Reserved (.member (.field f)) :=
      TokenTable.get?_isSome_iff.mp (by simpa [Finds, lookup?, none] using h)
    exact fun k hk => indexed.finds_part held (List.mem_cons_of_mem _ hk)

theorem Indexed.finds_openMethod {m : MethodId} (h : session.Finds target (.member (.method m))) :
    ∀ k ∈ (target.symbols.method m).signature.namedKeys, session.Finds target k := by
  by_cases own : m ∈ target.methods
  · obtain ⟨d, hd, hm⟩ := List.mem_flatMap.mp own
    exact indexed.finds_methodSignature hd hm
  · have none : target.definition? (.member (.method m)) = none := by
      simpa [Target.definition?, Target.methodToken?] using own
    have held : session.Reserved (.member (.method m)) :=
      TokenTable.get?_isSome_iff.mp (by simpa [Finds, lookup?, none] using h)
    exact fun k hk => indexed.finds_part held (List.mem_cons_of_mem _ hk)

end Session

namespace Layout.Writes

variable {target : Target} {session : Session}

theorem assemblyRefRow {key : RefKey} (filed : key.table = .assemblyRef) :
    Writes (Layout.assemblyRefRow target key) := by
  cases key with
  | assembly a => exact bindAny (addString _) fun _ => pure _
  | type t => cases t <;> cases filed
  | member m => cases m <;> cases filed
  | _ => cases filed

theorem moduleRefRow {key : RefKey} (filed : key.table = .moduleRef) :
    Writes (Layout.moduleRefRow target key) := by
  cases key with
  | module m => exact bindAny (addString _) fun _ => pure _
  | type t => cases t <;> cases filed
  | member m => cases m <;> cases filed
  | _ => cases filed

theorem fileRow {key : RefKey} (filed : key.table = .file) :
    Writes (Layout.fileRow target key) := by
  cases key with
  | file f => exact bindAny (addString _) fun _ => pure _
  | type t => cases t <;> cases filed
  | member m => cases m <;> cases filed
  | _ => cases filed

variable (indexed : session.Indexed target)
include indexed

theorem fieldRow {d : TypeDefId} {f : FieldId} (hd : d ∈ target.typeDefs)
    (hf : f ∈ (target.symbols.typeDef d).fields) : Writes (Layout.fieldRow target session f) := by
  refine bindAny (ofExcept ?_) fun signature => ?_
  · exact Signature.encodes_field indexed.filed (indexed.finds_fieldTy hd hf)
  · exact bindAny (addString _) fun _ => bindAny (addBlob signature) fun _ => pure _

theorem methodRow {d : TypeDefId} {m : MethodId} (hd : d ∈ target.typeDefs)
    (hm : m ∈ (target.symbols.typeDef d).methods) :
    Writes (Layout.methodRow target session m) := by
  refine bindAny (ofExcept ?_) fun signature => ?_
  · exact Signature.encodes_method indexed.filed (indexed.finds_methodSignature hd hm)
  · exact bindAny (addString _) fun _ => bindAny (addBlob signature) fun _ => pure _

theorem typeDefRow {d : TypeDefId} (hd : d ∈ target.typeDefs) (fieldList methodList : Nat) :
    Writes (Layout.typeDefRow target session d fieldList methodList) := by
  have base : Writes (optionalToken target session
      ((target.symbols.typeDef d).base.map .type)) := by
    cases hb : (target.symbols.typeDef d).base with
    | none => exact pure 0
    | some base => exact token (indexed.finds_base hd hb)
  have outer : Writes (optionalToken target session
      ((target.symbols.encloser? d).map fun e => .type (.named e))) := by
    cases he : target.symbols.encloser? d with
    | none => exact pure 0
    | some e => exact token (indexed.finds_encloser hd he)
  exact bindAny base fun _ => bindAny outer fun _ => bindAny (addString _) fun _ =>
    bindAny (addString _) fun _ => pure _

theorem definitions {ds : List TypeDefId} (sub : ∀ d ∈ ds, d ∈ target.typeDefs)
    (image : TablesImage) : Writes (Layout.definitions target session image ds) := by
  induction ds generalizing image with
  | nil => exact pure image
  | cons d ds ih =>
    have hd := sub d List.mem_cons_self
    refine bindAny (typeDefRow indexed hd _ _) fun row => ?_
    refine bindAny (mapM fun f hf => fieldRow indexed hd hf) fun fields => ?_
    refine bindAny (mapM fun m hm => methodRow indexed hd hm) fun methods => ?_
    exact ih (fun d' hd' => sub d' (List.mem_cons_of_mem d hd')) _

theorem typeRefRow {key : RefKey} (h : session.Reserved key) (filed : key.table = .typeRef) :
    Writes (Layout.typeRefRow target session key) := by
  cases key with
  | type t =>
    cases t with
    | named d =>
      have scope := indexed.finds_part h (List.mem_singleton.mpr rfl)
      exact bindAny (token scope) fun _ => bindAny (addString _) fun _ =>
        bindAny (addString _) fun _ => pure _
    | _ => cases filed
  | member m => cases m <;> cases filed
  | _ => cases filed

theorem typeSpecRow {key : RefKey} (h : session.Reserved key) (filed : key.table = .typeSpec) :
    Writes (Layout.typeSpecRow target session key) := by
  cases key with
  | type t =>
    have parts : target.parts (.type t) = t.namedKeys := by
      cases t with
      | named d => cases filed
      | _ => rfl
    have found : ∀ k ∈ t.namedKeys, session.Finds target k := fun k hk =>
      indexed.finds_part h (parts ▸ hk)
    exact bindAny (ofExcept (Signature.encodes_typed indexed.filed found)) fun signature =>
      bindAny (addBlob signature) fun _ => pure _
  | member m => cases m <;> cases filed
  | _ => cases filed

/-- A member is written with its container and the types it was defined with. -/
theorem memberRow (member : OpenMember) {container : Ty}
    (owner : session.Finds target (.type container))
    (h : session.Finds target (.member member.ref)) :
    Writes (Layout.memberRow target session member container) := by
  refine bindAny (ofExcept ?_) fun signature => ?_
  · cases member with
    | field f => exact Signature.encodes_field indexed.filed (indexed.finds_openField h)
    | method m => exact Signature.encodes_method indexed.filed (indexed.finds_openMethod h)
  · exact bindAny (token owner) fun _ => bindAny (addString _) fun _ =>
      bindAny (addBlob signature) fun _ => pure _

theorem memberRefRow {key : RefKey} (h : session.Reserved key)
    (filed : key.table = .memberRef) : Writes (Layout.memberRefRow target session key) := by
  cases key with
  | member m =>
    have found : ∀ part ∈ target.parts (.member m), session.Finds target part :=
      fun part hp => indexed.finds_part h hp
    cases m with
    | field f => exact memberRow indexed (.field f) (found _ List.mem_cons_self) (.of_reserved h)
    | method m => exact memberRow indexed (.method m) (found _ List.mem_cons_self) (.of_reserved h)
    | specializedField f container =>
      exact memberRow indexed (.field f) (found _ List.mem_cons_self)
        (found _ (List.mem_cons_of_mem _ List.mem_cons_self))
    | specializedMethod m container =>
      exact memberRow indexed (.method m) (found _ List.mem_cons_self)
        (found _ (List.mem_cons_of_mem _ List.mem_cons_self))
    | methodInstance m args => cases filed
  | arrayMethod kind arrayTy =>
    obtain ⟨-, method, built⟩ := indexed.scope h
    have parts : target.parts (.arrayMethod kind arrayTy) =
        .type arrayTy :: method.signature.namedKeys := by simp only [Target.parts, built]
    have found : ∀ part ∈ RefKey.type arrayTy :: method.signature.namedKeys,
        session.Finds target part := fun part hp => indexed.finds_part h (parts ▸ hp)
    refine bind (arrayMethod built) fun made same => ?_
    subst same
    have container : session.Finds target (.type made.arrayTy) := by
      rw [(ArrayMethod.build_eq_ok built).2]
      exact found _ List.mem_cons_self
    refine bindAny (ofExcept ?_) fun signature => ?_
    · exact Signature.encodes_method indexed.filed fun k hk =>
        found k (List.mem_cons_of_mem _ hk)
    · exact bindAny (token container) fun _ => bindAny (addString _) fun _ =>
        bindAny (addBlob signature) fun _ => pure _
  | type t => cases t <;> cases filed
  | _ => cases filed

theorem methodSpecRow {key : RefKey} (h : session.Reserved key)
    (filed : key.table = .methodSpec) : Writes (Layout.methodSpecRow target session key) := by
  cases key with
  | member m =>
    cases m with
    | methodInstance m args =>
      have found : ∀ part ∈ RefKey.member m :: args.flatMap Ty.namedKeys,
          session.Finds target part := fun part hp => indexed.finds_part h hp
      refine bindAny (ofExcept (Signature.encodes_methodInstance indexed.filed
        fun k hk => found k (List.mem_cons_of_mem _ hk))) fun instantiation => ?_
      exact bindAny (token (found _ List.mem_cons_self)) fun _ =>
        bindAny (addBlob instantiation) fun _ => pure _
    | _ => cases filed
  | type t => cases t <;> cases filed
  | _ => cases filed

/-- A table only has references of its own kind. -/
theorem table {α : Type} {kind : TableKind} {row : RefKey → Layout α}
    (h : ∀ key, session.Reserved key → key.table = kind → Writes (row key)) :
    Writes (Layout.table session kind row) := by
  refine mapM fun key hk => ?_
  obtain ⟨held, own⟩ := indexed.filed.mem_rows.mp hk
  exact h key held own.symm

theorem image : Writes (Layout.image target session) := by
  refine bindAny (definitions indexed (fun _ => id) _) fun _ => ?_
  refine bindAny (table indexed fun key _ => assemblyRefRow) fun _ => ?_
  refine bindAny (table indexed fun key _ => moduleRefRow) fun _ => ?_
  refine bindAny (table indexed fun key _ => fileRow) fun _ => ?_
  refine bindAny (table indexed fun key => typeRefRow indexed) fun _ => ?_
  refine bindAny (table indexed fun key => typeSpecRow indexed) fun _ => ?_
  refine bindAny (table indexed fun key => memberRefRow indexed) fun _ => ?_
  refine bindAny (table indexed fun key => methodSpecRow indexed) fun _ => ?_
  exact fun draft cached => ⟨cached, trivial⟩

end Layout.Writes

theorem Target.image_eq (target : Target) (session : Session) :
    target.image session =
      match Layout.image target session { arrayMethods := session.arrayMethods } with
      | .ok image draft => .ok image { session with arrayMethods := draft.arrayMethods }
      | .error fault draft => .error fault { session with arrayMethods := draft.arrayMethods } := by
  unfold Target.image
  rw [get_bind]
  have run : (Layout.image target session).run { arrayMethods := session.arrayMethods } =
      Layout.image target session { arrayMethods := session.arrayMethods } := rfl
  rw [run]
  cases Layout.image target session { arrayMethods := session.arrayMethods } <;> rfl

/-- The image of a session in which the definitions were visited fails only on a number that is
too large to be written. -/
theorem Session.Indexed.image {target : Target} {session later : Session} {fault : Fault}
    (indexed : session.Indexed target) (h : target.image session = .error fault later) :
    fault.IsOverflow := by
  have writes := Layout.Writes.image indexed { arrayMethods := session.arrayMethods }
    indexed.cached
  rw [Target.image_eq] at h
  cases hi : Layout.image target session { arrayMethods := session.arrayMethods } with
  | ok image draft => rw [hi] at h; cases h
  | error fault' draft =>
    rw [hi] at h writes
    cases h
    exact writes

namespace Target

variable {target : Target} {visits : List Visit} {session : Session}

theorem inScope_visitAll (wf : target.symbols.WellFormed)
    (scope : ∀ v ∈ visits, target.symbols.VisitInScope v)
    (h : target.visitAll visits {} = .ok () session) {key : RefKey} (hk : session.Reserved key) :
    target.symbols.KeyInScope key := by
  obtain ⟨v, hv, hm⟩ := ((reserved_visitAll wf h).2 key).mp hk
  exact inScope_visitRefs wf (scope v hv) hm

theorem indexed_visitAll (wf : target.symbols.WellFormed)
    (scope : ∀ v ∈ visits, target.symbols.VisitInScope v)
    (h : target.visitAll visits {} = .ok () session) (definitions : .definitions ∈ visits) :
    session.Indexed target := by
  obtain ⟨sound, reserved⟩ := reserved_visitAll wf h
  refine ⟨wf, sound.filed, sound.cached, fun held part hp => ?_, inScope_visitAll wf scope h,
    fun hd key hk => ?_⟩
  · simpa using sound.part held hp
  exact (reserved key).mpr ⟨.definitions, definitions, List.mem_flatMap.mpr ⟨_, hd, hk⟩⟩

/-- What a reference is made from is a definition of the module itself or got its token before. -/
theorem ordered_visitAll (wf : target.symbols.WellFormed)
    (scope : ∀ v ∈ visits, target.symbols.VisitInScope v)
    (h : target.visitAll visits {} = .ok () session) {before after : List RefKey} {key : RefKey}
    (split : session.tokens.keys = before ++ key :: after) {part : RefKey}
    (hp : part ∈ target.parts key) :
    (target.definition? part).isSome ∨ part ∈ before := by
  obtain ⟨sound, -⟩ := reserved_visitAll wf h
  have held : session.Reserved key := by simp [Session.Reserved, split]
  have inScope := inScope_parts wf (inScope_visitAll wf scope h held) hp
  simpa using (sound.ordered split part hp).imp_left (definition?_isSome wf inScope)

end Target

end ManagedCode
