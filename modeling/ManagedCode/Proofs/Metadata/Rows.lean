import ManagedCode.Proofs.Lists
import ManagedCode.Proofs.Metadata.Builds
import ManagedCode.Proofs.Metadata.Heaps

namespace ManagedCode

namespace Draft

/-- Whatever has an offset lies there. -/
structure Sound (heaps : Draft) : Prop where
  strings : heaps.strings.Sound
  blobs : heaps.blobs.Sound
  cached : heaps.arrayMethods.Cached

/-- What has an offset keeps it. -/
structure Extends (heaps later : Draft) : Prop where
  strings : heaps.strings.Extends later.strings
  blobs : heaps.blobs.Extends later.blobs

theorem Extends.refl (heaps : Draft) : heaps.Extends heaps := ⟨.refl _, .refl _⟩

theorem Extends.trans {heaps later last : Draft} (h : heaps.Extends later)
    (h' : later.Extends last) : heaps.Extends last :=
  ⟨h.strings.trans h'.strings, h.blobs.trans h'.blobs⟩

/-- A column holds the offset given to a name. -/
def Names (heaps : Draft) (name : String) (column : UInt32) : Prop :=
  ∃ n, heaps.strings.Gives name n ∧ column = .ofNat n

/-- A column holds the offset given to a blob. -/
def Stores (heaps : Draft) (blob : List UInt8) (column : UInt32) : Prop :=
  ∃ n, heaps.blobs.Gives blob n ∧ column = .ofNat n

/-- A column holds the offset of what was encoded. -/
def Signs (heaps : Draft) (encoded : Except Fault (List UInt8)) (column : UInt32) : Prop :=
  ∃ blob, encoded = .ok blob ∧ heaps.Stores blob column

end Draft

/-- A column holds the token of a definition or reference. -/
def Session.Refers (session : Session) (target : Target) (key : RefKey) (column : UInt32) : Prop :=
  session.lookup target key = .ok ⟨column⟩

/-- A column holds the token of something, or zero if there is nothing. -/
def Session.RefersIfAny (session : Session) (target : Target) (key? : Option RefKey)
    (column : UInt32) : Prop :=
  key?.elim (column = 0) fun key => session.Refers target key column

/-! What the rows of the tables say. -/

namespace Target

variable (target : Target) (session : Session) (heaps : Draft)

def DescribesAssembly : RefKey → AssemblyRefRow → Prop
  | .assembly a, row => heaps.Names (target.symbols.assembly a).name row.name ∧
    row.version = (target.symbols.assembly a).version
  | _, _ => False

def DescribesModule : RefKey → ModuleRefRow → Prop
  | .module m, row => heaps.Names (target.symbols.module m).name row.name
  | _, _ => False

def DescribesFile : RefKey → FileRow → Prop
  | .file f, row => heaps.Names (target.symbols.file f).name row.name ∧
    row.containsMetadata = (target.symbols.file f).containsMetadata
  | _, _ => False

def DescribesTypeRef : RefKey → TypeRefRow → Prop
  | .type (.named d), row => session.Refers target (Layout.resolutionScope target d) row.scope ∧
    heaps.Names (target.symbols.typeDef d).name row.name ∧
    heaps.Names (target.symbols.typeDef d).nameSpaceText row.nameSpace
  | _, _ => False

def DescribesTypeSpec : RefKey → TypeSpecRow → Prop
  | .type t, row => heaps.Signs (Signature.encodeTy target session t) row.signature
  | _, _ => False

/-- The signature by which a member is written: as it is defined, whatever it is seen through. -/
def encodeOpen : OpenMember → Except Fault (List UInt8)
  | .field f => Signature.encodeField target session (target.symbols.field f).ty
  | .method m => Signature.encodeMethod target session (target.symbols.method m).signature

def DescribesMember (member : OpenMember) (container : Ty) (row : MemberRefRow) : Prop :=
  session.Refers target (.type container) row.parent ∧
    heaps.Names (target.symbols.openName member) row.name ∧
    heaps.Signs (encodeOpen target session member) row.signature

def DescribesMemberRef : RefKey → MemberRefRow → Prop
  | .member (.field f), row => DescribesMember target session heaps (.field f)
    (.named (target.symbols.field f).owner) row
  | .member (.method m), row => DescribesMember target session heaps (.method m)
    (.named (target.symbols.method m).owner) row
  | .member (.specializedField f container), row =>
    DescribesMember target session heaps (.field f) container row
  | .member (.specializedMethod m container), row =>
    DescribesMember target session heaps (.method m) container row
  | .arrayMethod kind arrayTy, row => ∃ method, ArrayMethod.build kind arrayTy = .ok method ∧
    session.Refers target (.type arrayTy) row.parent ∧ heaps.Names kind.name row.name ∧
    heaps.Signs (Signature.encodeMethod target session method.signature) row.signature
  | _, _ => False

def DescribesMethodSpec : RefKey → MethodSpecRow → Prop
  | .member (.methodInstance method args), row =>
    session.Refers target (.member method) row.method ∧
      heaps.Signs (Signature.encodeMethodInstance target session args) row.instantiation
  | _, _ => False

def DescribesTypeDef (d : TypeDefId) (row : TypeDefRow) : Prop :=
  heaps.Names (target.symbols.typeDef d).name row.name ∧
    heaps.Names (target.symbols.typeDef d).nameSpaceText row.nameSpace ∧
    session.RefersIfAny target ((target.symbols.typeDef d).base.map .type) row.extends_ ∧
    session.RefersIfAny target ((target.symbols.encloser? d).map fun e => .type (.named e))
      row.enclosing

def DescribesMemberDef (member : OpenMember) (row : MemberDefRow) : Prop :=
  heaps.Names (target.symbols.openName member) row.name ∧
    heaps.Signs (encodeOpen target session member) row.signature

end Target

/-- A step of laying out an image only adds to the heaps, and what it gives back is as `post` says
in every heap that extends what it leaves. -/
def Layout.Yields {α : Type} (step : Layout α) (post : Draft → α → Prop) : Prop :=
  ∀ draft later a, draft.Sound → step draft = .ok a later →
    later.Sound ∧ draft.Extends later ∧ ∀ final, later.Extends final → post final a

namespace Layout.Yields

variable {α β : Type} {post post' : Draft → α → Prop} {step : Layout α}

theorem pure {a : α} (h : ∀ final, post final a) : Yields (Pure.pure a) post := by
  intro draft later b sound same
  cases same
  exact ⟨sound, .refl _, fun final _ => h final⟩

theorem returns (a : α) : Yields (Pure.pure a) fun _ b => b = a := pure fun _ => rfl

theorem fails (fault : Fault) : Yields (throw fault : Layout α) post := nofun

theorem mono (h : Yields step post) (imp : ∀ final a, post final a → post' final a) :
    Yields step post' := fun draft later a sound same =>
  have ⟨sound', grows, holds⟩ := h draft later a sound same
  ⟨sound', grows, fun final more => imp final a (holds final more)⟩

theorem bind {next : α → Layout β} {after : α → Draft → β → Prop} (h : Yields step post)
    (h' : ∀ a, Yields (next a) (after a)) :
    Yields (step >>= next) fun final b => ∃ a, post final a ∧ after a final b := by
  intro draft later b sound same
  obtain ⟨a, middle, first, second⟩ := bind_eq_ok.mp same
  obtain ⟨sound', grows, holds⟩ := h draft middle a sound first
  obtain ⟨sound'', grows', holds'⟩ := h' a middle later b sound' second
  exact ⟨sound'', grows.trans grows', fun final more =>
    ⟨a, holds final (grows'.trans more), holds' final more⟩⟩

/-- What follows may rely on how a step that leaves the heaps alone ended. -/
theorem bindExcept {result : Except Fault α} {next : α → Layout β} {after : Draft → β → Prop}
    (h : ∀ a, result = .ok a → Yields (next a) after) :
    Yields ((MonadExcept.ofExcept result : Layout α) >>= next) after := by
  cases result with
  | ok a => exact h a rfl
  | error fault => exact nofun

theorem mapM {f : α → Layout β} {post : Draft → α → β → Prop}
    (h : ∀ a, Yields (f a) fun final => post final a) (l : List α) :
    Yields (l.mapM f) fun final out => List.Forall₂ (post final) l out := by
  induction l with
  | nil => exact pure fun _ => .nil
  | cons a l ih =>
    rw [List.mapM_cons]
    refine ((h a).bind fun b => ih.bind fun bs =>
      returns _).mono ?_
    rintro final out ⟨b, first, bs, rest, rfl⟩
    exact .cons first rest

theorem addString (name : String) : Yields (Layout.addString name) fun final column =>
    final.Names name column := by
  intro draft later column sound same
  cases same
  obtain ⟨sound', grows, given⟩ := sound.strings.add name
  exact ⟨⟨sound', sound.blobs, sound.cached⟩, ⟨grows, .refl _⟩,
    fun final more => ⟨_, more.strings.gives given, rfl⟩⟩

theorem addBlob (blob : List UInt8) : Yields (Layout.addBlob blob) fun final column =>
    final.Stores blob column := by
  intro draft later column sound same
  rw [addBlob_eq] at same
  split at same
  next offset blobs added =>
    cases same
    obtain ⟨sound', grows, given⟩ := sound.blobs.add added
    exact ⟨⟨sound.strings, sound', sound.cached⟩, ⟨.refl _, grows⟩,
      fun final more => ⟨_, more.blobs.gives given, rfl⟩⟩
  next => cases same

theorem arrayMethod (kind : ArrayMethodKind) (arrayTy : Ty) :
    Yields (Layout.arrayMethod kind arrayTy) fun _ method =>
      ArrayMethod.build kind arrayTy = .ok method := by
  intro draft later method sound same
  rw [arrayMethod_eq] at same
  split at same
  next made methods got =>
    cases same
    obtain ⟨built, cached⟩ := ArrayMethodCache.get_eq_ok sound.cached got
    exact ⟨⟨sound.strings, sound.blobs, cached⟩, ⟨.refl _, .refl _⟩, fun _ _ => built⟩
  next => cases same

variable {target : Target} {session : Session}

theorem token (key : RefKey) : Yields (Layout.token target session key) fun _ column =>
    session.Refers target key column :=
  bindExcept fun _ found => pure fun _ => found

theorem optionalToken (key? : Option RefKey) :
    Yields (Layout.optionalToken target session key?) fun _ column =>
      session.RefersIfAny target key? column := by
  cases key? with
  | none => exact pure fun _ => rfl
  | some key => exact token key

theorem fieldRow (f : FieldId) : Yields (Layout.fieldRow target session f) fun final row =>
    target.DescribesMemberDef session final (.field f) row := by
  refine bindExcept fun signature encoded => ?_
  refine ((addString _).bind fun name => (addBlob signature).bind fun blob =>
    returns _).mono ?_
  rintro final _ ⟨name, named, blob, stored, rfl⟩
  exact ⟨named, signature, encoded, stored⟩

theorem methodRow (m : MethodId) : Yields (Layout.methodRow target session m) fun final row =>
    target.DescribesMemberDef session final (.method m) row := by
  refine bindExcept fun signature encoded => ?_
  refine ((addString _).bind fun name => (addBlob signature).bind fun blob =>
    returns _).mono ?_
  rintro final _ ⟨name, named, blob, stored, rfl⟩
  exact ⟨named, signature, encoded, stored⟩

theorem typeDefRow (d : TypeDefId) (fieldList methodList : Nat) :
    Yields (Layout.typeDefRow target session d fieldList methodList) fun final row =>
      target.DescribesTypeDef session final d row ∧ row.fieldList = .ofNat fieldList ∧
        row.methodList = .ofNat methodList := by
  refine ((optionalToken _).bind fun base => (optionalToken _).bind fun outer =>
    (addString _).bind fun name => (addString _).bind fun space =>
      returns _).mono ?_
  rintro final _ ⟨base, extends_, outer, encloses, name, named, space, spaced, rfl⟩
  exact ⟨⟨named, spaced, extends_, encloses⟩, rfl, rfl⟩

theorem assemblyRefRow (key : RefKey) : Yields (Layout.assemblyRefRow target key)
    fun final row => target.DescribesAssembly final key row := by
  cases key with
  | assembly a =>
    refine ((addString _).bind fun name =>
      returns _).mono ?_
    rintro final _ ⟨name, named, rfl⟩
    exact ⟨named, rfl⟩
  | _ => exact fails _

theorem moduleRefRow (key : RefKey) : Yields (Layout.moduleRefRow target key)
    fun final row => target.DescribesModule final key row := by
  cases key with
  | module m =>
    refine ((addString _).bind fun name =>
      returns _).mono ?_
    rintro final _ ⟨name, named, rfl⟩
    exact named
  | _ => exact fails _

theorem fileRow (key : RefKey) : Yields (Layout.fileRow target key)
    fun final row => target.DescribesFile final key row := by
  cases key with
  | file f =>
    refine ((addString _).bind fun name =>
      returns _).mono ?_
    rintro final _ ⟨name, named, rfl⟩
    exact ⟨named, rfl⟩
  | _ => exact fails _

theorem typeRefRow (key : RefKey) : Yields (Layout.typeRefRow target session key)
    fun final row => target.DescribesTypeRef session final key row := by
  cases key with
  | type t =>
    cases t with
    | named d =>
      refine ((token _).bind fun scope => (addString _).bind fun name =>
        (addString _).bind fun space =>
          returns _).mono ?_
      rintro final _ ⟨scope, referred, name, named, space, spaced, rfl⟩
      exact ⟨referred, named, spaced⟩
    | _ => exact fails _
  | _ => exact fails _

theorem typeSpecRow (key : RefKey) : Yields (Layout.typeSpecRow target session key)
    fun final row => target.DescribesTypeSpec session final key row := by
  cases key with
  | type t =>
    refine bindExcept fun signature encoded => ((addBlob signature).bind fun blob =>
      returns _).mono ?_
    rintro final _ ⟨blob, stored, rfl⟩
    exact ⟨signature, encoded, stored⟩
  | _ => exact fails _

theorem memberRow (member : OpenMember) (container : Ty) :
    Yields (Layout.memberRow target session member container) fun final row =>
      target.DescribesMember session final member container row := by
  refine bindExcept fun signature encoded => ?_
  refine ((token _).bind fun parent => (addString _).bind fun name =>
    (addBlob signature).bind fun blob =>
      returns _).mono ?_
  rintro final _ ⟨parent, referred, name, named, blob, stored, rfl⟩
  refine ⟨referred, named, signature, ?_, stored⟩
  cases member <;> exact encoded

theorem memberRefRow (key : RefKey) : Yields (Layout.memberRefRow target session key)
    fun final row => target.DescribesMemberRef session final key row := by
  cases key with
  | member m =>
    cases m with
    | field f => exact memberRow (.field f) _
    | method m => exact memberRow (.method m) _
    | specializedField f container => exact memberRow (.field f) container
    | specializedMethod m container => exact memberRow (.method m) container
    | methodInstance => exact fails _
  | arrayMethod kind arrayTy =>
    refine ((arrayMethod kind arrayTy).bind (fun method => ?_ : ∀ method, Yields _ fun final row =>
      ArrayMethod.build kind arrayTy = .ok method →
        target.DescribesMemberRef session final (.arrayMethod kind arrayTy) row)).mono ?_
    · refine bindExcept fun signature encoded => ((token _).bind fun parent => (addString _).bind
        fun name => (addBlob signature).bind fun blob => returns _).mono ?_
      rintro final _ ⟨parent, referred, name, named, blob, stored, rfl⟩ built
      rw [(ArrayMethod.build_eq_ok built).2] at referred
      exact ⟨method, built, referred, named, signature, encoded, stored⟩
    · rintro final row ⟨method, built, described⟩
      exact described built
  | _ => exact fails _

theorem methodSpecRow (key : RefKey) : Yields (Layout.methodSpecRow target session key)
    fun final row => target.DescribesMethodSpec session final key row := by
  cases key with
  | member m =>
    cases m with
    | methodInstance method args =>
      refine bindExcept fun signature encoded => ((token _).bind fun generic =>
        (addBlob signature).bind fun blob =>
          returns _).mono ?_
      rintro final _ ⟨generic, referred, blob, stored, rfl⟩
      exact ⟨referred, signature, encoded, stored⟩
    | _ => exact fails _
  | _ => exact fails _

end Layout.Yields

/-- What an image says about the definitions `ds`, with so many rows of fields and methods before
theirs. -/
structure Layout.Defines (target : Target) (session : Session) (heaps : Draft)
    (fieldCount methodCount : Nat) (ds : List TypeDefId) (typeRows : List TypeDefRow)
    (fieldRows methodRows : List MemberDefRow) : Prop where
  types : List.Forall₂ (target.DescribesTypeDef session heaps) ds typeRows
  fields : List.Forall₂ (fun f => target.DescribesMemberDef session heaps (.field f))
    (ds.flatMap fun d => (target.symbols.typeDef d).fields) fieldRows
  methods : List.Forall₂ (fun m => target.DescribesMemberDef session heaps (.method m))
    (ds.flatMap fun d => (target.symbols.typeDef d).methods) methodRows
  /-- The members of a type begin behind those of the types before it. -/
  lists : ∀ {i : Nat} {row : TypeDefRow}, typeRows[i]? = some row →
    row.fieldList = .ofNat (fieldCount +
      ((ds.take i).flatMap fun d => (target.symbols.typeDef d).fields).length + 1) ∧
    row.methodList = .ofNat (methodCount +
      ((ds.take i).flatMap fun d => (target.symbols.typeDef d).methods).length + 1)

theorem Layout.Yields.definitions {target : Target} {session : Session} (before : TablesImage)
    (ds : List TypeDefId) :
    Yields (Layout.definitions target session before ds) fun final image =>
      ∃ types fields methods, image.typeDefs = before.typeDefs ++ types ∧
        image.fields = before.fields ++ fields ∧ image.methods = before.methods ++ methods ∧
        Defines target session final before.fields.length before.methods.length ds types fields
          methods := by
  induction ds generalizing before with
  | nil =>
    refine pure fun _ => ⟨[], [], [], ?_, ?_, ?_, .nil, .nil, .nil, nofun⟩ <;> simp
  | cons d ds ih =>
    unfold Layout.definitions
    refine ((typeDefRow d _ _).bind fun row => (mapM fieldRow _).bind fun fields =>
      (mapM methodRow _).bind fun methods => ih _).mono ?_
    rintro final image ⟨row, ⟨described, fieldList, methodList⟩, fields, hf, methods, hm,
      types', fields', methods', ht', hf', hm', rest⟩
    refine ⟨row :: types', fields ++ fields', methods ++ methods', ?_, ?_, ?_, ?_⟩
    · rw [ht', List.append_assoc]
      rfl
    · rw [hf', List.append_assoc]
    · rw [hm', List.append_assoc]
    refine ⟨.cons described rest.types, ?_, ?_, fun {i row'} at_ => ?_⟩
    · rw [List.flatMap_cons]
      exact List.rel_append hf rest.fields
    · rw [List.flatMap_cons]
      exact List.rel_append hm rest.methods
    · cases i with
      | zero =>
        cases at_
        exact ⟨fieldList, methodList⟩
      | succ i =>
        obtain ⟨first, second⟩ := rest.lists at_
        rw [first, second]
        simp only [List.length_append, List.take_succ_cons, List.flatMap_cons, hf.length_eq,
          hm.length_eq, Nat.add_assoc, and_self]

/-- What an image with these heaps says about everything that it was laid out from. -/
structure Layout.Laid (target : Target) (session : Session) (heaps : Draft) (image : TablesImage) :
    Prop where
  definitions : Defines target session heaps 0 0 target.typeDefs image.typeDefs image.fields
    image.methods
  assemblyRefs : List.Forall₂ (target.DescribesAssembly heaps)
    (session.tokens.rows .assemblyRef) image.assemblyRefs
  moduleRefs : List.Forall₂ (target.DescribesModule heaps)
    (session.tokens.rows .moduleRef) image.moduleRefs
  files : List.Forall₂ (target.DescribesFile heaps) (session.tokens.rows .file) image.files
  typeRefs : List.Forall₂ (target.DescribesTypeRef session heaps)
    (session.tokens.rows .typeRef) image.typeRefs
  typeSpecs : List.Forall₂ (target.DescribesTypeSpec session heaps)
    (session.tokens.rows .typeSpec) image.typeSpecs
  memberRefs : List.Forall₂ (target.DescribesMemberRef session heaps)
    (session.tokens.rows .memberRef) image.memberRefs
  methodSpecs : List.Forall₂ (target.DescribesMethodSpec session heaps)
    (session.tokens.rows .methodSpec) image.methodSpecs

theorem Layout.laid {target : Target} {session : Session} {draft heaps : Draft}
    {image : TablesImage} (sound : draft.Sound)
    (h : Layout.image target session draft = .ok image heaps) :
    heaps.Sound ∧ Laid target session heaps image ∧ image.strings = heaps.strings.bytes ∧
      image.blobs = heaps.blobs.bytes := by
  unfold Layout.image at h
  obtain ⟨defined, d₁, hd, h⟩ := bind_eq_ok.mp h
  obtain ⟨assemblies, d₂, ha, h⟩ := bind_eq_ok.mp h
  obtain ⟨modules, d₃, hm, h⟩ := bind_eq_ok.mp h
  obtain ⟨files, d₄, hf, h⟩ := bind_eq_ok.mp h
  obtain ⟨typeRefs, d₅, htr, h⟩ := bind_eq_ok.mp h
  obtain ⟨typeSpecs, d₆, hts, h⟩ := bind_eq_ok.mp h
  obtain ⟨memberRefs, d₇, hmr, h⟩ := bind_eq_ok.mp h
  obtain ⟨methodSpecs, d₈, hms, h⟩ := bind_eq_ok.mp h
  cases h
  obtain ⟨s₁, -, defines⟩ := Yields.definitions _ _ _ _ _ sound hd
  obtain ⟨s₂, g₂, da⟩ := Yields.mapM Yields.assemblyRefRow _ _ _ _ s₁ ha
  obtain ⟨s₃, g₃, dm⟩ := Yields.mapM Yields.moduleRefRow _ _ _ _ s₂ hm
  obtain ⟨s₄, g₄, df⟩ := Yields.mapM Yields.fileRow _ _ _ _ s₃ hf
  obtain ⟨s₅, g₅, dtr⟩ := Yields.mapM Yields.typeRefRow _ _ _ _ s₄ htr
  obtain ⟨s₆, g₆, dts⟩ := Yields.mapM Yields.typeSpecRow _ _ _ _ s₅ hts
  obtain ⟨s₇, g₇, dmr⟩ := Yields.mapM Yields.memberRefRow _ _ _ _ s₆ hmr
  obtain ⟨s₈, g₈, dms⟩ := Yields.mapM Yields.methodSpecRow _ _ _ _ s₇ hms
  have to₇ := g₈
  have to₆ := g₇.trans to₇
  have to₅ := g₆.trans to₆
  have to₄ := g₅.trans to₅
  have to₃ := g₄.trans to₄
  have to₂ := g₃.trans to₃
  obtain ⟨types, fields, methods, ht, hf', hm', whole⟩ := defines _ (g₂.trans to₂)
  refine ⟨s₈, ⟨?_, da _ to₂, dm _ to₃, df _ to₄, dtr _ to₅, dts _ to₆, dmr _ to₇,
    dms _ (.refl _)⟩, rfl, rfl⟩
  rw [List.nil_append] at ht hf' hm'
  exact ht ▸ hf' ▸ hm' ▸ whole

end ManagedCode
