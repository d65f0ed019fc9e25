import ManagedCode.Proofs.Metadata.Builds
import ManagedCode.Proofs.Metadata.FailedVisits

namespace ManagedCode

/-! What else is reserved along with a reference. -/

/-- Members, methods of arrays and types other than definitions. -/
def RefKey.IsCompound : RefKey → Prop
  | .type t => t.isConstructed = true
  | .member _ | .arrayMethod _ _ => True
  | _ => False

/-- A member and what it is built from, other than definitions of types. -/
def MemberRef.basis : MemberRef → List RefKey
  | .field f => [.member (.field f)]
  | .method m => [.member (.method m)]
  | .specializedField f container =>
    [.member (.specializedField f container), .type container, .member (.field f)]
  | .specializedMethod m container =>
    [.member (.specializedMethod m container), .type container, .member (.method m)]
  | .methodInstance m args => .member (.methodInstance m args) :: m.basis

/-- A reference and what it is built from, other than definitions of types. -/
def RefKey.basis : RefKey → List RefKey
  | .assembly a => [.assembly a]
  | .module m => [.module m]
  | .file f => [.file f]
  | .type t => [.type t]
  | .member m => m.basis
  | .arrayMethod kind arrayTy => [.arrayMethod kind arrayTy, .type arrayTy]

namespace Target

variable {target : Target} {key : RefKey}

theorem not_isOwn_of_compound {t : Ty} (compound : (RefKey.type t).IsCompound) :
    ¬target.IsOwn (.type t) := by
  cases t with
  | named d => cases compound
  | _ => exact id

theorem not_mem_moduleRefs (compound : key.IsCompound) (m : ModuleId) :
    key ∉ target.moduleRefs m := by
  intro h
  unfold moduleRefs assemblyRefs at h
  dsimp only at h
  split at h
  next => cases h
  next =>
    split at h
    next =>
      rcases List.mem_cons.mp h with rfl | h
      · exact compound
      · cases List.mem_singleton.mp h
        exact compound
    next =>
      cases List.mem_singleton.mp h
      exact compound

theorem not_mem_namedRefs (compound : key.IsCompound) (d : TypeDefId) :
    key ∉ target.namedRefs d := by
  have nested : ∀ enclosing d, key ∉ target.nestedRefs d enclosing := by
    intro enclosing
    induction enclosing with
    | nil =>
      intro d h
      unfold nestedRefs at h
      split at h
      next => cases h
      next =>
        rcases List.mem_append.mp h with h | h
        · exact not_mem_moduleRefs compound _ h
        · cases List.mem_singleton.mp h
          cases compound
    | cons outer rest ih =>
      intro d h
      unfold nestedRefs at h
      split at h
      next => cases h
      next =>
        rcases List.mem_append.mp h with h | h
        · exact ih outer h
        · cases List.mem_singleton.mp h
          cases compound
  exact nested _ d

/-- The types in a signature need tokens only for the definitions that they name. -/
theorem not_mem_embeddedRefs (compound : key.IsCompound) (t : Ty) : key ∉ target.embeddedRefs t := by
  intro h
  obtain ⟨d, -, h⟩ := List.mem_flatMap.mp h
  exact not_mem_namedRefs compound d h

theorem not_mem_signatureRefs (compound : key.IsCompound) (signature : MethodSignature) :
    key ∉ target.signatureRefs signature := by
  intro h
  rcases List.mem_append.mp h with h | h
  · obtain ⟨t, -, h⟩ := List.mem_flatMap.mp h
    exact not_mem_embeddedRefs compound t h
  · exact not_mem_embeddedRefs compound _ h

theorem mem_tokenRefs_iff (compound : key.IsCompound) {t : Ty} :
    key ∈ target.tokenRefs t ↔ key = .type t := by
  rw [tokenRefs, List.mem_append, or_iff_right (not_mem_embeddedRefs compound t)]
  constructor
  · intro h
    split at h
    next => exact List.mem_singleton.mp h
    next => cases h
  · rintro rfl
    rw [if_pos (show t.isConstructed = true from compound)]
    exact List.mem_singleton_self _

theorem mem_definedRefs_iff (compound : key.IsCompound) {owner : TypeDefId} {types : List RefKey}
    {self : RefKey} (plain : key ∉ types) :
    key ∈ target.definedRefs owner types self ↔ key = self ∧ ¬target.isLocal owner = true := by
  unfold definedRefs
  split
  next own => simp [own]
  next other => simp [other, plain, not_mem_namedRefs compound]

theorem mem_fieldRefs_iff (compound : key.IsCompound) {f : FieldId} :
    key ∈ target.fieldRefs f ↔ key = .member (.field f) ∧ ¬target.IsOwn (.member (.field f)) :=
  mem_definedRefs_iff compound (not_mem_embeddedRefs compound _)

theorem mem_methodRefs_iff (compound : key.IsCompound) {m : MethodId} :
    key ∈ target.methodRefs m ↔ key = .member (.method m) ∧ ¬target.IsOwn (.member (.method m)) :=
  mem_definedRefs_iff compound (not_mem_signatureRefs compound _)

theorem mem_memberRefs_iff (compound : key.IsCompound) {m : MemberRef} :
    key ∈ target.memberRefs m ↔ key ∈ m.basis ∧ ¬target.IsOwn key := by
  induction m with
  | field f =>
    rw [memberRefs, mem_fieldRefs_iff compound, MemberRef.basis, List.mem_singleton]
    exact and_congr_right fun same => by rw [same]
  | method m =>
    rw [memberRefs, mem_methodRefs_iff compound, MemberRef.basis, List.mem_singleton]
    exact and_congr_right fun same => by rw [same]
  | specializedField f container =>
    simp only [memberRefs, MemberRef.basis, List.mem_append, List.mem_cons, List.not_mem_nil,
      or_false, mem_tokenRefs_iff compound, mem_fieldRefs_iff compound]
    constructor
    · rintro ((rfl | ⟨rfl, foreign⟩) | rfl)
      · exact ⟨.inr (.inl rfl), not_isOwn_of_compound compound⟩
      · exact ⟨.inr (.inr rfl), foreign⟩
      · exact ⟨.inl rfl, id⟩
    · rintro ⟨rfl | rfl | rfl, foreign⟩
      · exact .inr rfl
      · exact .inl (.inl rfl)
      · exact .inl (.inr ⟨rfl, foreign⟩)
  | specializedMethod m container =>
    simp only [memberRefs, MemberRef.basis, List.mem_append, List.mem_cons, List.not_mem_nil,
      or_false, mem_tokenRefs_iff compound, mem_methodRefs_iff compound]
    constructor
    · rintro ((rfl | ⟨rfl, foreign⟩) | rfl)
      · exact ⟨.inr (.inl rfl), not_isOwn_of_compound compound⟩
      · exact ⟨.inr (.inr rfl), foreign⟩
      · exact ⟨.inl rfl, id⟩
    · rintro ⟨rfl | rfl | rfl, foreign⟩
      · exact .inr rfl
      · exact .inl (.inl rfl)
      · exact .inl (.inr ⟨rfl, foreign⟩)
  | methodInstance method args ih =>
    have plain : key ∉ args.flatMap target.embeddedRefs := by
      intro h
      obtain ⟨t, -, h⟩ := List.mem_flatMap.mp h
      exact not_mem_embeddedRefs compound t h
    rw [memberRefs, MemberRef.basis, List.mem_append, List.mem_append, or_iff_left plain, ih,
      List.mem_singleton, List.mem_cons]
    constructor
    · rintro (⟨among, foreign⟩ | rfl)
      · exact ⟨.inr among, foreign⟩
      · exact ⟨.inl rfl, id⟩
    · rintro ⟨rfl | among, foreign⟩
      · exact .inr rfl
      · exact .inl ⟨among, foreign⟩

/-- Of the members, methods of arrays and constructed types, a reference brings only itself and what
it is built from, and of these not the module's own. -/
theorem mem_keyRefs_iff (compound : key.IsCompound) {k : RefKey} (buildable : k.Buildable) :
    key ∈ target.keyRefs k ↔ key ∈ k.basis ∧ ¬target.IsOwn key := by
  cases k with
  | assembly a | module m | file f =>
    have other : ∀ k' : RefKey, ¬k'.IsCompound → key ∉ [k'] := fun k' plain h =>
      plain (List.mem_singleton.mp h ▸ compound)
    exact ⟨fun h => absurd h (other _ id), fun h => absurd h.1 (other _ id)⟩
  | type t =>
    rw [keyRefs, mem_tokenRefs_iff compound, RefKey.basis, List.mem_singleton]
    refine ⟨fun same => ⟨same, ?_⟩, fun h => h.1⟩
    cases same
    exact not_isOwn_of_compound compound
  | member m => exact mem_memberRefs_iff compound
  | arrayMethod kind t =>
    obtain ⟨method, built⟩ := buildable
    simp only [keyRefs, arrayMethodRefs, built, List.mem_append, mem_tokenRefs_iff compound,
      not_mem_signatureRefs compound, or_false, RefKey.basis, List.mem_cons, List.not_mem_nil]
    constructor
    · rintro (rfl | rfl)
      · exact ⟨.inr rfl, not_isOwn_of_compound compound⟩
      · exact ⟨.inl rfl, id⟩
    · rintro ⟨rfl | rfl, -⟩
      · exact .inr rfl
      · exact .inl rfl

end Target

/-- A demand of a node is visited, as something that can be referenced if the visited thing can. -/
theorem Node.exists_reference {node : Node} {key : RefKey} (h : node.demand? = some key)
    (target : Target) :
    ∃ r ∈ node.references, r.need = .token key ∧ target.referenceRefs r = target.keyRefs key ∧
      key.Buildable ∧ (target.symbols.ReferenceInScope r → target.symbols.KeyInScope key) := by
  unfold references
  rw [h]
  unfold demand? at h
  split at h <;> cases h
  all_goals first
    | exact ⟨_, List.mem_singleton_self _, rfl, rfl, trivial, id⟩
    | exact ⟨_, List.mem_singleton_self _, rfl, rfl, ⟨_, rfl⟩, fun inside => ⟨inside, _, rfl⟩⟩

theorem Node.exists_demand {node : Node} {r : Reference} (h : r ∈ node.references)
    (target : Target) :
    ∃ key, node.demand? = some key ∧ target.referenceRefs r = target.keyRefs key := by
  unfold references at h
  obtain ⟨key, demanded, named⟩ := Option.bind_eq_some_iff.mp (Option.mem_toList.mp h)
  refine ⟨key, demanded, ?_⟩
  cases key <;> cases named <;> rfl

/-- Methods of arrays are not what anything else is built from. -/
theorem RefKey.eq_of_arrayMethod_mem_basis {k : RefKey} {kind : ArrayMethodKind} {t : Ty}
    (h : .arrayMethod kind t ∈ k.basis) : k = .arrayMethod kind t := by
  have member : ∀ m : MemberRef, RefKey.arrayMethod kind t ∉ m.basis := by
    intro m
    induction m with
    | methodInstance m args ih =>
      intro h
      rcases List.mem_cons.mp h with h | h
      · cases h
      · exact ih h
    | _ => simp [MemberRef.basis]
  cases k with
  | member m => exact absurd h (member m)
  | arrayMethod kind' t' => simpa [basis, eq_comm] using h
  | _ => simp [basis] at h

/-- The method that reads elements is needed where an element is read. -/
theorem Node.eq_element_of_demand {node : Node} {t : Ty}
    (h : node.demand? = some (.arrayMethod .get t)) :
    ∃ array indices, node = .expr (.element array t indices) := by
  unfold demand? at h
  split at h <;> cases h
  exact ⟨_, _, rfl⟩

namespace Session

variable {target : Target} {session : Session} {key : RefKey}

theorem Finds.exists_token (h : session.Finds target key) :
    ∃ token, session.lookup target key = .ok token := by
  obtain ⟨token, found⟩ := Option.isSome_iff_exists.mp h
  exact ⟨token, by rw [lookup, found]⟩

end Session

namespace Target

variable {target : Target}

/-- Of the members, the methods of arrays and the constructed types, a body refers to what its nodes
need tokens for and to what this is built from. -/
theorem mem_visitRefs_body_iff {body : Body} {key : RefKey} (compound : key.IsCompound) :
    key ∈ target.visitRefs (.body body) ↔
      ¬target.IsOwn key ∧ ∃ node ∈ body.nodes, ∃ k, node.demand? = some k ∧ key ∈ k.basis := by
  constructor
  · intro mem
    obtain ⟨r, among, mem⟩ := List.mem_flatMap.mp mem
    rcases List.mem_append.mp among with among | among
    · obtain ⟨l, -, rfl⟩ := List.mem_map.mp among
      exact absurd mem (not_mem_embeddedRefs compound l.ty)
    · rw [Stmt.referencesAll_eq] at among
      obtain ⟨node, here, among⟩ := List.mem_flatMap.mp among
      obtain ⟨k, demanded, same⟩ := node.exists_demand among target
      obtain ⟨-, -, -, -, buildable, -⟩ := node.exists_reference demanded target
      rw [same, mem_keyRefs_iff compound buildable] at mem
      exact ⟨mem.2, node, here, k, demanded, mem.1⟩
  · rintro ⟨foreign, node, here, k, demanded, mem⟩
    obtain ⟨r, among, -, same, buildable, -⟩ := node.exists_reference demanded target
    refine List.mem_flatMap.mpr ⟨r, Body.mem_references_of_node here among, ?_⟩
    rw [same, mem_keyRefs_iff compound buildable]
    exact ⟨mem, foreign⟩

/-- What a need for a token asks for is found. -/
theorem exists_token_of_meets (wf : target.symbols.WellFormed) {session : Session} {key : RefKey}
    (inScope : target.symbols.KeyInScope key) (met : session.Meets target (.token key)) :
    ∃ token, session.lookup target key = .ok token := by
  refine Session.Finds.exists_token ?_
  rcases met with own | reserved
  · exact .of_definition (definition?_isSome wf inScope own)
  · exact .of_reserved reserved

/-- What a reference with a token is built from has tokens, too. -/
theorem meets_basis {session : Session}
    (grounded : ∀ {key}, session.Reserved key → session.Grounded target key) {key : RefKey}
    (met : session.Meets target (.token key)) :
    ∀ k ∈ key.basis, session.Meets target (.token k) := by
  have member : ∀ m : MemberRef, session.Meets target (.token (.member m)) →
      ∀ k ∈ m.basis, session.Meets target (.token k) := by
    intro m
    induction m with
    | field | method => exact fun met => List.forall_mem_singleton.mpr met
    | specializedField | specializedMethod =>
      intro met
      have needs := (grounded (met.resolve_left id)).needs
      obtain ⟨outer, inner⟩ := List.forall_mem_cons.mp needs
      exact List.forall_mem_cons.mpr ⟨met, List.forall_mem_cons.mpr ⟨outer,
        List.forall_mem_singleton.mpr (inner _ List.mem_cons_self)⟩⟩
    | methodInstance m args ih =>
      intro met
      have needs := (grounded (met.resolve_left id)).needs
      exact List.forall_mem_cons.mpr ⟨met, ih (needs _ List.mem_cons_self)⟩
  cases key with
  | assembly | module | file | type => exact List.forall_mem_singleton.mpr met
  | member m => exact member m met
  | arrayMethod kind arrayTy =>
    have needs := (grounded (met.resolve_left id)).needs
    exact List.forall_mem_cons.mpr ⟨met,
      List.forall_mem_singleton.mpr (needs _ List.mem_cons_self)⟩

/-- Visiting a body misses nothing, whichever visits were made before and whether or not they
failed: there are tokens for what its nodes need tokens for, at any depth, and for the definitions
that the types of its locals name, unless a visit that failed has left a type around them marked. Of
the members, the methods of arrays and the constructed types, it reserves only what nodes need and
what this is built from. So the methods that read elements are only reserved for elements that are
read, not for those that are assigned to. -/
theorem lookup_visitBody (wf : target.symbols.WellFormed) {visits : List Visit}
    {session later : Session} (before : target.serveAll {} (visits.map .visit) = session)
    {body : Body} (inScope : target.symbols.BodyInScope body)
    (h : target.visitBody body session = .ok () later) :
    (∀ l ∈ body.locals, ∀ d ∈ l.ty.mentions,
      (∃ token, later.lookup target (.type (.named d)) = .ok token) ∨
        ∃ u : Ty, u.Within l.ty ∧ d ∈ u.mentions ∧ .type u ∈ session.seen ∧
          target.LeftBy (target.failing {} visits) u) ∧
    (∀ node ∈ body.nodes, ∀ key, node.demand? = some key →
      ∃ token, later.lookup target key = .ok token) ∧
    (∀ key : RefKey, key.IsCompound → (later.Reserved key ↔ session.Reserved key ∨
      ¬target.IsOwn key ∧ ∃ node ∈ body.nodes, ∃ k, node.demand? = some k ∧ key ∈ k.basis)) ∧
    ∀ arrayTy, later.Reserved (.arrayMethod .get arrayTy) →
      session.Reserved (.arrayMethod .get arrayTy) ∨
        ∃ array indices, .expr (.element array arrayTy indices) ∈ body.nodes := by
  have explored : session.Explored target (target.LeftBy (target.failing {} visits)) :=
    before ▸ (Session.Explored.empty target _).serveAll wf fun _ => id
  obtain ⟨grows, ok⟩ := Emit.Explores.visitBody wf body (fun _ => id) session explored.cached nofun
  obtain ⟨opens, met⟩ := ok later h
  rw [h] at grows
  have grounded : ∀ {key}, later.Reserved key → later.Grounded target key := fun held =>
    (grows.grounded held).elim (fun old => grows.below.grounded (explored.grounded old)) And.right
  -- Types that are marked without what they need were so before.
  have explored' : later.Explored target fun u => .type u ∈ session.seen ∧ target.LeftBy _ u :=
    { grounded, cached := grows.cached explored.cached
      opened := fun seen => (opens seen).elim
        (fun old => (explored.opened old).imp grows.meetsAll fun left => ⟨old, left⟩) .inl }
  have locals : ∀ l ∈ body.locals, later.Meets target (.sight l.ty.stripByRef) := fun l among =>
    met _ (List.mem_map_of_mem (Body.mem_references_of_local among))
  have demands : ∀ node ∈ body.nodes, ∀ key, node.demand? = some key →
      later.Meets target (.token key) ∧ target.symbols.KeyInScope key := by
    intro node here key demanded
    obtain ⟨r, among, need, -, -, scope⟩ := node.exists_reference demanded target
    have mentioned := Body.mem_references_of_node here among
    exact ⟨need ▸ met _ (List.mem_map_of_mem mentioned), scope (inScope _ mentioned)⟩
  have exactly : ∀ key : RefKey, key.IsCompound → (later.Reserved key ↔ session.Reserved key ∨
      ¬target.IsOwn key ∧ ∃ node ∈ body.nodes, ∃ k, node.demand? = some k ∧ key ∈ k.basis) := by
    intro key compound
    constructor
    · exact fun held => (grows.grounded held).imp_right fun new =>
        (mem_visitRefs_body_iff compound).mp new.1
    · rintro (old | ⟨foreign, node, here, k, demanded, among⟩)
      · exact grows.reserved old
      · exact (meets_basis grounded (demands node here k demanded).1 key among).resolve_left foreign
  refine ⟨fun l among d named => ?_, fun node here key demanded => ?_, exactly,
    fun arrayTy reads => ?_⟩
  · have mentioned := Body.mem_references_of_local among
    have scope : target.symbols.KeyInScope (.type (.named d)) :=
      List.forall_mem_singleton.mpr (inScope _ mentioned d named)
    rw [← Ty.mentions_stripByRef] at named
    refine (explored'.mentions (locals l among) d named).imp (exists_token_of_meets wf scope) ?_
    exact fun ⟨u, inner, rest⟩ => ⟨u, inner.of_stripByRef, rest⟩
  · obtain ⟨there, scope⟩ := demands node here key demanded
    exact exists_token_of_meets wf scope there
  · have compound : (RefKey.arrayMethod .get arrayTy).IsCompound := trivial
    refine ((exactly _ compound).mp reads).imp_right ?_
    rintro ⟨-, node, here, k, demanded, among⟩
    rw [RefKey.eq_of_arrayMethod_mem_basis among] at demanded
    obtain ⟨array, indices, rfl⟩ := node.eq_element_of_demand demanded
    exact ⟨array, indices, here⟩

/-- The sample program with so many assemblies that there is not a row for each. -/
def crowded : Target :=
  { sample with
    symbols :=
      { sampleSymbols with
        assemblies := sampleSymbols.assemblies ++ List.replicate 0xFFFFFF { name := "Other" } } }

/-- The assemblies without types. -/
def crowd : List AssemblyId := (List.range 0xFFFFFF).map fun i => ⟨i + 2⟩

/-- A body with one local. -/
def localOnly (ty : Ty) : Body where
  locals := [{ name := some "l", ty }]
  root := []

theorem visitBody_localOnly {target : Target} {ty : Ty} {session later : Session}
    (h : target.visitSignatureTy ty session = .ok () later) :
    target.visitBody (localOnly ty) session = .ok () later := by
  have walk : target.walkStmts [] later = .ok () later := by
    unfold walkStmts Visitor.visitStmts
    rfl
  exact (bind_of_ok (bind_of_ok h)).trans walk

theorem lookup_missing {target : Target} {session : Session} {d : TypeDefId}
    (foreign : target.typeDefToken? d = none) (absent : ¬session.Reserved (.type (.named d))) :
    session.lookup target (.type (.named d)) = .error (.missingToken (.type (.named d))) := by
  rw [Session.lookup, Session.lookup?, definition?, foreign, TokenTable.get?_eq_none_iff.mpr absent]
  rfl

/-- The crowd takes all rows that tables of assemblies have. -/
theorem visitAll_crowd : ∃ filled,
    crowded.visitAll (crowd.map fun a => .reference (.assembly a)) {} = .ok () filled ∧
      Token.rowLimit ≤ (filled.tokens.rows .assemblyRef).length + 1 ∧
      (∀ k, filled.Reserved k → ∃ i, k = .assembly ⟨i + 2⟩) ∧
      ∀ k ∈ filled.seen, ∃ i, k = .assembly ⟨i + 2⟩ := by
  have distinct : crowd.Nodup := List.nodup_range.map fun i j same =>
    Nat.add_right_cancel (congrArg AssemblyId.index same)
  have length : crowd.length = 0xFFFFFF := by simp [crowd]
  have numbered : ∀ a ∈ crowd, ∃ i, a = ⟨i + 2⟩ := fun a among =>
    (List.mem_map.mp among).imp fun i made => made.2.symm
  have others : ∀ a ∈ crowd, a ≠ crowded.assembly := by
    intro a among
    obtain ⟨i, rfl⟩ := numbered a among
    exact fun same => Nat.succ_ne_zero _ (congrArg AssemblyId.index same)
  obtain ⟨filled, run, rows, reserved, seen⟩ := @visitAll_assemblies crowded {} crowd distinct
    others (fun _ _ => nofun) (by rw [length]; decide)
  have one : ∀ k : RefKey, (∃ a ∈ crowd, k = .assembly a) → ∃ i, k = .assembly ⟨i + 2⟩ := by
    rintro k ⟨a, among, rfl⟩
    exact (numbered a among).imp fun i => congrArg RefKey.assembly
  refine ⟨filled, run, ?_, fun k held => one k ?_, fun k marked => one k ?_⟩
  · rw [rows, length]
    decide
  · exact ((reserved k).mp held).resolve_left nofun
  · exact ((seen k).mp marked).resolve_left nofun

/-- A visit that fails may hide a type from the visits of bodies. The first fails because a token for
a by-ref is asked for, the second because no more assembly can have a token. -/
theorem visitBody_misses_after_failure :
    (∃ left later,
      sample.visit (.reference (.type (.byRef (.named ⟨0⟩)))) {} = .error (.misuse .byRefToken) left ∧
        sample.visitBody (localOnly (.vector (.byRef (.named ⟨0⟩)))) left = .ok () later ∧
        later.lookup sample (.type (.named ⟨0⟩)) = .error (.missingToken (.type (.named ⟨0⟩)))) ∧
    ∃ filled left,
      crowded.visitAll (crowd.map fun a => .reference (.assembly a)) {} = .ok () filled ∧
        crowded.visit (.reference (.signature (.inst ⟨0⟩ [.int32]))) filled =
          .error (.tableFull .assemblyRef) left ∧
        crowded.visitBody (localOnly (.inst ⟨0⟩ [.int32])) left = .ok () left ∧
        left.lookup crowded (.type (.named ⟨0⟩)) = .error (.missingToken (.type (.named ⟨0⟩))) := by
  constructor
  · have ok : failure? (sample.visitBody (localOnly (.vector (.byRef (.named ⟨0⟩))))
        { seen := [.type (.byRef (.named ⟨0⟩))] }) = none := by decide +kernel
    obtain ⟨u, run⟩ := eq_ok_of_failure? ok
    exact ⟨_, _, rfl, run, lookup_missing (by decide +kernel)
      (mt Session.reserved_iff_contains.mpr (by decide +kernel))⟩
  · obtain ⟨filled, run, full, reserved, seen⟩ := visitAll_crowd
    have imports : crowded.Imports ⟨0⟩ ⟨1⟩ := ⟨rfl, by decide, rfl, by decide⟩
    have untyped : ∀ t : Ty, ¬filled.Reserved (.type t) := fun t held => by
      obtain ⟨i, ⟨⟩⟩ := reserved _ held
    have absent : ¬filled.Reserved (.assembly ⟨1⟩) := fun held => by
      obtain ⟨i, same⟩ := reserved _ held
      cases same
    have fresh : .type (.inst ⟨0⟩ [.int32]) ∉ filled.seen := fun marked => by
      obtain ⟨i, ⟨⟩⟩ := seen _ marked
    obtain ⟨left, failed, marked, keys⟩ :=
      visitSignatureTy_inst_full absent (untyped _) (untyped _) fresh full imports
    exact ⟨filled, left, run, failed, visitBody_localOnly (firstSight_of_seen marked _),
      lookup_missing (by decide +kernel) (mt (Session.reserved_congr keys).mp (untyped _))⟩

/-- `List<int>[] l; try { a[0, 0] = 1; } catch (Node<int>) { }`, for an array that is not looked
at -/
def sampleStores : Body where
  locals := [{ name := some "l", ty := .vector (.inst ⟨0⟩ [.int32]) }]
  root :=
    [.tryCatch ⟨0⟩
      [.assign (.element (.const .null) (.array .int32 2) [.int 0, .int 0]) (.int 1)]
      [.mk (some (.inst ⟨1⟩ [.int32])) none []] none]
  tryCount := 1

/-- The list type of the local, the method that assigns and the type that is caught have tokens;
the method that reads has none. -/
theorem lookup_visitBody_sample : ∃ later,
    sample.visitBody sampleStores (sample.serveAll {} (sampleVisits.map .visit)) = .ok () later ∧
      (∃ token, later.lookup sample (.type (.named ⟨0⟩)) = .ok token) ∧
      (∃ token, later.lookup sample (.arrayMethod .set (.array .int32 2)) = .ok token) ∧
      (∃ token, later.lookup sample (.type (.inst ⟨1⟩ [.int32])) = .ok token) ∧
      ¬later.Reserved (.arrayMethod .get (.array .int32 2)) := by
  have ok : (sample.visitBody sampleStores (sample.serveAll {} (sampleVisits.map .visit)) matches
      .ok ..) = true := by decide +kernel
  obtain ⟨later, h⟩ : ∃ later, sample.visitBody sampleStores
      (sample.serveAll {} (sampleVisits.map .visit)) = .ok () later := by
    cases h : sample.visitBody sampleStores (sample.serveAll {} (sampleVisits.map .visit)) with
    | ok u later => exact ⟨later, rfl⟩
    | error fault later => simp [h] at ok
  have inScope : sample.symbols.BodyInScope sampleStores := by
    have known : ∀ t : Ty, t.mentions.all (·.index < 3) = true → sample.symbols.InScope t :=
      fun t all d named => of_decide_eq_true (List.all_eq_true.mp all d named)
    intro r among
    have cases : r = .signature (.vector (.inst ⟨0⟩ [.int32])) ∨
        r = .arrayMethod .set (.array .int32 2) ∨ r = .type (.inst ⟨1⟩ [.int32]) := by
      simpa [sampleStores, Body.references, Stmt.referencesAll, Stmt.references, Catch.referencesAll,
        Catch.references, Place.references, Place.storeReferences, Ty.elementReferences,
        Expr.referencesAll, Expr.references, Expr.int] using among
    rcases cases with rfl | rfl | rfl <;> exact known _ (by decide)
  obtain ⟨locals, nodes, -, reads⟩ := lookup_visitBody wellFormed_sample rfl inScope h
  have succeed : sample.failing {} sampleVisits = [] :=
    List.eq_nil_of_length_eq_zero (by decide +kernel)
  refine ⟨later, h, ?_, ?_, ?_, fun reserved => ?_⟩
  · refine (locals _ List.mem_cons_self ⟨0⟩ (by decide)).resolve_right ?_
    rintro ⟨u, -, -, -, v, failed, -⟩
    rw [succeed] at failed
    cases failed
  · refine nodes (.stmt (.assign (.element (.const .null) (.array .int32 2) [.int 0, .int 0])
      (.int 1))) ?_ _ rfl
    simp [Body.nodes, sampleStores, Stmt.nodesAll, Stmt.nodes]
  · refine nodes (.catch_ (some (.inst ⟨1⟩ [.int32]))) ?_ _ rfl
    simp [Body.nodes, sampleStores, Stmt.nodesAll, Stmt.nodes, Catch.nodesAll, Catch.nodes]
  · rcases reads _ reserved with already | ⟨array, indices, among⟩
    · exact absurd (Session.reserved_iff_contains.mpr already) (by decide +kernel)
    · simp [Body.nodes, sampleStores, Stmt.nodesAll, Stmt.nodes, Catch.nodesAll, Catch.nodes,
        Expr.nodesAll, Expr.nodes, Place.nodes, Expr.int] at among

end Target

end ManagedCode
