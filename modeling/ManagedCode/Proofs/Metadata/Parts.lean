import ManagedCode.Metadata.Layout
import ManagedCode.Proofs.Metadata.Closure

namespace ManagedCode

/-- The references to the definitions that a type names. -/
def Ty.namedKeys (t : Ty) : List RefKey := t.mentions.map fun d => .type (.named d)

def MethodSignature.namedKeys (signature : MethodSignature) : List RefKey :=
  signature.params.flatMap Ty.namedKeys ++ signature.ret.namedKeys

namespace Target

variable (target : Target)

/-- Everything that has a token if this reference has one. -/
def keyRefs : RefKey → List RefKey
  | .type t => target.tokenRefs t
  | .member m => target.memberRefs m
  | .arrayMethod kind arrayTy => target.arrayMethodRefs kind arrayTy
  | key => [key]

/-- What the row of a reference is made from. -/
def parts : RefKey → List RefKey
  | .assembly _ | .module _ | .file _ => []
  | .type (.named d) => [Layout.resolutionScope target d]
  | .type t => t.namedKeys
  | .member (.field f) =>
    .type (.named (target.symbols.field f).owner) :: (target.symbols.field f).ty.namedKeys
  | .member (.method m) =>
    .type (.named (target.symbols.method m).owner) ::
      (target.symbols.method m).signature.namedKeys
  | .member (.specializedField f container) => [.type container, .member (.field f)]
  | .member (.specializedMethod m container) => [.type container, .member (.method m)]
  | .member (.methodInstance method args) => .member method :: args.flatMap Ty.namedKeys
  | .arrayMethod kind arrayTy =>
    .type arrayTy ::
      match ArrayMethod.build kind arrayTy with
      | .ok method => method.signature.namedKeys
      | .error _ => []

/-- The reference is to a definition of the module itself. -/
def IsOwn : RefKey → Prop
  | .type (.named d) => target.isLocal d = true
  | .member (.field f) => target.isLocal (target.symbols.field f).owner = true
  | .member (.method m) => target.isLocal (target.symbols.method m).owner = true
  | _ => False

end Target

/-- Members are only made for multi-dimensional array types. -/
def RefKey.Buildable : RefKey → Prop
  | .arrayMethod kind arrayTy => ∃ method, ArrayMethod.build kind arrayTy = .ok method
  | _ => True

namespace Target

variable {target : Target}

@[simp] theorem embeddedRefs_named (d : TypeDefId) :
    target.embeddedRefs (.named d) = target.namedRefs d := by
  simp [embeddedRefs, Ty.mentions]

@[simp] theorem keyRefs_named (d : TypeDefId) :
    target.keyRefs (.type (.named d)) = target.namedRefs d := by
  simp [keyRefs, tokenRefs, Ty.isConstructed]

theorem embeddedRefs_inst (d : TypeDefId) (args : List Ty) :
    target.embeddedRefs (.inst d args) =
      target.namedRefs d ++ args.flatMap target.embeddedRefs := by
  simp only [embeddedRefs, Ty.mentions, Ty.mentionsAll_eq_flatMap, List.flatMap_cons,
    List.flatMap_assoc]
  rfl

theorem embeddedRefs_congr {t u : Ty} (h : t.mentions = u.mentions) :
    target.embeddedRefs t = target.embeddedRefs u := by
  simp [embeddedRefs, h]

/-- A definition of another module is among what it stands for. -/
theorem own_or_mem_namedRefs (d : TypeDefId) :
    target.IsOwn (.type (.named d)) ∨ .type (.named d) ∈ target.namedRefs d := by
  by_cases own : target.isLocal d = true
  · exact .inl own
  · unfold namedRefs nestedRefs
    exact .inr (by simp [own])

theorem own_or_mem_embeddedRefs {t : Ty} {key : RefKey} (h : key ∈ t.namedKeys) :
    target.IsOwn key ∨ key ∈ target.embeddedRefs t := by
  obtain ⟨d, hd, rfl⟩ := List.mem_map.mp h
  exact (own_or_mem_namedRefs d).imp_right fun hm => List.mem_flatMap.mpr ⟨d, hd, hm⟩

theorem own_or_mem_tokenRefs (t : Ty) :
    target.IsOwn (.type t) ∨ .type t ∈ target.tokenRefs t := by
  cases t with
  | named d => simpa [tokenRefs, Ty.isConstructed] using own_or_mem_namedRefs d
  | _ => exact .inr (by simp [tokenRefs, Ty.isConstructed])

theorem own_or_mem_signatureRefs {signature : MethodSignature} {key : RefKey}
    (h : key ∈ signature.namedKeys) :
    target.IsOwn key ∨ key ∈ target.signatureRefs signature := by
  rcases List.mem_append.mp h with h | h
  · obtain ⟨t, ht, h⟩ := List.mem_flatMap.mp h
    exact (own_or_mem_embeddedRefs h).imp_right fun hm =>
      List.mem_append_left _ (List.mem_flatMap.mpr ⟨t, ht, hm⟩)
  · exact (own_or_mem_embeddedRefs h).imp_right (List.mem_append_right _)

theorem own_or_mem_memberRefs (m : MemberRef) :
    target.IsOwn (.member m) ∨ .member m ∈ target.memberRefs m := by
  cases m with
  | field f =>
    by_cases own : target.isLocal (target.symbols.field f).owner = true
    · exact .inl own
    · exact .inr (by simp [memberRefs, fieldRefs, definedRefs, own])
  | method m =>
    by_cases own : target.isLocal (target.symbols.method m).owner = true
    · exact .inl own
    · exact .inr (by simp [memberRefs, methodRefs, definedRefs, own])
  | _ => exact .inr (by simp [memberRefs])

theorem own_or_self_mem_keyRefs {key : RefKey} (buildable : key.Buildable) :
    target.IsOwn key ∨ key ∈ target.keyRefs key := by
  cases key with
  | assembly | module | file => exact .inr List.mem_cons_self
  | type t => exact own_or_mem_tokenRefs t
  | member m => exact own_or_mem_memberRefs m
  | arrayMethod kind arrayTy =>
    obtain ⟨method, built⟩ := buildable
    exact .inr (by simp [keyRefs, arrayMethodRefs, built])

/-- The module or assembly that a type at top level is looked up in comes with its module. -/
theorem scope_mem_moduleRefs {d : TypeDefId} (own : ¬target.isLocal d = true)
    (top : (target.symbols.typeDef d).enclosing = []) :
    Layout.resolutionScope target d ∈
      target.moduleRefs (target.symbols.typeDef d).module := by
  have other : (target.symbols.typeDef d).module ≠ target.module := by
    simpa [isLocal, Symbols.isDefinedIn] using own
  unfold Layout.resolutionScope moduleRefs
  simp only [Symbols.encloser?, top, List.head?_nil, other, if_false]
  split
  next => simp
  next far => simp [assemblyRefs, far]

/-- No type is declared in itself. -/
theorem encloser?_ne (wf : target.symbols.WellFormed) {d e : TypeDefId}
    (h : target.symbols.encloser? d = some e) : e ≠ d := by
  rintro rfl
  obtain ⟨rest, enclosing⟩ := List.head?_eq_some_iff.mp h
  have := congrArg List.length (enclosing.symm.trans (wf.enclosing enclosing).2.1)
  simp at this

/-- A type is looked up in something that it stands for. -/
theorem own_or_scope_mem_namedRefs (wf : target.symbols.WellFormed) {d : TypeDefId}
    (own : ¬target.isLocal d = true) :
    target.IsOwn (Layout.resolutionScope target d) ∨
      Layout.resolutionScope target d ∈ target.namedRefs d := by
  cases enclosing : (target.symbols.typeDef d).enclosing with
  | nil =>
    rw [namedRefs, enclosing, nestedRefs, if_neg own]
    exact .inr (List.mem_append_left _ (scope_mem_moduleRefs own enclosing))
  | cons outer rest =>
    obtain ⟨-, hrest, -⟩ := wf.enclosing enclosing
    have scope : Layout.resolutionScope target d = .type (.named outer) := by
      simp [Layout.resolutionScope, Symbols.encloser?, enclosing]
    have all : target.namedRefs outer = target.nestedRefs outer rest := by rw [namedRefs, hrest]
    rw [namedRefs, enclosing, nestedRefs, if_neg own, scope, ← all]
    exact (own_or_mem_namedRefs outer).imp_right (List.mem_append_left _)

/-- What the row of a reference is made from is among what it stands for. -/
theorem own_or_mem_keyRefs (wf : target.symbols.WellFormed) {key part : RefKey}
    (foreign : ¬target.IsOwn key) (buildable : key.Buildable) (hp : part ∈ target.parts key) :
    target.IsOwn part ∨ part ∈ target.keyRefs key := by
  have named : ∀ {t : Ty}, part ∈ t.namedKeys → target.IsOwn part ∨ part ∈ target.tokenRefs t :=
    fun hp => (own_or_mem_embeddedRefs hp).imp_right (List.mem_append_left _)
  cases key with
  | assembly | module | file => cases hp
  | type t =>
    cases t with
    | named d =>
      rw [List.mem_singleton.mp hp, keyRefs_named]
      exact own_or_scope_mem_namedRefs wf foreign
    | _ => exact named hp
  | member m =>
    cases m with
    | field f =>
      have outside : ¬target.isLocal (target.symbols.field f).owner = true := foreign
      rw [keyRefs, memberRefs, fieldRefs, definedRefs, if_neg outside, List.append_assoc]
      rcases List.mem_cons.mp hp with rfl | hp
      · exact (own_or_mem_namedRefs _).imp_right (List.mem_append_left _)
      · exact (own_or_mem_embeddedRefs hp).imp_right fun hm => by simp [hm]
    | method m =>
      have outside : ¬target.isLocal (target.symbols.method m).owner = true := foreign
      rw [keyRefs, memberRefs, methodRefs, definedRefs, if_neg outside, List.append_assoc]
      rcases List.mem_cons.mp hp with rfl | hp
      · exact (own_or_mem_namedRefs _).imp_right (List.mem_append_left _)
      · exact (own_or_mem_signatureRefs hp).imp_right fun hm => by simp [hm]
    | specializedField f container =>
      rw [keyRefs, memberRefs, List.append_assoc]
      rcases List.mem_cons.mp hp with rfl | hp
      · exact (own_or_mem_tokenRefs container).imp_right (List.mem_append_left _)
      · rw [List.mem_singleton.mp hp]
        exact (own_or_mem_memberRefs (.field f)).imp_right fun hm =>
          List.mem_append_right _ (List.mem_append_left _ hm)
    | specializedMethod m container =>
      rw [keyRefs, memberRefs, List.append_assoc]
      rcases List.mem_cons.mp hp with rfl | hp
      · exact (own_or_mem_tokenRefs container).imp_right (List.mem_append_left _)
      · rw [List.mem_singleton.mp hp]
        exact (own_or_mem_memberRefs (.method m)).imp_right fun hm =>
          List.mem_append_right _ (List.mem_append_left _ hm)
    | methodInstance m args =>
      rw [keyRefs, memberRefs, List.append_assoc]
      rcases List.mem_cons.mp hp with rfl | hp
      · exact (own_or_mem_memberRefs m).imp_right (List.mem_append_left _)
      · obtain ⟨t, ht, hp⟩ := List.mem_flatMap.mp hp
        refine (own_or_mem_embeddedRefs hp).imp_right fun hm => List.mem_append_right _ ?_
        exact List.mem_append_left _ (List.mem_flatMap.mpr ⟨t, ht, hm⟩)
  | arrayMethod kind arrayTy =>
    obtain ⟨method, built⟩ := buildable
    simp only [parts, built] at hp
    simp only [keyRefs, arrayMethodRefs, built, List.append_assoc]
    rcases List.mem_cons.mp hp with rfl | hp
    · exact (own_or_mem_tokenRefs arrayTy).imp_right (List.mem_append_left _)
    · exact (own_or_mem_signatureRefs hp).imp_right fun hm => by simp [hm]

theorem exists_of_mem_namedKeys {t : Ty} {key : RefKey} (h : key ∈ t.namedKeys) :
    ∃ d, key = .type (.named d) := by
  obtain ⟨d, -, rfl⟩ := List.mem_map.mp h
  exact ⟨d, rfl⟩

theorem exists_of_mem_signatureKeys {signature : MethodSignature} {key : RefKey}
    (h : key ∈ signature.namedKeys) : ∃ d, key = .type (.named d) := by
  rcases List.mem_append.mp h with h | h
  · obtain ⟨t, -, h⟩ := List.mem_flatMap.mp h
    exact exists_of_mem_namedKeys h
  · exact exists_of_mem_namedKeys h

/-- No reference is part of itself. -/
theorem ne_of_mem_parts (wf : target.symbols.WellFormed) {key part : RefKey}
    (hp : part ∈ target.parts key) : part ≠ key := by
  rintro rfl
  cases part with
  | assembly | module | file => cases hp
  | type t =>
    cases t with
    | named d =>
      have here := List.mem_singleton.mp hp
      unfold Layout.resolutionScope at here
      dsimp only at here
      split at here
      next e he =>
        cases here
        exact encloser?_ne wf he rfl
      next => split at here <;> cases here
    | _ => cases (exists_of_mem_namedKeys hp).choose_spec
  | member m =>
    cases m with
    | field f =>
      rcases List.mem_cons.mp hp with same | hp
      · cases same
      · cases (exists_of_mem_namedKeys hp).choose_spec
    | method m =>
      rcases List.mem_cons.mp hp with same | hp
      · cases same
      · cases (exists_of_mem_signatureKeys hp).choose_spec
    | specializedField | specializedMethod => simp [parts] at hp
    | methodInstance m args =>
      rcases List.mem_cons.mp hp with same | hp
      · cases same
      · obtain ⟨t, -, hp⟩ := List.mem_flatMap.mp hp
        cases (exists_of_mem_namedKeys hp).choose_spec
  | arrayMethod kind arrayTy =>
    rcases List.mem_cons.mp hp with same | hp
    · cases same
    · split at hp
      next => cases (exists_of_mem_signatureKeys hp).choose_spec
      next => cases hp

end Target

end ManagedCode
