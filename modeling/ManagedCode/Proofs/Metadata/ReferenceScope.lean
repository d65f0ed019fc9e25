import ManagedCode.Proofs.Metadata.Collect

namespace ManagedCode

namespace Symbols

/-! What can be referenced in a program: only what its tables gave an id to, and only members of
array types without one. -/

def KeyInScope (symbols : Symbols) : RefKey → Prop
  | .assembly _ | .module _ | .file _ => True
  | .type t => symbols.InScope t
  | .member m => symbols.MemberInScope m
  | .arrayMethod kind t =>
    symbols.InScope t ∧ ∃ method, ArrayMethod.build kind t = .ok method

def ReferenceInScope (symbols : Symbols) : Reference → Prop
  | .assembly _ | .module _ => True
  | .type t | .signature t | .arrayMethod _ t => symbols.InScope t
  | .member m => symbols.MemberInScope m

def BodyInScope (symbols : Symbols) (body : Body) : Prop :=
  ∀ r ∈ body.references, symbols.ReferenceInScope r

def VisitInScope (symbols : Symbols) : Visit → Prop
  | .reference r => symbols.ReferenceInScope r
  | .definitions => True
  | .body body => symbols.BodyInScope body

def SignatureInScope (symbols : Symbols) (signature : MethodSignature) : Prop :=
  (∀ t ∈ signature.params, symbols.InScope t) ∧ symbols.InScope signature.ret

theorem WellFormed.signature {symbols : Symbols} (wf : symbols.WellFormed) {m : MethodId}
    (h : m.index < symbols.methods.length) :
    symbols.SignatureInScope (symbols.method m).signature := by
  obtain ⟨-, -, hp, hr⟩ := wf.method h
  refine ⟨fun t ht => ?_, hr⟩
  obtain ⟨p, hm, rfl⟩ := List.mem_map.mp ht
  exact hp p hm

theorem signatureInScope_arrayMethod {symbols : Symbols} {kind : ArrayMethodKind} {t : Ty}
    {method : ArrayMethod} (h : symbols.InScope t)
    (built : ArrayMethod.build kind t = .ok method) :
    symbols.SignatureInScope method.signature := by
  have number : symbols.InScope .int32 := nofun
  have nothing : symbols.InScope .void := nofun
  unfold ArrayMethod.build at built
  split at built
  next element rank =>
    cases built
    have inside : symbols.InScope element := h
    have indices : ∀ u ∈ List.replicate rank Ty.int32, symbols.InScope u := fun u hu => by
      rw [List.eq_of_mem_replicate hu]
      exact number
    cases kind with
    | constructor => exact ⟨indices, nothing⟩
    | get => exact ⟨indices, inside⟩
    | address => exact ⟨indices, inside⟩
    | set =>
      refine ⟨fun u hu => ?_, nothing⟩
      rcases List.mem_append.mp hu with hu | hu
      · exact indices u hu
      · exact List.mem_singleton.mp hu ▸ inside
  next => cases built

end Symbols

namespace Target

variable {target : Target} {key : RefKey}

theorem inScope_moduleRefs {m : ModuleId} (h : key ∈ target.moduleRefs m) :
    target.symbols.KeyInScope key := by
  unfold moduleRefs assemblyRefs at h
  simp only at h
  split at h
  next => cases h
  next =>
    split at h
    next => rcases List.mem_cons.mp h with rfl | h <;> simp_all [Symbols.KeyInScope]
    next => exact List.mem_singleton.mp h ▸ trivial

theorem inScope_namedKeys {t : Ty} (ht : target.symbols.InScope t) (h : key ∈ t.namedKeys) :
    target.symbols.KeyInScope key := by
  obtain ⟨d, hd, rfl⟩ := List.mem_map.mp h
  intro e he
  rw [List.mem_singleton.mp he]
  exact ht d hd

theorem inScope_signatureKeys {signature : MethodSignature}
    (hs : target.symbols.SignatureInScope signature) (h : key ∈ signature.namedKeys) :
    target.symbols.KeyInScope key := by
  rcases List.mem_append.mp h with h | h
  · obtain ⟨t, ht, h⟩ := List.mem_flatMap.mp h
    exact inScope_namedKeys (hs.1 t ht) h
  · exact inScope_namedKeys hs.2 h

theorem mem_typeDefs {d : TypeDefId} :
    d ∈ target.typeDefs ↔ d.index < target.symbols.typeDefs.length ∧ target.isLocal d = true := by
  simp only [typeDefs, Symbols.typeDefsIn, List.mem_filter, List.mem_map, List.mem_range, isLocal]
  constructor
  · rintro ⟨⟨i, hi, rfl⟩, hl⟩
    exact ⟨hi, hl⟩
  · rintro ⟨hi, hl⟩
    exact ⟨⟨d.index, hi, rfl⟩, hl⟩

variable (wf : target.symbols.WellFormed)
include wf

theorem inScope_nestedRefs {enclosing : List TypeDefId} {d : TypeDefId}
    (hd : d.index < target.symbols.typeDefs.length)
    (he : (target.symbols.typeDef d).enclosing = enclosing)
    (h : key ∈ target.nestedRefs d enclosing) : target.symbols.KeyInScope key := by
  have self : target.symbols.KeyInScope (.type (.named d)) := fun e hm => by
    rw [List.mem_singleton.mp hm]
    exact hd
  induction enclosing generalizing d with
  | nil =>
    unfold nestedRefs at h
    split at h
    next => cases h
    next =>
      rcases List.mem_append.mp h with h | h
      · exact inScope_moduleRefs h
      · exact List.mem_singleton.mp h ▸ self
  | cons outer rest ih =>
    obtain ⟨ho, hrest, -⟩ := wf.enclosing he
    unfold nestedRefs at h
    split at h
    next => cases h
    next =>
      rcases List.mem_append.mp h with h | h
      · refine ih ho hrest h fun e hm => ?_
        rw [List.mem_singleton.mp hm]
        exact ho
      · exact List.mem_singleton.mp h ▸ self

theorem inScope_namedRefs {d : TypeDefId} (hd : d.index < target.symbols.typeDefs.length)
    (h : key ∈ target.namedRefs d) : target.symbols.KeyInScope key :=
  inScope_nestedRefs wf hd rfl h

theorem inScope_embeddedRefs {t : Ty} (ht : target.symbols.InScope t)
    (h : key ∈ target.embeddedRefs t) : target.symbols.KeyInScope key := by
  obtain ⟨d, hd, h⟩ := List.mem_flatMap.mp h
  exact inScope_namedRefs wf (ht d hd) h

theorem inScope_tokenRefs {t : Ty} (ht : target.symbols.InScope t)
    (h : key ∈ target.tokenRefs t) : target.symbols.KeyInScope key := by
  rcases List.mem_append.mp h with h | h
  · exact inScope_embeddedRefs wf ht h
  · split at h
    next => exact List.mem_singleton.mp h ▸ ht
    next => cases h

theorem inScope_signatureRefs {signature : MethodSignature}
    (hs : target.symbols.SignatureInScope signature) (h : key ∈ target.signatureRefs signature) :
    target.symbols.KeyInScope key := by
  rcases List.mem_append.mp h with h | h
  · obtain ⟨t, ht, h⟩ := List.mem_flatMap.mp h
    exact inScope_embeddedRefs wf (hs.1 t ht) h
  · exact inScope_embeddedRefs wf hs.2 h

theorem inScope_definedRefs {owner : TypeDefId} {types : List RefKey} {self : RefKey}
    (ho : owner.index < target.symbols.typeDefs.length)
    (ht : ∀ k ∈ types, target.symbols.KeyInScope k) (hs : target.symbols.KeyInScope self)
    (h : key ∈ target.definedRefs owner types self) : target.symbols.KeyInScope key := by
  unfold definedRefs at h
  split at h
  next => cases h
  next =>
    simp only [List.mem_append, List.mem_singleton] at h
    rcases h with (h | h) | rfl
    · exact inScope_namedRefs wf ho h
    · exact ht key h
    · exact hs

theorem inScope_memberRefs {m : MemberRef} (hm : target.symbols.MemberInScope m)
    (h : key ∈ target.memberRefs m) : target.symbols.KeyInScope key := by
  have field : ∀ {f : FieldId} {k}, f.index < target.symbols.fields.length →
      k ∈ target.fieldRefs f → target.symbols.KeyInScope k := by
    intro f k hf hk
    obtain ⟨ho, -, ht⟩ := wf.field hf
    have self : target.symbols.KeyInScope (.member (.field f)) := hf
    exact inScope_definedRefs wf ho (fun _ => inScope_embeddedRefs wf ht) self hk
  have method : ∀ {m : MethodId} {k}, m.index < target.symbols.methods.length →
      k ∈ target.methodRefs m → target.symbols.KeyInScope k := by
    intro m k hm hk
    obtain ⟨ho, -, -⟩ := wf.method hm
    have self : target.symbols.KeyInScope (.member (.method m)) := hm
    exact inScope_definedRefs wf ho (fun _ => inScope_signatureRefs wf (wf.signature hm)) self hk
  induction m generalizing key with
  | field f => exact field hm h
  | method m => exact method hm h
  | specializedField f container =>
    simp only [memberRefs, List.mem_append, List.mem_singleton] at h
    rcases h with (h | h) | rfl
    · exact inScope_tokenRefs wf hm.2 h
    · exact field hm.1 h
    · exact hm
  | specializedMethod m container =>
    simp only [memberRefs, List.mem_append, List.mem_singleton] at h
    rcases h with (h | h) | rfl
    · exact inScope_tokenRefs wf hm.2 h
    · exact method hm.1 h
    · exact hm
  | methodInstance m args ih =>
    simp only [memberRefs, List.mem_append, List.mem_singleton] at h
    rcases h with (h | h) | rfl
    · exact ih hm.1 h
    · obtain ⟨t, ht, h⟩ := List.mem_flatMap.mp h
      exact inScope_embeddedRefs wf (hm.2 t ht) h
    · exact hm

theorem inScope_arrayMethodRefs {kind : ArrayMethodKind} {t : Ty}
    (ht : target.symbols.InScope t) (h : key ∈ target.arrayMethodRefs kind t) :
    target.symbols.KeyInScope key := by
  unfold arrayMethodRefs at h
  split at h
  next method built =>
    simp only [List.mem_append, List.mem_singleton] at h
    rcases h with (h | h) | rfl
    · exact inScope_tokenRefs wf ht h
    · exact inScope_signatureRefs wf (Symbols.signatureInScope_arrayMethod ht built) h
    · exact ⟨ht, method, built⟩
  next => cases h

theorem inScope_typeDefRefs {d : TypeDefId} (h : key ∈ target.typeDefRefs d) :
    target.symbols.KeyInScope key := by
  simp only [typeDefRefs, List.mem_append] at h
  rcases h with (h | h) | h
  · cases hb : (target.symbols.typeDef d).base with
    | none => rw [hb] at h; cases h
    | some base => exact inScope_tokenRefs wf (wf.base hb) (by rw [hb] at h; exact h)
  · obtain ⟨f, hf, h⟩ := List.mem_flatMap.mp h
    obtain ⟨-, -, ht⟩ := wf.field (wf.listedField hf).1
    exact inScope_embeddedRefs wf ht h
  · obtain ⟨m, hm, h⟩ := List.mem_flatMap.mp h
    exact inScope_signatureRefs wf (wf.signature (wf.listedMethod hm).1) h

theorem inScope_referenceRefs {r : Reference} (hr : target.symbols.ReferenceInScope r)
    (h : key ∈ target.referenceRefs r) : target.symbols.KeyInScope key := by
  cases r with
  | assembly a =>
    simp only [referenceRefs, assemblyRefs] at h
    split at h
    next => cases h
    next => exact List.mem_singleton.mp h ▸ trivial
  | module m => exact inScope_moduleRefs h
  | type t => exact inScope_tokenRefs wf hr h
  | signature t => exact inScope_embeddedRefs wf hr h
  | member m => exact inScope_memberRefs wf hr h
  | arrayMethod kind t => exact inScope_arrayMethodRefs wf hr h

theorem inScope_keyRefs {k : RefKey} (hk : target.symbols.KeyInScope key)
    (h : k ∈ target.keyRefs key) : target.symbols.KeyInScope k := by
  cases key with
  | assembly | module | file => exact List.mem_singleton.mp h ▸ trivial
  | type t => exact inScope_tokenRefs wf hk h
  | member m => exact inScope_memberRefs wf hk h
  | arrayMethod kind t => exact inScope_arrayMethodRefs wf hk.1 h

/-- What visits in scope stand for is in scope. -/
theorem inScope_visitRefs {v : Visit} (hv : target.symbols.VisitInScope v)
    (h : key ∈ target.visitRefs v) : target.symbols.KeyInScope key := by
  cases v with
  | reference r => exact inScope_referenceRefs wf hv h
  | definitions =>
    obtain ⟨d, -, h⟩ := List.mem_flatMap.mp h
    exact inScope_typeDefRefs wf h
  | body body =>
    obtain ⟨r, hr, h⟩ := List.mem_flatMap.mp h
    exact inScope_referenceRefs wf (hv r hr) h

theorem inScope_resolutionScope {d : TypeDefId} :
    target.symbols.KeyInScope (Layout.resolutionScope target d) := by
  unfold Layout.resolutionScope Symbols.encloser?
  dsimp only
  split
  next e he =>
    obtain ⟨rest, he⟩ := List.head?_eq_some_iff.mp he
    intro e' hm
    rw [List.mem_singleton.mp hm]
    exact (wf.enclosing he).1
  next => split <;> trivial

/-- What the row of a reference in scope is made from is in scope. -/
theorem inScope_parts {part : RefKey} (hk : target.symbols.KeyInScope key)
    (h : part ∈ target.parts key) : target.symbols.KeyInScope part := by
  have owner : ∀ {d : TypeDefId}, d.index < target.symbols.typeDefs.length →
      target.symbols.KeyInScope (.type (.named d)) := fun hd e hm => by
    rw [List.mem_singleton.mp hm]
    exact hd
  unfold parts at h
  split at h
  next => cases h
  next => cases h
  next => cases h
  next d =>
    rw [List.mem_singleton.mp h]
    exact inScope_resolutionScope wf
  next t _ => exact inScope_namedKeys hk h
  next f =>
    obtain ⟨ho, -, ht⟩ := wf.field hk
    rcases List.mem_cons.mp h with rfl | h
    · exact owner ho
    · exact inScope_namedKeys ht h
  next m =>
    obtain ⟨ho, -, -⟩ := wf.method hk
    rcases List.mem_cons.mp h with rfl | h
    · exact owner ho
    · exact inScope_signatureKeys (wf.signature hk) h
  next f container =>
    simp only [List.mem_cons, List.not_mem_nil, or_false] at h
    rcases h with rfl | rfl
    · exact hk.2
    · exact hk.1
  next m container =>
    simp only [List.mem_cons, List.not_mem_nil, or_false] at h
    rcases h with rfl | rfl
    · exact hk.2
    · exact hk.1
  next m args =>
    rcases List.mem_cons.mp h with rfl | h
    · exact hk.1
    · obtain ⟨t, ht, h⟩ := List.mem_flatMap.mp h
      exact inScope_namedKeys (hk.2 t ht) h
  next kind t =>
    rcases List.mem_cons.mp h with rfl | h
    · exact hk.1
    · split at h
      next method built =>
        exact inScope_signatureKeys (Symbols.signatureInScope_arrayMethod hk.1 built) h
      next => cases h

/-- A definition of the module itself has a token from the start. -/
theorem definition?_isSome (hk : target.symbols.KeyInScope key) (own : target.IsOwn key) :
    (target.definition? key).isSome := by
  unfold IsOwn at own
  split at own
  next d =>
    have hd : d ∈ target.typeDefs := mem_typeDefs.mpr ⟨hk d (List.mem_singleton.mpr rfl), own⟩
    simpa [definition?, typeDefToken?] using hd
  next f =>
    obtain ⟨ho, hl, -⟩ := wf.field hk
    have hf : f ∈ target.fields := List.mem_flatMap.mpr ⟨_, mem_typeDefs.mpr ⟨ho, own⟩, hl⟩
    simpa [definition?, fieldToken?] using hf
  next m =>
    obtain ⟨ho, hl, -⟩ := wf.method hk
    have hm : m ∈ target.methods := List.mem_flatMap.mpr ⟨_, mem_typeDefs.mpr ⟨ho, own⟩, hl⟩
    simpa [definition?, methodToken?] using hm
  next => cases own

end Target

end ManagedCode
