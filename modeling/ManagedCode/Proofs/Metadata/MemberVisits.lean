import ManagedCode.Proofs.Metadata.TypeVisits

namespace ManagedCode

namespace Emit.Collects

open Target

variable {target : Target} {excused known : List RefKey}

/-- A member gets its token after its owner and the types in its signature. -/
theorem visitDefined (wf : target.symbols.WellFormed) {owner : TypeDefId} {key : RefKey}
    {types : List RefKey} {visitTypes : Emit Unit} (isType : ∀ t, key ≠ .type t)
    (foreign : target.isLocal owner ≠ true → ¬target.IsOwn key) (buildable : key.Buildable)
    (all : target.keyRefs key = target.definedRefs owner types key)
    (h : ∀ known, Collects target excused [] known visitTypes types) :
    Collects target excused [] known (target.visitDefined owner key visitTypes)
      (target.definedRefs owner types key) := by
  refine unlessReserved ?_ fun k hk => by rw [all]; exact hk
  unfold definedRefs at all ⊢
  by_cases own : target.isLocal owner = true
  · simpa only [own, if_true] using mark isType
  · simp only [own] at all ⊢
    rw [List.append_assoc]
    refine andThen (visitNamed wf owner)
      (andThen (h _) (reserve wf (foreign own) buildable fun k hk => ?_))
    rw [all] at hk
    simpa [or_assoc] using Or.inr hk

theorem visitField (wf : target.symbols.WellFormed) (f : FieldId) :
    Collects target excused [] known (target.visitField f) (target.fieldRefs f) :=
  visitDefined wf nofun id trivial rfl fun _ => visitSignatureTy wf _

theorem visitMethod (wf : target.symbols.WellFormed) (m : MethodId) :
    Collects target excused [] known (target.visitMethod m) (target.methodRefs m) :=
  visitDefined wf nofun id trivial rfl fun _ => visitSignature wf _

/-- A member seen through a container gets its token after the container and the member. -/
theorem specialized (wf : target.symbols.WellFormed) (open_ : MemberRef) {closed : MemberRef}
    {container : Ty} {visitOpen : Emit Unit}
    (foreign : ¬target.IsOwn (.member closed))
    (all : target.memberRefs closed =
      target.tokenRefs container ++ target.memberRefs open_ ++ [.member closed])
    (h : ∀ known, Collects target excused [] known visitOpen (target.memberRefs open_)) :
    Collects target excused [] known
      (Emit.unlessReserved (.member closed) do
        target.visitTy container; visitOpen; Emit.reserve (.member closed))
      (target.memberRefs closed) := by
  refine unlessReserved ?_ fun k hk => hk
  rw [all, List.append_assoc]
  refine andThen (visitTy wf container) (andThen (h _) (reserve wf foreign trivial fun k hk => ?_))
  rw [keyRefs, all] at hk
  simpa [or_assoc] using Or.inr (List.mem_append.mp hk)

theorem visitMember (wf : target.symbols.WellFormed) (m : MemberRef) :
    Collects target excused [] known (target.visitMember m) (target.memberRefs m) := by
  induction m generalizing known with
  | field f => exact visitField wf f
  | method m => exact visitMethod wf m
  | specializedField f container => exact specialized wf (.field f) id rfl fun _ => visitField wf f
  | specializedMethod m container => exact specialized wf (.method m) id rfl fun _ => visitMethod wf m
  | methodInstance m args ih =>
    refine unlessReserved ?_ fun k hk => hk
    rw [memberRefs, List.append_assoc]
    refine andThen ih (andThen (visitArgs wf args (by simp)) (reserve wf id trivial fun k hk => ?_))
    rw [keyRefs, memberRefs] at hk
    simpa [or_assoc] using Or.inr (List.mem_append.mp hk)

theorem arrayMethod_eq_ok {kind : ArrayMethodKind} {arrayTy : Ty} {session later : Session}
    {method : ArrayMethod} {pending : List Ty} (sound : session.Sound target excused pending)
    (h : arrayMethod kind arrayTy session = .ok method later) :
    ArrayMethod.build kind arrayTy = .ok method ∧ later.Sound target excused pending ∧
      later.tokens = session.tokens := by
  rw [arrayMethod_eq] at h
  split at h
  next method' cache got =>
    cases h
    obtain ⟨built, cached⟩ := ArrayMethodCache.get_eq_ok sound.cached got
    exact ⟨built, ⟨sound.closed, sound.settled, sound.ordered, sound.filed, cached⟩, rfl⟩
  next => cases h

/-- A member of an array type is made the same way however often it is asked for. -/
theorem arrayMethodThen {kind : ArrayMethodKind} {arrayTy : Ty} {visit : ArrayMethod → Emit Unit}
    {refs : List RefKey} {pending : List Ty}
    (h : ∀ method, ArrayMethod.build kind arrayTy = .ok method →
      Collects target excused pending known (visit method) refs) :
    Collects target excused pending known (do let method ← arrayMethod kind arrayTy; visit method)
      refs := by
  intro session later sound hk hv
  obtain ⟨method, middle, ha, hv⟩ := bind_eq_ok.mp hv
  obtain ⟨built, sound₁, ht⟩ := arrayMethod_eq_ok sound ha
  have same := Session.held_congr excused ht
  obtain ⟨sound₂, hr⟩ := h method built _ _ sound₁ (fun k hm => (same k).mpr (hk k hm)) hv
  exact ⟨sound₂, fun k => by rw [hr, same]⟩

theorem visitArrayMethod (wf : target.symbols.WellFormed) (kind : ArrayMethodKind)
    (arrayTy : Ty) :
    Collects target excused [] known (target.visitArrayMethod kind arrayTy)
      (target.arrayMethodRefs kind arrayTy) := by
  refine unlessReserved ?_ fun k hk => hk
  refine arrayMethodThen fun method built => ?_
  have all : target.arrayMethodRefs kind arrayTy =
      target.tokenRefs arrayTy ++ (target.signatureRefs method.signature ++
        [.arrayMethod kind arrayTy]) := by
    simp only [arrayMethodRefs, built, List.append_assoc]
  rw [all]
  refine andThen (visitTy wf arrayTy) (andThen (visitSignature wf method.signature)
    (reserve wf id ⟨method, built⟩ fun k hk => ?_))
  rw [keyRefs, all] at hk
  simpa [or_assoc] using Or.inr (List.mem_append.mp hk)

theorem visitTypeDef (wf : target.symbols.WellFormed) (d : TypeDefId) :
    Collects target excused [] known (target.visitTypeDef d) (target.typeDefRefs d) := by
  have members : ∀ known, Collects target excused [] known
      (do target.visitSignatureTys
            ((target.symbols.typeDef d).fields.map fun f => (target.symbols.field f).ty)
          (target.symbols.typeDef d).methods.forM fun m =>
            target.visitSignature (target.symbols.method m).signature)
      (((target.symbols.typeDef d).fields.flatMap fun f =>
          target.embeddedRefs (target.symbols.field f).ty) ++
        (target.symbols.typeDef d).methods.flatMap fun m =>
          target.signatureRefs (target.symbols.method m).signature) := by
    intro known
    refine andThen ?_ (forM fun m _ => visitSignature wf _)
    exact (visitSignatureTys wf _).congr fun k => by simp [List.flatMap_map]
  unfold Target.visitTypeDef typeDefRefs
  dsimp only
  rw [List.append_assoc]
  cases (target.symbols.typeDef d).base with
  | none => exact members known
  | some base => exact (visitTy wf base).andThen (members _)

theorem visitDefinitions (wf : target.symbols.WellFormed) :
    Collects target excused [] known target.visitDefinitions
      (target.typeDefs.flatMap target.typeDefRefs) :=
  forM fun d _ => visitTypeDef wf d

end Emit.Collects

end ManagedCode
