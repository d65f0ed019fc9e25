import ManagedCode.Proofs.Metadata.Collect

namespace ManagedCode

namespace Ty

theorem sizeOf_chainLeaf_le (t : Ty) : sizeOf t.chainLeaf ≤ sizeOf t := by
  fun_induction chainLeaf t with
  | case1 element ih => simp only [vector.sizeOf_spec]; omega
  | case2 element rank ih => simp only [array.sizeOf_spec]; omega
  | case3 pointee ih => simp only [pointer.sizeOf_spec]; omega
  | case4 t => exact Nat.le_refl _

end Ty

namespace Emit.Collects

open Target

variable {target : Target} {pending : List Ty} {excused known : List RefKey}

/-- Visiting the elements of a list gives tokens to what each stands for. -/
theorem forM {α : Type} {visit : α → Emit Unit} {refs : α → List RefKey} {l : List α}
    (h : ∀ a ∈ l, Collects target excused pending known (visit a) (refs a)) :
    Collects target excused pending known (l.forM visit) (l.flatMap refs) := by
  induction l generalizing known with
  | nil => exact nothing
  | cons a l ih =>
    rw [List.flatMap_cons]
    refine andThen (h a List.mem_cons_self) (ih fun b hb => ?_)
    exact (h b (List.mem_cons_of_mem a hb)).weaken fun k hk => List.mem_append_left _ hk

theorem visitAssembly (wf : target.symbols.WellFormed) (a : AssemblyId) :
    Collects target excused pending known (target.visitAssembly a) (target.assemblyRefs a) := by
  unfold Target.visitAssembly assemblyRefs
  by_cases own : a = target.assembly
  · simpa [own] using nothing
  · simp only [ne_eq, own, not_false_eq_true, if_true, if_false]
    exact reserve wf nofun trivial fun k hk => .inr (List.mem_singleton.mp hk)

theorem visitModule (wf : target.symbols.WellFormed) (m : ModuleId) :
    Collects target excused pending known (target.visitModule m) (target.moduleRefs m) := by
  unfold Target.visitModule moduleRefs
  by_cases own : m = target.module
  · simpa only [own, if_true] using nothing
  · by_cases near : (target.symbols.module m).assembly = target.assembly
    · simp only [own, near, ne_eq, not_true_eq_false, if_true, if_false]
      have file : Collects target excused pending known
          (Emit.reserve (.file (target.symbols.module m).file)) _ :=
        reserve wf nofun trivial fun k hk => .inr (List.mem_singleton.mp hk)
      exact file.andThen (reserve wf nofun trivial fun k hk => .inr (List.mem_singleton.mp hk))
    · simp only [own, near, ne_eq, not_false_eq_true, if_true, if_false]
      exact visitAssembly wf _

/-- A link of a chain is passed over inside the chain. -/
theorem link {inChain : Bool} {t inner : Ty} {visit : Emit Unit}
    (same : t.mentions = inner.mentions) (new : t ∉ pending)
    (passed : Collects target excused pending known visit (target.embeddedRefs inner))
    (first : Collects target excused (t :: pending) known visit (target.embeddedRefs inner)) :
    Collects target excused pending known (if inChain then visit else Target.firstSight t visit)
      (target.embeddedRefs t) := by
  rw [embeddedRefs_congr same]
  split
  next => exact passed
  next => exact firstSight first (fun hm => absurd hm new) fun k => by rw [embeddedRefs_congr same]

theorem smaller_cons {size : Nat} {t : Ty} (small : size < sizeOf t)
    (larger : ∀ u ∈ pending, sizeOf t < sizeOf u) : ∀ u ∈ t :: pending, size < sizeOf u := by
  intro u hu
  rcases List.mem_cons.mp hu with rfl | hu
  · exact small
  · exact Nat.lt_trans small (larger u hu)

theorem visitNested (wf : target.symbols.WellFormed) {enclosing : List TypeDefId} {d : TypeDefId}
    (h : (target.symbols.typeDef d).enclosing = enclosing) :
    Collects target excused pending known (target.visitNested d enclosing)
      (target.nestedRefs d enclosing) := by
  have all : target.namedRefs d = target.nestedRefs d enclosing := by rw [namedRefs, h]
  induction enclosing generalizing d known with
  | nil =>
    unfold Target.visitNested
    unfold nestedRefs at all ⊢
    by_cases own : target.isLocal d = true
    · simpa only [own, if_true] using nothing
    · simp only [own] at all ⊢
      refine unlessReserved ?_ fun k hk => by rw [keyRefs_named, all]; exact hk
      refine andThen (visitModule wf _) (reserve wf own trivial fun k hk => ?_)
      rw [keyRefs_named, all] at hk
      simpa [or_assoc] using Or.inr (List.mem_append.mp hk)
  | cons outer rest ih =>
    obtain ⟨-, hrest, -⟩ := wf.enclosing h
    have outerRefs : target.namedRefs outer = target.nestedRefs outer rest := by
      rw [namedRefs, hrest]
    unfold Target.visitNested
    unfold nestedRefs at all ⊢
    by_cases own : target.isLocal d = true
    · simpa only [own, if_true] using nothing
    · simp only [own] at all ⊢
      refine unlessReserved ?_ fun k hk => by rw [keyRefs_named, all]; exact hk
      refine andThen (ih hrest outerRefs) (reserve wf own trivial fun k hk => ?_)
      rw [keyRefs_named, all] at hk
      simpa [or_assoc] using Or.inr (List.mem_append.mp hk)

theorem visitNamed (wf : target.symbols.WellFormed) (d : TypeDefId) :
    Collects target excused pending known (target.visitNamed d) (target.namedRefs d) :=
  visitNested wf rfl

mutual

/-- Every type that is pending is larger than the one that is visited, so that a type which is
not visited because it was seen has what it stands for. -/
theorem visitEmbedded (wf : target.symbols.WellFormed) {pending : List Ty} {known : List RefKey}
    (inChain : Bool) (t : Ty) (larger : ∀ u ∈ pending, sizeOf t < sizeOf u) :
    Collects target excused pending known (target.visitEmbedded inChain t) (target.embeddedRefs t) := by
  have new : t ∉ pending := fun hm => absurd (larger t hm) (Nat.lt_irrefl _)
  cases t with
  | primitive _ | typeParam _ | methodParam _ =>
    exact firstSight nothing (fun _ => rfl) fun k => Iff.rfl
  | named d =>
    rw [embeddedRefs_named]
    exact visitNamed wf d
  | inst d args =>
    rw [embeddedRefs_inst]
    have inside : ∀ u ∈ Ty.inst d args :: pending, sizeOf args < sizeOf u :=
      smaller_cons (by simp only [Ty.inst.sizeOf_spec]; omega) larger
    exact firstSight ((visitNamed wf d).andThen (visitArgs wf args inside))
      (fun hm => absurd hm new) fun k => by rw [embeddedRefs_inst]
  | vector t =>
    have small : sizeOf t < sizeOf (Ty.vector t) := by simp
    exact link rfl new (visitEmbedded wf true t fun u hu => Nat.lt_trans small (larger u hu))
      (visitEmbedded wf true t (smaller_cons small larger))
  | array t rank =>
    have small : sizeOf t < sizeOf (Ty.array t rank) := by
      simp only [Ty.array.sizeOf_spec]; omega
    exact link rfl new (visitEmbedded wf true t fun u hu => Nat.lt_trans small (larger u hu))
      (visitEmbedded wf true t (smaller_cons small larger))
  | pointer t =>
    have small : sizeOf t < sizeOf (Ty.pointer t) := by simp
    exact link rfl new (visitEmbedded wf true t fun u hu => Nat.lt_trans small (larger u hu))
      (visitEmbedded wf true t (smaller_cons small larger))
  | byRef t =>
    have small : sizeOf t < sizeOf (Ty.byRef t) := by simp
    exact firstSight (visitEmbedded wf false t (smaller_cons small larger))
      (fun hm => absurd hm new) fun k => by rw [embeddedRefs_congr rfl]

theorem visitArgs (wf : target.symbols.WellFormed) {pending : List Ty} {known : List RefKey}
    (ts : List Ty) (larger : ∀ u ∈ pending, sizeOf ts < sizeOf u) :
    Collects target excused pending known (target.visitArgs ts) (ts.flatMap target.embeddedRefs) := by
  cases ts with
  | nil => exact nothing
  | cons t ts =>
    rw [List.flatMap_cons]
    refine andThen (visitEmbedded wf false t fun u hu => ?_) (visitArgs wf ts fun u hu => ?_)
    all_goals
      have := larger u hu
      simp only [List.cons.sizeOf_spec] at this
      omega

end

theorem visitSignatureTy (wf : target.symbols.WellFormed) (t : Ty) :
    Collects target excused [] known (target.visitSignatureTy t) (target.embeddedRefs t) := by
  rw [← embeddedRefs_congr (Ty.mentions_stripByRef t)]
  exact visitEmbedded wf false t.stripByRef nofun

theorem reserveTy (wf : target.symbols.WellFormed) {t : Ty} (ht : t.isConstructed = true)
    (all : ∀ k ∈ target.embeddedRefs t, k ∈ known) :
    Collects target excused pending known (Emit.reserve (.type t)) [.type t] := by
  have foreign : ¬target.IsOwn (.type t) := by
    cases t with
    | named d => cases ht
    | _ => exact id
  refine reserve wf foreign trivial fun k hk => ?_
  simp only [keyRefs, tokenRefs, ht, if_true, List.mem_append, List.mem_singleton] at hk
  exact hk.imp_left (all k)

/-- A constructed type is marked, its parts are visited, and it gets its token. -/
theorem constructed (wf : target.symbols.WellFormed) {t : Ty} {visit : Emit Unit} (ht : t.isConstructed = true)
    (h : Collects target excused [t] known visit (target.embeddedRefs t)) :
    Collects target excused [] known (do discard (markSeen (.type t)); visit; Emit.reserve (.type t))
      (target.tokenRefs t) := by
  have all : target.tokenRefs t = target.embeddedRefs t ++ [.type t] := by simp [tokenRefs, ht]
  rw [all]
  refine markThen (h.andThen (reserveTy wf ht fun k hk => ?_)) fun k hk => ?_
  · exact List.mem_append_right _ hk
  · exact .inr (List.mem_append_left _ hk)

/-- Of a chain, only the type at its end is visited. -/
theorem chain (wf : target.symbols.WellFormed) {t : Ty} (ht : t.isConstructed = true)
    (shorter : sizeOf t.chainLeaf < sizeOf t) :
    Collects target excused [] known
      (do discard (markSeen (.type t)); target.visitEmbedded true t.chainLeaf
          Emit.reserve (.type t))
      (target.tokenRefs t) := by
  have leaf : Collects target excused [t] known (target.visitEmbedded true t.chainLeaf) _ :=
    visitEmbedded wf true t.chainLeaf (List.forall_mem_singleton.mpr shorter)
  rw [embeddedRefs_congr (Ty.mentions_chainLeaf t)] at leaf
  exact constructed wf ht leaf

theorem visitTy (wf : target.symbols.WellFormed) (t : Ty) :
    Collects target excused [] known (target.visitTy t) (target.tokenRefs t) := by
  refine unlessReserved ?_ fun k hk => hk
  cases t with
  | named d =>
    have all : target.tokenRefs (.named d) = target.namedRefs d := by
      simp [tokenRefs, Ty.isConstructed]
    rw [all]
    exact visitNamed wf d
  | byRef t =>
    -- a by-ref has no token, so that its visit cannot succeed
    intro session later _ _ h
    obtain ⟨_, _, _, h⟩ := bind_eq_ok.mp h
    cases h
  | inst d args =>
    have inside : ∀ u ∈ [Ty.inst d args], sizeOf args < sizeOf u :=
      List.forall_mem_singleton.mpr (by simp only [Ty.inst.sizeOf_spec]; omega)
    have all : target.tokenRefs (.inst d args) =
        target.namedRefs d ++ (args.flatMap target.embeddedRefs ++ [.type (.inst d args)]) := by
      simp only [tokenRefs, Ty.isConstructed, if_true, embeddedRefs_inst, List.append_assoc]
    rw [all]
    refine markThen ((visitNamed wf d).andThen ((visitArgs wf args inside).andThen
      (reserveTy wf rfl fun k hk => ?_))) fun k hk => ?_
    · rw [embeddedRefs_inst] at hk
      rw [List.append_assoc]
      exact List.mem_append_right _ hk
    · rw [embeddedRefs_inst] at hk
      rw [← List.append_assoc]
      exact .inr (List.mem_append_left _ hk)
  | primitive _ | typeParam _ | methodParam _ =>
    exact constructed wf rfl (firstSight nothing (fun _ => rfl) fun k => Iff.rfl)
  | vector t =>
    have := t.sizeOf_chainLeaf_le
    exact chain wf rfl (by simp only [Ty.chainLeaf, Ty.vector.sizeOf_spec]; omega)
  | array t rank =>
    have := t.sizeOf_chainLeaf_le
    exact chain wf rfl (by simp only [Ty.chainLeaf, Ty.array.sizeOf_spec]; omega)
  | pointer t =>
    have := t.sizeOf_chainLeaf_le
    exact chain wf rfl (by simp only [Ty.chainLeaf, Ty.pointer.sizeOf_spec]; omega)

theorem visitSignatureTys (wf : target.symbols.WellFormed) (ts : List Ty) :
    Collects target excused [] known (target.visitSignatureTys ts)
      (ts.flatMap target.embeddedRefs) := by
  induction ts generalizing known with
  | nil => exact nothing
  | cons t ts ih => exact (visitSignatureTy wf t).andThen ih

theorem visitSignature (wf : target.symbols.WellFormed) (signature : MethodSignature) :
    Collects target excused [] known (target.visitSignature signature)
      (target.signatureRefs signature) :=
  (visitSignatureTys wf signature.params).andThen (visitSignatureTy wf signature.ret)

end Emit.Collects

end ManagedCode
