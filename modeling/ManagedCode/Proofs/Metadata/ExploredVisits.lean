import ManagedCode.Proofs.Metadata.Explores
import ManagedCode.Proofs.Metadata.NodeVisits

namespace ManagedCode

/-! What the visits bring to a session, also those that fail. -/

namespace Emit.Explores

open Emit

variable {target : Target} {refs : List RefKey} {known : List Need} {next : Emit Unit}
  {key : RefKey}

theorem visitAssembly {a : AssemblyId} (due : ∀ k ∈ target.assemblyRefs a, k ∈ refs) :
    Explores target refs known (target.visitAssembly a) [.assembly a] := by
  unfold Target.visitAssembly
  by_cases own : a = target.assembly
  · rw [if_neg (not_not_intro own)]
    refine already fun session => List.forall_mem_singleton.mpr ?_
    rw [Session.Meets, Target.assemblyRefs, if_pos own]
    exact List.forall_mem_nil _
  · rw [Target.assemblyRefs, if_neg own] at due
    rw [if_pos own]
    have given : Explores target refs known (Emit.reserve (.assembly a)) _ :=
      reserve id trivial (by simp) due (List.forall_mem_nil _)
    refine given.imp fun session all => List.forall_mem_singleton.mpr ?_
    rw [Session.Meets, Target.assemblyRefs, if_neg own]
    exact List.forall_mem_singleton.mpr ((all _ List.mem_cons_self).resolve_left id)

theorem visitModule {m : ModuleId} (due : ∀ k ∈ target.moduleRefs m, k ∈ refs) :
    Explores target refs known (target.visitModule m) [.module m] := by
  unfold Target.visitModule
  unfold Target.moduleRefs at due
  dsimp only at due ⊢
  by_cases own : m = target.module
  · rw [if_pos own]
    refine already fun session => List.forall_mem_singleton.mpr ?_
    rw [Session.Meets, Target.moduleRefs, if_pos own]
    exact List.forall_mem_nil _
  by_cases near : (target.symbols.module m).assembly = target.assembly
  · rw [if_neg own, if_pos near] at due
    rw [if_neg own, if_neg (not_not_intro near)]
    have file : Explores target refs known (Emit.reserve (.file (target.symbols.module m).file)) _ :=
      reserve id trivial (by simp) (List.forall_mem_singleton.mpr (due _ List.mem_cons_self))
        (List.forall_mem_nil _)
    have itself : ∀ known, Explores target refs known (Emit.reserve (.module m)) _ := fun _ =>
      reserve id trivial (by simp) (List.forall_mem_singleton.mpr
        (due (.module m) (List.mem_cons_of_mem _ List.mem_cons_self))) (List.forall_mem_nil _)
    refine (file.andThen (itself _)).imp fun session all => List.forall_mem_singleton.mpr ?_
    rw [Session.Meets, Target.moduleRefs, if_neg own, if_pos near]
    have first := (all _ List.mem_cons_self).resolve_left id
    have second := (all _ (List.mem_cons_of_mem _ List.mem_cons_self)).resolve_left id
    exact List.forall_mem_cons.mpr ⟨first, List.forall_mem_singleton.mpr second⟩
  · rw [if_neg own, if_neg near] at due
    rw [if_neg own, if_pos near]
    refine (visitAssembly due).imp fun session all => List.forall_mem_singleton.mpr ?_
    rw [Session.Meets, Target.moduleRefs, if_neg own, if_neg near]
    exact all _ List.mem_cons_self

theorem visitNested (wf : target.symbols.WellFormed) {enclosing : List TypeDefId} {d : TypeDefId}
    (h : (target.symbols.typeDef d).enclosing = enclosing)
    (due : ∀ k ∈ target.namedRefs d, k ∈ refs) :
    Explores target refs known (target.visitNested d enclosing) [.token (.type (.named d))] := by
  induction enclosing generalizing d known with
  | nil =>
    unfold Target.visitNested
    by_cases own : target.isLocal d = true
    · rw [if_pos own]
      exact already fun _ => List.forall_mem_singleton.mpr (.inl own)
    · rw [if_neg own]
      rw [← Target.keyRefs_named] at due
      have outside : ∀ k ∈ target.moduleRefs (target.symbols.typeDef d).module, k ∈ refs := by
        intro k mem
        refine due k ?_
        rw [Target.keyRefs_named, Target.namedRefs, h, Target.nestedRefs, if_neg own]
        exact List.mem_append_left _ mem
      have ready : target.needs (.type (.named d)) = [.module (target.symbols.typeDef d).module] := by
        rw [Target.needs, h]
      have given : Explores target refs (known ++ target.needs (.type (.named d)))
          (Emit.reserve (.type (.named d))) _ :=
        reserve own trivial (by simp) due fun _ => List.mem_append_right _
      rw [ready] at given
      exact unlessReserved ((visitModule outside).before given) held_token
  | cons outer rest ih =>
    obtain ⟨-, hrest, -⟩ := wf.enclosing h
    unfold Target.visitNested
    by_cases own : target.isLocal d = true
    · rw [if_pos own]
      exact already fun _ => List.forall_mem_singleton.mpr (.inl own)
    · rw [if_neg own]
      rw [← Target.keyRefs_named] at due
      have outside : ∀ k ∈ target.namedRefs outer, k ∈ refs := by
        intro k mem
        refine due k ?_
        rw [Target.keyRefs_named, Target.namedRefs, h, Target.nestedRefs, if_neg own]
        rw [Target.namedRefs, hrest] at mem
        exact List.mem_append_left _ mem
      have ready : target.needs (.type (.named d)) = [.token (.type (.named outer))] := by
        rw [Target.needs, h]
      have given : Explores target refs (known ++ target.needs (.type (.named d)))
          (Emit.reserve (.type (.named d))) _ :=
        reserve own trivial (by simp) due fun _ => List.mem_append_right _
      rw [ready] at given
      exact unlessReserved ((ih hrest outside).before given) held_token

theorem visitNamed (wf : target.symbols.WellFormed) {d : TypeDefId}
    (due : ∀ k ∈ target.namedRefs d, k ∈ refs) :
    Explores target refs known (target.visitNamed d) [.token (.type (.named d))] :=
  visitNested wf rfl due

mutual

/-- In a chain, what is come across is the type at its end. -/
theorem visitEmbedded (wf : target.symbols.WellFormed) {known : List Need} (inChain : Bool) (t : Ty)
    (due : ∀ k ∈ target.embeddedRefs t, k ∈ refs) :
    Explores target refs known (target.visitEmbedded inChain t)
      [.sight (if inChain then t.chainLeaf else t)] := by
  cases t with
  | named d =>
    have given : Explores target refs known (target.visitNamed d) [.sight (.named d)] := by
      refine (visitNamed wf (Target.embeddedRefs_named d ▸ due)).imp fun session all => ?_
      have token := all _ List.mem_cons_self
      exact List.forall_mem_singleton.mpr token
    cases inChain <;> exact given
  | inst d args =>
    have parts := due
    rw [Target.embeddedRefs_inst] at parts
    have first : Explores target refs known (target.visitNamed d) _ :=
      visitNamed wf fun k mem => parts k (List.mem_append_left _ mem)
    have given := firstSight (first.andThen
      (visitArgs wf args fun k mem => parts k (List.mem_append_right _ mem))) (by nofun) due
      fun _ mem => .inr (List.mem_append_right _ mem)
    cases inChain <;> exact given
  | vector t | array t _ | pointer t =>
    have inside : ∀ known, Explores target refs known (target.visitEmbedded true t) _ :=
      fun _ => visitEmbedded wf true t due
    unfold Target.visitEmbedded
    cases inChain with
    | true => exact inside known
    | false =>
      exact firstSight (inside known) (by nofun) due fun _ mem =>
        .inr (List.mem_append_right _ mem)
  | byRef t =>
    have given : Explores target refs known (target.visitEmbedded inChain (.byRef t)) _ :=
      firstSight (visitEmbedded wf false t due) (by nofun) due
        fun _ mem => .inr (List.mem_append_right _ mem)
    cases inChain <;> exact given
  | primitive _ | typeParam _ | methodParam _ =>
    cases inChain <;>
      exact firstSight nothing (by nofun) due fun _ mem => .inl (List.mem_singleton.mp mem)

theorem visitArgs (wf : target.symbols.WellFormed) {known : List Need} (ts : List Ty)
    (due : ∀ k ∈ ts.flatMap target.embeddedRefs, k ∈ refs) :
    Explores target refs known (target.visitArgs ts) (ts.map .sight) := by
  cases ts with
  | nil => exact nothing
  | cons t ts =>
    rw [List.flatMap_cons] at due
    exact (visitEmbedded wf false t fun k mem => due k (List.mem_append_left _ mem)).andThen
      (visitArgs wf ts fun k mem => due k (List.mem_append_right _ mem))

end

theorem visitSignatureTy (wf : target.symbols.WellFormed) (t : Ty)
    (due : ∀ k ∈ target.embeddedRefs t, k ∈ refs) :
    Explores target refs known (target.visitSignatureTy t) [.sight t.stripByRef] := by
  rw [← Target.embeddedRefs_congr (Ty.mentions_stripByRef t)] at due
  exact visitEmbedded wf false _ due

theorem visitSignatureTys (wf : target.symbols.WellFormed) (ts : List Ty)
    (due : ∀ k ∈ ts.flatMap target.embeddedRefs, k ∈ refs) :
    Explores target refs known (target.visitSignatureTys ts)
      (ts.map fun t => .sight t.stripByRef) := by
  induction ts generalizing known with
  | nil => exact nothing
  | cons t ts ih =>
    rw [List.flatMap_cons] at due
    exact (visitSignatureTy wf t fun k mem => due k (List.mem_append_left _ mem)).andThen
      (ih fun k mem => due k (List.mem_append_right _ mem))

theorem visitSignature (wf : target.symbols.WellFormed) (signature : MethodSignature)
    (due : ∀ k ∈ target.signatureRefs signature, k ∈ refs) :
    Explores target refs known (target.visitSignature signature) signature.needs :=
  (visitSignatureTys wf _ fun k mem => due k (List.mem_append_left _ mem)).andThen
    (visitSignatureTy wf _ fun k mem => due k (List.mem_append_right _ mem))

theorem visitLeaf (wf : target.symbols.WellFormed) {t : Ty}
    (due : ∀ k ∈ target.embeddedRefs t, k ∈ refs) :
    Explores target refs known (target.visitEmbedded true t.chainLeaf) [.sight t.chainLeaf] := by
  rw [← Target.embeddedRefs_congr (Ty.mentions_chainLeaf t)] at due
  have leaf : Explores target refs known (target.visitEmbedded true t.chainLeaf) _ :=
    visitEmbedded wf true _ due
  rwa [if_pos rfl, Ty.chainLeaf_chainLeaf] at leaf

theorem reserveTy {t : Ty} (built : ∀ d, t ≠ .named d) (notByRef : ∀ u, t ≠ .byRef u)
    (due : ∀ k ∈ target.tokenRefs t, k ∈ refs) :
    Explores target refs (known ++ t.needs) (Emit.reserve (.type t)) [.token (.type t)] := by
  have foreign : ¬target.IsOwn (.type t) := by
    cases t with
    | named d => exact absurd rfl (built d)
    | _ => exact id
  exact reserve foreign trivial (fun u same => notByRef u (RefKey.type.inj same)) due
    fun need mem => List.mem_append_right _ (target.needs_type built ▸ mem)

/-- A constructed type is marked, what it needs is visited, and it gets its token. -/
theorem constructed {t : Ty} (built : ∀ d, t ≠ .named d)
    (h : Explores target refs known next (t.needs ++ [.token (.type t)]))
    (due : ∀ k ∈ target.tokenRefs t, k ∈ refs) :
    Explores target refs known (do discard (markSeen (.type t)); next) [.token (.type t)] := by
  have marked := markThen h built (fun k mem => due k (List.mem_append_left _ mem))
    fun need mem => .inr (List.mem_append_right _ (List.mem_append_left _ mem))
  exact marked.imp fun _ all => List.forall_mem_singleton.mpr (all _ (by simp))

theorem visitTy (wf : target.symbols.WellFormed) (t : Ty)
    (due : ∀ k ∈ target.tokenRefs t, k ∈ refs) :
    Explores target refs known (target.visitTy t) [.token (.type t)] := by
  refine unlessReserved ?_ held_token
  have inside : ∀ k ∈ target.embeddedRefs t, k ∈ refs :=
    fun k mem => due k (List.mem_append_left _ mem)
  cases t with
  | named d => exact visitNamed wf (Target.embeddedRefs_named d ▸ inside)
  | byRef t => exact constructed (by nofun) fails due
  | inst d args =>
    rw [Target.embeddedRefs_inst] at inside
    have first : Explores target refs known (target.visitNamed d) _ :=
      visitNamed wf fun k mem => inside k (List.mem_append_left _ mem)
    have second : ∀ known, Explores target refs known (target.visitArgs args) _ := fun _ =>
      visitArgs wf args fun k mem => inside k (List.mem_append_right _ mem)
    have last : ∀ known, Explores target refs (known ++ (Ty.inst d args).needs) _ _ := fun _ =>
      reserveTy nofun nofun due
    refine constructed (by nofun) (first.andThen ((second _).andThen ?_)) due
    rw [List.append_assoc]
    exact last known
  | primitive _ | typeParam _ | methodParam _ | vector _ | array _ _ | pointer _ =>
    exact constructed (by nofun)
      ((visitLeaf wf inside).andThen (reserveTy (by nofun) (by nofun) due)) due

theorem visitDefined (wf : target.symbols.WellFormed) {owner : TypeDefId} {types : List RefKey}
    {visitTypes : Emit Unit} {needs : List Need} (isType : ∀ t, key ≠ .type t)
    (own_iff : target.IsOwn key ↔ target.isLocal owner = true) (buildable : key.Buildable)
    (all : target.keyRefs key = target.definedRefs owner types key)
    (ready : target.needs key = .token (.type (.named owner)) :: needs)
    (h : (∀ k ∈ types, k ∈ refs) → ∀ known, Explores target refs known visitTypes needs)
    (due : ∀ k ∈ target.definedRefs owner types key, k ∈ refs) :
    Explores target refs known (target.visitDefined owner key visitTypes) [.token key] := by
  refine unlessReserved ?_ held_token
  by_cases own : target.isLocal owner = true
  · rw [if_pos own]
    exact (mark isType).imp fun _ _ => List.forall_mem_singleton.mpr (.inl (own_iff.mpr own))
  · rw [if_neg own]
    have parts := due
    rw [Target.definedRefs, if_neg own] at parts
    have first : Explores target refs known (target.visitNamed owner) _ :=
      visitNamed wf fun k mem => parts k (List.mem_append_left _ (List.mem_append_left _ mem))
    have second := h fun k mem => parts k (List.mem_append_left _ (List.mem_append_right _ mem))
    have last : Explores target refs (known ++ target.needs key) (Emit.reserve key) _ :=
      reserve (own_iff.not.mpr own) buildable (fun t => isType _) (all ▸ due)
        fun _ => List.mem_append_right _
    rw [ready] at last
    refine first.before ((second _).before ?_)
    rw [List.append_assoc]
    exact last

theorem visitField (wf : target.symbols.WellFormed) {f : FieldId}
    (due : ∀ k ∈ target.fieldRefs f, k ∈ refs) :
    Explores target refs known (target.visitField f) [.token (.member (.field f))] :=
  visitDefined wf nofun .rfl trivial rfl rfl (fun due _ => visitSignatureTy wf _ due) due

theorem visitMethod (wf : target.symbols.WellFormed) {m : MethodId}
    (due : ∀ k ∈ target.methodRefs m, k ∈ refs) :
    Explores target refs known (target.visitMethod m) [.token (.member (.method m))] :=
  visitDefined wf nofun .rfl trivial rfl rfl (fun due _ => visitSignature wf _ due) due

/-- A member that is built from two other things gets its token after both. -/
theorem built {m : MemberRef} {first second : Emit Unit} {needs needs' : List Need}
    (foreign : ¬target.IsOwn (.member m)) (ready : target.needs (.member m) = needs ++ needs')
    (h : ∀ known, Explores target refs known first needs)
    (h' : ∀ known, Explores target refs known second needs')
    (due : ∀ k ∈ target.memberRefs m, k ∈ refs) :
    Explores target refs known
      (Emit.unlessReserved (.member m) do first; second; Emit.reserve (.member m))
      [.token (.member m)] := by
  have last : Explores target refs (known ++ target.needs (.member m)) (Emit.reserve (.member m)) _ :=
    reserve foreign trivial nofun due fun _ => List.mem_append_right _
  rw [ready, ← List.append_assoc] at last
  exact unlessReserved ((h _).before ((h' _).before last)) held_token

theorem visitMember (wf : target.symbols.WellFormed) {m : MemberRef}
    (due : ∀ k ∈ target.memberRefs m, k ∈ refs) :
    Explores target refs known (target.visitMember m) [.token (.member m)] := by
  induction m generalizing known with
  | field f => exact visitField wf due
  | method m => exact visitMethod wf due
  | specializedField f container =>
    exact built id rfl
      (fun _ => visitTy wf container fun k mem =>
        due k (List.mem_append_left _ (List.mem_append_left _ mem)))
      (fun _ => visitField wf fun k mem =>
        due k (List.mem_append_left _ (List.mem_append_right _ mem))) due
  | specializedMethod m container =>
    exact built id rfl
      (fun _ => visitTy wf container fun k mem =>
        due k (List.mem_append_left _ (List.mem_append_left _ mem)))
      (fun _ => visitMethod wf fun k mem =>
        due k (List.mem_append_left _ (List.mem_append_right _ mem))) due
  | methodInstance m args ih =>
    exact built id rfl
      (fun _ => ih fun k mem => due k (List.mem_append_left _ (List.mem_append_left _ mem)))
      (fun _ => visitArgs wf args fun k mem =>
        due k (List.mem_append_left _ (List.mem_append_right _ mem))) due

theorem visitArrayMethod (wf : target.symbols.WellFormed) {kind : ArrayMethodKind} {arrayTy : Ty}
    (due : ∀ k ∈ target.arrayMethodRefs kind arrayTy, k ∈ refs) :
    Explores target refs known (target.visitArrayMethod kind arrayTy)
      [.token (.arrayMethod kind arrayTy)] := by
  refine unlessReserved ?_ held_token
  intro session cached hk
  cases got : session.arrayMethods.get kind arrayTy with
  | error misuse =>
    have run : arrayMethod kind arrayTy session = .error (.misuse misuse) session := by
      rw [arrayMethod_eq, got]
    rw [bind_of_error run]
    exact ⟨.refl, fun _ ran => by cases ran⟩
  | ok made =>
    obtain ⟨method, arrayMethods⟩ := made
    obtain ⟨built, cached'⟩ := ArrayMethodCache.get_eq_ok cached got
    have run : arrayMethod kind arrayTy session = .ok method { session with arrayMethods } := by
      rw [arrayMethod_eq, got]
    have parts := due
    simp only [Target.arrayMethodRefs, built] at parts
    have ready : target.needs (.arrayMethod kind arrayTy) =
        .token (.type arrayTy) :: method.signature.needs := by
      rw [Target.needs, built]
    have first : Explores target refs known (target.visitTy arrayTy) _ :=
      visitTy wf arrayTy fun k mem => parts k (List.mem_append_left _ (List.mem_append_left _ mem))
    have second : ∀ known, Explores target refs known (target.visitSignature method.signature) _ :=
      fun _ => visitSignature wf _ fun k mem =>
        parts k (List.mem_append_left _ (List.mem_append_right _ mem))
    have last : Explores target refs (known ++ target.needs (.arrayMethod kind arrayTy))
        (Emit.reserve (.arrayMethod kind arrayTy)) _ :=
      reserve id ⟨method, built⟩ (by simp) due fun _ => List.mem_append_right _
    rw [ready, List.append_cons] at last
    have grows : session.Grows target refs { session with arrayMethods } :=
      { seen := fun _ => id, reserved := id, marked := .inl, grounded := .inl
        cached := fun _ => cached' }
    obtain ⟨grows', ok⟩ := (first.before ((second _).before last)) _ cached' (grows.meetsAll hk)
    rw [bind_of_ok run]
    exact ⟨grows.trans grows', ok⟩

theorem visitReference (wf : target.symbols.WellFormed) (r : Reference)
    (due : ∀ k ∈ target.referenceRefs r, k ∈ refs) :
    Explores target refs known (target.visitReference r) [r.need] := by
  cases r with
  | assembly a => exact visitAssembly due
  | module m => exact visitModule due
  | type t => exact visitTy wf t due
  | signature t => exact visitSignatureTy wf t due
  | member m => exact visitMember wf due
  | arrayMethod kind t => exact visitArrayMethod wf due

theorem visitTypeDef (wf : target.symbols.WellFormed) (d : TypeDefId)
    (due : ∀ k ∈ target.typeDefRefs d, k ∈ refs) :
    Explores target refs known (target.visitTypeDef d) [] := by
  have fields : ∀ known, Explores target refs known (target.visitSignatureTys
      ((target.symbols.typeDef d).fields.map fun f => (target.symbols.field f).ty)) _ := fun _ =>
    visitSignatureTys wf _ fun k mem => due k
      (List.mem_append_left _ (List.mem_append_right _ (by simpa [List.flatMap_map] using mem)))
  have methods : ∀ known, Explores target refs known ((target.symbols.typeDef d).methods.forM fun m =>
      target.visitSignature (target.symbols.method m).signature) _ := fun _ =>
    forM fun m among _ => visitSignature wf _ fun k mem => due k
      (List.mem_append_right _ (List.mem_flatMap.mpr ⟨m, among, mem⟩))
  have members := fun known => (fields known).before (methods _)
  have none : ∀ {known visit met}, Explores target refs known visit met →
      Explores target refs known visit [] := fun h => h.imp fun _ _ => nofun
  unfold Target.visitTypeDef
  dsimp only
  cases base : (target.symbols.typeDef d).base with
  | none => exact none (members known)
  | some ty =>
    have first : Explores target refs known (target.visitTy ty) _ :=
      visitTy wf ty fun k mem => due k
        (List.mem_append_left _ (List.mem_append_left _ (by simpa [base] using mem)))
    exact none (first.before (members _))

theorem visitNode (wf : target.symbols.WellFormed) (node : Node)
    (due : ∀ r ∈ node.references, ∀ k ∈ target.referenceRefs r, k ∈ refs) :
    Explores target refs known (target.visitNode node) (node.references.map Reference.need) := by
  rcases Target.visitNode_eq node with ⟨fault, senseless⟩ | same
  · rw [senseless]
    exact fails
  · rw [same, List.map_eq_flatMap]
    exact forM fun r mem _ => visitReference wf r (due r mem)

/-- A walk brings what its nodes refer to. -/
theorem walkStmts (wf : target.symbols.WellFormed) (ss : List Stmt)
    (due : ∀ r ∈ Stmt.referencesAll ss, ∀ k ∈ target.referenceRefs r, k ∈ refs) :
    Explores target refs [] (target.walkStmts ss)
      ((Stmt.referencesAll ss).map Reference.need) := by
  rw [Stmt.referencesAll_eq] at due ⊢
  have each : ∀ node ∈ Stmt.nodesAll ss, ∀ known,
      Explores target refs known (target.visitNode node) _ := fun node among known =>
    visitNode wf node fun r mem => due r (List.mem_flatMap.mpr ⟨node, among, mem⟩)
  have all : Explores target refs [] (target.visitNodes (Stmt.nodesAll ss)) _ := forM each
  intro session cached _
  refine ⟨?_, fun later run => ?_⟩
  · refine Target.walkStmts_related
      (R := fun s t => s.arrayMethods.Cached → s.Grows target refs t) (fun _ _ => .refl)
      (fun first next cached => (first cached).trans (next ((first cached).cached cached)))
      (fun node among s cached => (each node among [] s cached nofun).1) session cached
  · rw [List.map_flatMap]
    exact (all session cached nofun).2 later (Target.walkStmts_eq_ok.mp run)

theorem visitBody (wf : target.symbols.WellFormed) (body : Body)
    (due : ∀ k ∈ target.visitRefs (.body body), k ∈ refs) :
    Explores target refs [] (target.visitBody body) (body.references.map Reference.need) := by
  have mentioned : ∀ r ∈ body.references, ∀ k ∈ target.referenceRefs r, k ∈ refs :=
    fun r mem k hk => due k (List.mem_flatMap.mpr ⟨r, mem, hk⟩)
  have locals : Explores target refs [] (target.visitSignatureTys (body.locals.map (·.ty)))
      ((body.locals.map (·.ty)).map fun t => .sight t.stripByRef) := by
    refine visitSignatureTys wf _ fun k mem => ?_
    obtain ⟨t, among, hk⟩ := List.mem_flatMap.mp mem
    obtain ⟨l, here, rfl⟩ := List.mem_map.mp among
    exact mentioned _ (Body.mem_references_of_local here) k hk
  have code := walkStmts wf body.root fun r mem => mentioned r (List.mem_append_right _ mem)
  have both := locals.andThen (code.weaken (fun _ => id) (fun _ => nofun) fun _ => id)
  rw [Body.references, List.map_append, List.map_map]
  rwa [List.map_map] at both

/-- Whether it succeeds or fails, a visit brings no more than what it stands for. -/
theorem visit (wf : target.symbols.WellFormed) (v : Visit) :
    Explores target (target.visitRefs v) [] (target.visit v) [] := by
  cases v with
  | reference r => exact (visitReference wf r fun _ => id).imp fun _ _ => nofun
  | definitions =>
    have all : Explores target _ [] target.visitDefinitions _ := forM fun d among _ =>
      visitTypeDef wf d fun k mem => List.mem_flatMap.mpr ⟨d, among, mem⟩
    exact all.imp fun _ _ => nofun
  | body body => exact (visitBody wf body fun _ => id).imp fun _ _ => nofun

end Emit.Explores

end ManagedCode
