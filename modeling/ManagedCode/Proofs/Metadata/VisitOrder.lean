import Mathlib.Data.List.Perm.Subperm
import ManagedCode.Proofs.Metadata.ExploredVisits
import ManagedCode.Proofs.Metadata.Requests

namespace ManagedCode

/-! What a session ends with does not depend on the order in which references are visited. -/

namespace Session

variable {target : Target} {base session goal : Session} {key : RefKey} {t : Ty}

/-- A session was reached from another one by visits that all succeeded. -/
structure Reaches (base : Session) (target : Target) (goal : Session) : Prop where
  tidy : goal.Tidy target
  grounded : ∀ {key}, goal.Reserved key → base.Reserved key ∨ goal.Grounded target key
  opened : base.Opens target goal

/-- What is in the reached session is in the other one already, or what it needs is there. -/
theorem Reaches.sighted (h : base.Reaches target goal) (built : ∀ d, t ≠ .named d)
    (sighted : goal.Sighted t) : base.Sighted t ∨ ∀ need ∈ t.needs, goal.Meets target need := by
  rcases sighted with seen | reserved
  · exact (h.opened seen).imp_left .inl
  · exact (h.grounded reserved).imp .inr fun grounded need mem =>
      grounded.needs need (target.needs_type built ▸ mem)

/-- A reference with a token in the other session finds its table with room for one more row. -/
theorem Tidy.exists_reserveIn (tidy : session.Tidy target) (full : goal.Tidy target)
    (below : session.Below goal) (due : goal.Reserved key) :
    ∃ token later, Emit.reserveIn key key.table session = .ok token later := by
  rw [Emit.reserveIn_eq]
  cases served : TokenTable.reserve key key.table session.tokens with
  | ok token later => exact ⟨_, _, rfl⟩
  | error fault later =>
    obtain ⟨-, -, absent, taken⟩ := TokenTable.reserve_eq_error served
    have distinct : (key :: session.tokens.rows key.table).Nodup :=
      List.nodup_cons.mpr ⟨fun mem => absent (tidy.filed.mem_rows.mp mem).1,
        tidy.filed.nodup_rows _⟩
    have among : key :: session.tokens.rows key.table ⊆ goal.tokens.rows key.table := by
      refine List.cons_subset.mpr ⟨full.filed.mem_rows.mpr ⟨due, rfl⟩, fun k mem => ?_⟩
      obtain ⟨reserved, same⟩ := tidy.filed.mem_rows.mp mem
      exact full.filed.mem_rows.mpr ⟨below.reserved reserved, same⟩
    have fewer := (List.subperm_of_subset distinct among).length_le
    have room := full.filed.room key.table
    rw [List.length_cons] at fewer
    omega

end Session

/-- Wherever a session lies between the two others, a visit succeeds and leaves it so. -/
def Emit.Fits (target : Target) (base goal : Session) (visit : Emit Unit) : Prop :=
  ∀ session : Session, session.Tidy target → base.Below session → session.Below goal →
    ∃ later, visit session = .ok () later ∧ later.Tidy target ∧ base.Below later ∧ later.Below goal

namespace Emit.Fits

open Emit

variable {target : Target} {base goal : Session} {visit visit' : Emit Unit} {key : RefKey} {t : Ty}

theorem nothing : Fits target base goal (pure ()) :=
  fun session tidy above below => ⟨session, rfl, tidy, above, below⟩

theorem andThen (h : Fits target base goal visit) (h' : Fits target base goal visit') :
    Fits target base goal (do visit; visit') := by
  intro session tidy above below
  obtain ⟨middle, run, tidy, above, below⟩ := h session tidy above below
  obtain ⟨later, run', done⟩ := h' middle tidy above below
  exact ⟨later, (bind_of_ok run).trans run', done⟩

theorem forM {α : Type} {f : α → Emit Unit} {l : List α}
    (h : ∀ a ∈ l, Fits target base goal (f a)) : Fits target base goal (l.forM f) := by
  induction l with
  | nil => exact nothing
  | cons a l ih =>
    exact (h a List.mem_cons_self).andThen (ih fun b hb => h b (List.mem_cons_of_mem a hb))

/-- What had its token from the start is not visited. -/
theorem unlessReserved (h : base.Reserved key ∨ Fits target base goal visit) :
    Fits target base goal (unlessReserved key visit) := by
  intro session tidy above below
  rw [unlessReserved_eq]
  split
  next => exact ⟨session, rfl, tidy, above, below⟩
  next free =>
    refine (h.resolve_left fun held => free ?_) session tidy above below
    exact Session.reserved_iff_contains.mpr (above.reserved held)

/-- A session with one more mark lies between the two others if the marked type is in the last. -/
theorem mark (due : ∀ t, key = .type t → goal.Sighted t) :
    Fits target base goal (discard (markSeen key)) := by
  intro session tidy above below
  obtain ⟨later, run, tokens, methods, seen⟩ := exists_mark session key
  have reserved : ∀ {k}, later.Reserved k ↔ session.Reserved k :=
    Session.reserved_congr (congrArg _ tokens)
  have more : session.Below later :=
    ⟨reserved.mpr, fun sighted => sighted.imp (fun mem => (seen _).mpr (.inl mem)) reserved.mpr⟩
  refine ⟨later, run, tidy.of_eq tokens (methods ▸ tidy.cached), above.trans more,
    ⟨fun held => below.reserved (reserved.mp held), ?_⟩⟩
  rintro t (mem | held)
  · exact ((seen _).mp mem).elim (fun old => below.sighted (.inl old)) fun new => due t new.symm
  · exact below.sighted (.inr (reserved.mp held))

theorem firstSight (h : base.Sighted t ∨ Fits target base goal visit) (due : goal.Sighted t) :
    Fits target base goal (Target.firstSight t visit) := by
  intro session tidy above below
  unfold Target.firstSight
  rw [unlessReserved_eq]
  split
  next => exact ⟨session, rfl, tidy, above, below⟩
  next free =>
    rw [markSeen_then]
    split
    next => exact ⟨session, rfl, tidy, above, below⟩
    next unseen =>
      have visits : Fits target base goal visit := by
        refine h.resolve_left fun sighted => ?_
        rcases above.sighted sighted with seen | held
        · exact unseen (Session.hasSeen_iff.mpr seen)
        · exact free (Session.reserved_iff_contains.mpr held)
      refine andThen (mark ?_) visits session tidy above below
      rintro _ ⟨⟩
      exact due

theorem reserve (full : goal.Tidy target) (foreign : ¬target.IsOwn key) (due : goal.Reserved key) :
    Fits target base goal (reserve key) := by
  have marks : Fits target base goal (discard (markSeen key)) := mark (by rintro t rfl; exact .inr due)
  refine marks.andThen fun session tidy above below => ?_
  obtain ⟨token, later, run⟩ := tidy.exists_reserveIn full below due
  have tidy' := Tidies.reserveIn foreign session tidy
  rw [run] at tidy'
  obtain ⟨-, seen, filed⟩ := reserveIn_eq_ok run
  have reserved : ∀ {k}, later.Reserved k ↔ session.Reserved k ∨ k = key :=
    fun {k} => reserved_of_filed filed k
  have more : session.Below later := ⟨fun held => reserved.mpr (.inl held), fun sighted =>
    sighted.imp (fun mem => seen ▸ mem) fun held => reserved.mpr (.inl held)⟩
  have kept : ∀ {k}, later.Reserved k → goal.Reserved k := fun held =>
    (reserved.mp held).elim below.reserved fun same => same ▸ due
  refine ⟨_, bind_of_ok run, tidy', above.trans more, kept, ?_⟩
  rintro t (mem | held)
  · exact below.sighted (.inl (seen ▸ mem))
  · exact .inr (kept held)

/-! Everything that is visited fits where what it asks for is in the reached session. -/

theorem visitAssembly (full : goal.Tidy target) {a : AssemblyId}
    (due : goal.Meets target (.assembly a)) : Fits target base goal (target.visitAssembly a) := by
  unfold Target.visitAssembly
  rw [Session.Meets, Target.assemblyRefs] at due
  by_cases own : a = target.assembly
  · rw [if_neg (not_not_intro own)]
    exact nothing
  · rw [if_neg own] at due
    rw [if_pos own]
    exact reserve full id (due _ List.mem_cons_self)

theorem visitModule (full : goal.Tidy target) {m : ModuleId}
    (due : goal.Meets target (.module m)) : Fits target base goal (target.visitModule m) := by
  unfold Target.visitModule
  rw [Session.Meets, Target.moduleRefs] at due
  dsimp only at due ⊢
  by_cases own : m = target.module
  · rw [if_pos own]
    exact nothing
  · rw [if_neg own] at due ⊢
    by_cases near : (target.symbols.module m).assembly = target.assembly
    · rw [if_pos near] at due
      rw [if_neg (not_not_intro near)]
      have file : Fits target base goal (Emit.reserve (.file (target.symbols.module m).file)) :=
        reserve full id (due _ List.mem_cons_self)
      exact file.andThen (reserve full id (due _ (List.mem_cons_of_mem _ List.mem_cons_self)))
    · rw [if_neg near] at due
      rw [if_pos near]
      exact visitAssembly full due

/-- What has its token only in the reached session has what it needs there. -/
theorem unlessHeld (reaches : base.Reaches target goal) (due : goal.Reserved key)
    (h : goal.Grounded target key → Fits target base goal visit) :
    Fits target base goal (Emit.unlessReserved key visit) :=
  unlessReserved ((reaches.grounded due).imp_right h)

theorem visitNested (wf : target.symbols.WellFormed) (reaches : base.Reaches target goal)
    {enclosing : List TypeDefId} {d : TypeDefId}
    (h : (target.symbols.typeDef d).enclosing = enclosing)
    (due : goal.Meets target (.token (.type (.named d)))) :
    Fits target base goal (target.visitNested d enclosing) := by
  induction enclosing generalizing d with
  | nil =>
    unfold Target.visitNested
    by_cases own : target.isLocal d = true
    · rw [if_pos own]
      exact nothing
    · rw [if_neg own]
      have due := due.resolve_left own
      refine unlessHeld reaches due fun grounded => ?_
      have outside := grounded.needs
      rw [Target.needs, h] at outside
      exact (visitModule reaches.tidy (outside _ List.mem_cons_self)).andThen
        (reserve reaches.tidy own due)
  | cons outer rest ih =>
    unfold Target.visitNested
    by_cases own : target.isLocal d = true
    · rw [if_pos own]
      exact nothing
    · rw [if_neg own]
      have due := due.resolve_left own
      refine unlessHeld reaches due fun grounded => ?_
      have outside := grounded.needs
      rw [Target.needs, h] at outside
      exact (ih (wf.enclosing h).2.1 (outside _ List.mem_cons_self)).andThen
        (reserve reaches.tidy own due)

theorem visitNamed (wf : target.symbols.WellFormed) (reaches : base.Reaches target goal)
    {d : TypeDefId} (due : goal.Meets target (.token (.type (.named d)))) :
    Fits target base goal (target.visitNamed d) :=
  visitNested wf reaches rfl due

theorem sight (reaches : base.Reaches target goal) (built : ∀ d, t ≠ .named d)
    (due : goal.Meets target (.sight t))
    (h : (∀ need ∈ t.needs, goal.Meets target need) → Fits target base goal visit) :
    Fits target base goal (Target.firstSight t visit) := by
  rw [Session.meets_sight_iff built] at due
  exact firstSight ((reaches.sighted built due).imp_right h) due

mutual

theorem visitEmbedded (wf : target.symbols.WellFormed) (reaches : base.Reaches target goal)
    (inChain : Bool) (t : Ty)
    (due : goal.Meets target (.sight (if inChain then t.chainLeaf else t))) :
    Fits target base goal (target.visitEmbedded inChain t) := by
  cases t with
  | named d =>
    have due : goal.Meets target (.sight (.named d)) := by cases inChain <;> exact due
    exact visitNamed wf reaches due
  | inst d args =>
    have due : goal.Meets target (.sight (.inst d args)) := by cases inChain <;> exact due
    refine sight reaches nofun due fun all => ?_
    obtain ⟨named, args'⟩ := List.forall_mem_cons.mp all
    exact (visitNamed wf reaches named).andThen
      (visitArgs wf reaches args fun t mem => args' _ (List.mem_map_of_mem mem))
  | vector t | array t _ | pointer t =>
    unfold Target.visitEmbedded
    cases inChain with
    | true => exact visitEmbedded wf reaches true t due
    | false =>
      exact sight reaches (by nofun) due fun all =>
        visitEmbedded wf reaches true t (all _ List.mem_cons_self)
  | byRef t =>
    have due : goal.Meets target (.sight (.byRef t)) := by cases inChain <;> exact due
    exact sight reaches nofun due fun all =>
      visitEmbedded wf reaches false t (all _ List.mem_cons_self)
  | primitive _ | typeParam _ | methodParam _ =>
    cases inChain <;> exact sight reaches (by nofun) due fun _ => nothing

theorem visitArgs (wf : target.symbols.WellFormed) (reaches : base.Reaches target goal)
    (ts : List Ty) (due : ∀ t ∈ ts, goal.Meets target (.sight t)) :
    Fits target base goal (target.visitArgs ts) := by
  cases ts with
  | nil => exact nothing
  | cons t ts =>
    exact (visitEmbedded wf reaches false t (due t List.mem_cons_self)).andThen
      (visitArgs wf reaches ts fun u mem => due u (List.mem_cons_of_mem t mem))

end

theorem visitLeaf (wf : target.symbols.WellFormed) (reaches : base.Reaches target goal) {t : Ty}
    (due : goal.Meets target (.sight t.chainLeaf)) :
    Fits target base goal (target.visitEmbedded true t.chainLeaf) :=
  visitEmbedded wf reaches true _ (by rwa [if_pos rfl, Ty.chainLeaf_chainLeaf])

theorem visitSignatureTy (wf : target.symbols.WellFormed) (reaches : base.Reaches target goal)
    {t : Ty} (due : goal.Meets target (.sight t.stripByRef)) :
    Fits target base goal (target.visitSignatureTy t) :=
  visitEmbedded wf reaches false _ due

theorem visitSignatureTys (wf : target.symbols.WellFormed) (reaches : base.Reaches target goal)
    {ts : List Ty} (due : ∀ t ∈ ts, goal.Meets target (.sight t.stripByRef)) :
    Fits target base goal (target.visitSignatureTys ts) := by
  induction ts with
  | nil => exact nothing
  | cons t ts ih =>
    exact (visitSignatureTy wf reaches (due t List.mem_cons_self)).andThen
      (ih fun u mem => due u (List.mem_cons_of_mem t mem))

theorem visitSignature (wf : target.symbols.WellFormed) (reaches : base.Reaches target goal)
    {signature : MethodSignature} (due : ∀ need ∈ signature.needs, goal.Meets target need) :
    Fits target base goal (target.visitSignature signature) := by
  obtain ⟨params, ret⟩ := List.forall_mem_append.mp due
  exact (visitSignatureTys wf reaches fun t mem => params _ (List.mem_map_of_mem mem)).andThen
    (visitSignatureTy wf reaches (ret _ List.mem_cons_self))

theorem visitTy (wf : target.symbols.WellFormed) (reaches : base.Reaches target goal) {t : Ty}
    (due : goal.Meets target (.token (.type t))) : Fits target base goal (target.visitTy t) := by
  have marked : ∀ u, RefKey.type t = .type u → goal.Reserved (.type t) → goal.Sighted u := by
    rintro _ ⟨⟩
    exact .inr
  cases t with
  | named d =>
    exact unlessReserved (.inr (visitNamed wf reaches due))
  | byRef t =>
    have due := due.resolve_left id
    exact unlessHeld reaches due fun grounded => absurd rfl (grounded.notByRef t)
  | inst d args =>
    have due := due.resolve_left id
    refine unlessHeld reaches due fun grounded => ?_
    obtain ⟨named, args'⟩ := List.forall_mem_cons.mp grounded.needs
    exact (mark fun u same => marked u same due).andThen
      ((visitNamed wf reaches named).andThen
        ((visitArgs wf reaches args fun t mem => args' _ (List.mem_map_of_mem mem)).andThen
          (reserve reaches.tidy nofun due)))
  | primitive _ | typeParam _ | methodParam _ | vector _ | array _ _ | pointer _ =>
    have due := due.resolve_left id
    refine unlessHeld reaches due fun grounded => ?_
    exact (mark fun u same => marked u same due).andThen
      ((visitLeaf wf reaches (grounded.needs _ List.mem_cons_self)).andThen
        (reserve reaches.tidy nofun due))

theorem visitDefined (wf : target.symbols.WellFormed) (reaches : base.Reaches target goal)
    {owner : TypeDefId} {visitTypes : Emit Unit} {needs : List Need} (isType : ∀ t, key ≠ .type t)
    (own_iff : target.IsOwn key ↔ target.isLocal owner = true)
    (ready : target.needs key = .token (.type (.named owner)) :: needs)
    (h : (∀ need ∈ needs, goal.Meets target need) → Fits target base goal visitTypes)
    (due : goal.Meets target (.token key)) :
    Fits target base goal (target.visitDefined owner key visitTypes) := by
  unfold Target.visitDefined
  by_cases own : target.isLocal owner = true
  · rw [if_pos own]
    exact unlessReserved (.inr (mark fun t same => absurd same (isType t)))
  · rw [if_neg own]
    have foreign : ¬target.IsOwn key := own_iff.not.mpr own
    have due := due.resolve_left foreign
    refine unlessHeld reaches due fun grounded => ?_
    obtain ⟨named, types⟩ := List.forall_mem_cons.mp (ready ▸ grounded.needs)
    exact (visitNamed wf reaches named).andThen
      ((h types).andThen (reserve reaches.tidy foreign due))

theorem visitField (wf : target.symbols.WellFormed) (reaches : base.Reaches target goal)
    {f : FieldId} (due : goal.Meets target (.token (.member (.field f)))) :
    Fits target base goal (target.visitField f) :=
  visitDefined wf reaches nofun .rfl rfl
    (fun types => visitSignatureTy wf reaches (types _ List.mem_cons_self)) due

theorem visitMethod (wf : target.symbols.WellFormed) (reaches : base.Reaches target goal)
    {m : MethodId} (due : goal.Meets target (.token (.member (.method m)))) :
    Fits target base goal (target.visitMethod m) :=
  visitDefined wf reaches nofun .rfl rfl (visitSignature wf reaches) due

/-- A member that is built from two other things gets its token after both. -/
theorem built (reaches : base.Reaches target goal) {m : MemberRef} {first second : Emit Unit}
    (foreign : ¬target.IsOwn (.member m)) (due : goal.Meets target (.token (.member m)))
    (h : (∀ need ∈ target.needs (.member m), goal.Meets target need) →
      Fits target base goal first ∧ Fits target base goal second) :
    Fits target base goal
      (Emit.unlessReserved (.member m) do first; second; Emit.reserve (.member m)) := by
  have due := due.resolve_left foreign
  refine unlessHeld reaches due fun grounded => ?_
  obtain ⟨before, after⟩ := h grounded.needs
  exact before.andThen (after.andThen (reserve reaches.tidy foreign due))

theorem visitMember (wf : target.symbols.WellFormed) (reaches : base.Reaches target goal)
    {m : MemberRef} (due : goal.Meets target (.token (.member m))) :
    Fits target base goal (target.visitMember m) := by
  induction m with
  | field f => exact visitField wf reaches due
  | method m => exact visitMethod wf reaches due
  | specializedField f container =>
    refine built reaches id due fun needs => ?_
    obtain ⟨outer, inner⟩ := List.forall_mem_cons.mp needs
    exact ⟨visitTy wf reaches outer, visitField wf reaches (inner _ List.mem_cons_self)⟩
  | specializedMethod m container =>
    refine built reaches id due fun needs => ?_
    obtain ⟨outer, inner⟩ := List.forall_mem_cons.mp needs
    exact ⟨visitTy wf reaches outer, visitMethod wf reaches (inner _ List.mem_cons_self)⟩
  | methodInstance m args ih =>
    refine built reaches id due fun needs => ?_
    obtain ⟨generic, args'⟩ := List.forall_mem_cons.mp needs
    exact ⟨ih generic, visitArgs wf reaches args fun t mem => args' _ (List.mem_map_of_mem mem)⟩

theorem visitArrayMethod (wf : target.symbols.WellFormed) (reaches : base.Reaches target goal)
    {kind : ArrayMethodKind} {arrayTy : Ty}
    (due : goal.Meets target (.token (.arrayMethod kind arrayTy))) :
    Fits target base goal (target.visitArrayMethod kind arrayTy) := by
  have due := due.resolve_left id
  refine unlessHeld reaches due fun grounded => ?_
  obtain ⟨method, built⟩ := grounded.buildable
  obtain ⟨outer, types⟩ := List.forall_mem_cons.mp grounded.needs
  rw [built] at types
  have visits := (visitTy wf reaches outer).andThen ((visitSignature wf reaches types).andThen
    (reserve reaches.tidy id due))
  intro session tidy above below
  obtain ⟨methods, got, cached⟩ := ArrayMethodCache.get_of_build tidy.cached built
  have run : arrayMethod kind arrayTy session =
      .ok method { session with arrayMethods := methods } := by
    rw [arrayMethod_eq, got]
  rw [bind_of_ok run]
  exact visits _ (tidy.of_eq rfl cached) ⟨above.reserved, above.sighted⟩
    ⟨below.reserved, below.sighted⟩

theorem visitReference (wf : target.symbols.WellFormed) (reaches : base.Reaches target goal)
    {r : Reference} (due : goal.Meets target r.need) :
    Fits target base goal (target.visitReference r) := by
  cases r with
  | assembly a => exact visitAssembly reaches.tidy due
  | module m => exact visitModule reaches.tidy due
  | type t => exact visitTy wf reaches due
  | signature t => exact visitSignatureTy wf reaches due
  | member m => exact visitMember wf reaches due
  | arrayMethod kind t => exact visitArrayMethod wf reaches due

end Emit.Fits

namespace Target

variable {target : Target} {base goal : Session} {nodes nodes' : List Node}

/-- What visits of nodes that all succeed lead to. -/
theorem reaches_visitNodes (wf : target.symbols.WellFormed) (tidy : base.Tidy target)
    (run : target.visitNodes nodes base = .ok () goal) :
    base.Below goal ∧ base.Reaches target goal ∧
      ∀ node ∈ nodes, target.visitNode node = target.visitReferences node.references ∧
        ∀ r ∈ node.references, goal.Meets target r.need := by
  have explores : Emit.Explores target
      ((nodes.flatMap Node.references).flatMap target.referenceRefs) []
      (target.visitNodes nodes) _ := Emit.Explores.forM fun node among _ =>
    Emit.Explores.visitNode wf node fun r mem k hk =>
      List.mem_flatMap.mpr ⟨r, List.mem_flatMap.mpr ⟨node, among, mem⟩, hk⟩
  obtain ⟨grows, ok⟩ := explores base tidy.cached nofun
  obtain ⟨opens, met⟩ := ok goal run
  have tidy' := Emit.Tidies.forM Emit.Tidies.visitNode nodes base tidy
  rw [show nodes.forM target.visitNode base = .ok () goal from run] at tidy'
  rw [run] at grows
  exact ⟨grows.below, ⟨tidy', fun held => (grows.grounded held).imp_right And.right, opens⟩,
    fun node among => ⟨visitNode_of_visitNodes run node among, fun r mem =>
      met _ (List.mem_flatMap.mpr ⟨node, among, List.mem_map_of_mem mem⟩)⟩⟩

/-- The visits of some nodes include those of others. -/
def Covers (target : Target) (nodes nodes' : List Node) : Prop :=
  ∀ node' ∈ nodes', target.visitNode node' = pure () ∨
    ∃ node ∈ nodes, target.visitNode node' = target.visitNode node

/-- Nodes can be visited where others can that cover them, and no more has a token then. -/
theorem Covers.visitNodes (covers : target.Covers nodes nodes') (wf : target.symbols.WellFormed)
    (tidy : base.Tidy target) (run : target.visitNodes nodes base = .ok () goal) :
    ∃ goal', target.visitNodes nodes' base = .ok () goal' ∧ goal'.Below goal := by
  obtain ⟨below, reaches, visited⟩ := reaches_visitNodes wf tidy run
  have each : ∀ node' ∈ nodes', Emit.Fits target base goal (target.visitNode node') := by
    intro node' mem'
    rcases covers node' mem' with nothing | ⟨node, mem, same⟩
    · rw [nothing]
      exact Emit.Fits.nothing
    · obtain ⟨makesSense, met⟩ := visited node mem
      rw [same, makesSense]
      exact Emit.Fits.forM fun r hr => Emit.Fits.visitReference wf reaches (met r hr)
  obtain ⟨goal', run', -, -, below'⟩ := Emit.Fits.forM each base tidy .refl below
  exact ⟨goal', run', below'⟩

end Target

end ManagedCode
