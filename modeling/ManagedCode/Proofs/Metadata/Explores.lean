import ManagedCode.Proofs.Metadata.Needs
import ManagedCode.Proofs.Step

namespace ManagedCode

/-- A visit, begun where `known` is there, brings no more than `refs` even where it fails. Where it
succeeds `met` is there, and every type that it marked has what it needs. -/
def Emit.Explores (target : Target) (refs : List RefKey) (known : List Need) (visit : Emit Unit)
    (met : List Need) : Prop :=
  ∀ session : Session, session.arrayMethods.Cached →
    (∀ need ∈ known, session.Meets target need) →
      session.Grows target refs (finalState (visit session)) ∧
        ∀ later, visit session = .ok () later →
          session.Opens target later ∧ ∀ need ∈ met, later.Meets target need

namespace Emit.Explores

open Emit

variable {target : Target} {refs refs' : List RefKey} {known more met met' : List Need}
  {visit visit' : Emit Unit} {key : RefKey} {t : Ty}

theorem already (held : ∀ session : Session, ∀ need ∈ met, session.Meets target need) :
    Explores target refs known (pure ()) met := by
  refine fun session cached _ => ⟨.refl, fun later run => ?_⟩
  cases run
  exact ⟨Session.Opens.refl, held session⟩

theorem nothing : Explores target refs known (pure ()) [] := already fun _ => nofun

theorem fails {fault : Fault} : Explores target refs known (throw fault) met :=
  fun _ _ _ => ⟨.refl, nofun⟩

theorem weaken (h : Explores target refs known visit met) (sub : ∀ k ∈ refs, k ∈ refs')
    (less : ∀ need ∈ known, need ∈ more) (fewer : ∀ need ∈ met', need ∈ met) :
    Explores target refs' more visit met' := by
  intro session cached hk
  obtain ⟨grows, ok⟩ := h session cached fun need mem => hk need (less need mem)
  exact ⟨grows.mono sub, fun later run =>
    (ok later run).imp_right fun all need mem => all need (fewer need mem)⟩

theorem imp (h : Explores target refs known visit met)
    (enough : ∀ session : Session, (∀ need ∈ met, session.Meets target need) →
      ∀ need ∈ met', session.Meets target need) : Explores target refs known visit met' :=
  fun session cached hk => (h session cached hk).imp_right fun ok later run =>
    (ok later run).imp_right (enough later)

/-- What is there after the first visit is known to the second. -/
theorem andThen (first : Explores target refs known visit met)
    (second : Explores target refs (known ++ met) visit' met') :
    Explores target refs known (do visit; visit') (met ++ met') := by
  intro session cached hk
  obtain ⟨grows, ok⟩ := first session cached hk
  cases run : visit session with
  | error fault middle =>
    rw [run] at grows
    rw [bind_of_error run]
    exact ⟨grows, nofun⟩
  | ok u middle =>
    rw [run] at grows
    obtain ⟨opens, there⟩ := ok middle run
    obtain ⟨grows', ok'⟩ := second middle (grows.cached cached)
      (List.forall_mem_append.mpr ⟨grows.meetsAll hk, there⟩)
    rw [bind_of_ok run]
    refine ⟨grows.trans grows', fun later run' => ?_⟩
    obtain ⟨opens', there'⟩ := ok' later run'
    rw [run'] at grows'
    exact ⟨opens.trans grows' opens', List.forall_mem_append.mpr ⟨grows'.meetsAll there, there'⟩⟩

theorem before (first : Explores target refs known visit met)
    (second : Explores target refs (known ++ met) visit' met') :
    Explores target refs known (do visit; visit') met' :=
  (first.andThen second).imp fun _ all need mem => all need (List.mem_append_right _ mem)

theorem forM {α : Type} {f : α → Emit Unit} {needs : α → List Need} {l : List α}
    (h : ∀ a ∈ l, ∀ known, Explores target refs known (f a) (needs a)) :
    Explores target refs known (l.forM f) (l.flatMap needs) := by
  induction l generalizing known with
  | nil => exact nothing
  | cons a l ih =>
    exact (h a List.mem_cons_self known).andThen
      (ih fun b mem => h b (List.mem_cons_of_mem a mem))

/-- A reference that has its token needs no visit. -/
theorem unlessReserved (h : Explores target refs known visit met)
    (held : ∀ session : Session, session.Reserved key → ∀ need ∈ met, session.Meets target need) :
    Explores target refs known (unlessReserved key visit) met := by
  intro session cached hk
  rw [unlessReserved_eq]
  split
  next reserved =>
    refine ⟨.refl, fun later run => ?_⟩
    cases run
    exact ⟨Session.Opens.refl, held session (Session.reserved_iff_contains.mp reserved)⟩
  next => exact h session cached hk

theorem held_token : ∀ session : Session, session.Reserved key →
    ∀ need ∈ [Need.token key], session.Meets target need :=
  fun _ reserved => List.forall_mem_singleton.mpr (.inr reserved)

theorem grows_marked {session later : Session} (tokens : later.tokens = session.tokens)
    (arrayMethods : later.arrayMethods = session.arrayMethods)
    (seen : ∀ k, k ∈ later.seen ↔ k ∈ session.seen ∨ k = key)
    (named : ∀ t, key = .type t → ∀ k ∈ target.embeddedRefs t, k ∈ refs) :
    session.Grows target refs later where
  seen k mem := (seen k).mpr (.inl mem)
  reserved := (Session.reserved_congr (congrArg _ tokens)).mpr
  marked mem := ((seen _).mp mem).imp_right fun new => named _ new.symm
  grounded held := .inl ((Session.reserved_congr (congrArg _ tokens)).mp held)
  cached h := arrayMethods ▸ h

/-- Marking something that is not a type. -/
theorem mark (notType : ∀ t, key ≠ .type t) :
    Explores target refs known (discard (markSeen key)) [] := by
  intro session cached hk
  obtain ⟨later, run, tokens, arrayMethods, seen⟩ := exists_mark session key
  rw [run]
  refine ⟨grows_marked tokens arrayMethods seen fun t type => absurd type (notType t), ?_⟩
  rintro _ ⟨⟩
  exact ⟨fun mem => .inl (((seen _).mp mem).resolve_right fun new => notType _ new.symm), nofun⟩

/-- A type that is marked first has what it needs once this was visited. -/
theorem markThen (h : Explores target refs known visit met) (built : ∀ d, t ≠ .named d)
    (named : ∀ k ∈ target.embeddedRefs t, k ∈ refs)
    (ready : ∀ need ∈ t.needs, need = .sight t ∨ need ∈ known ++ met) :
    Explores target refs known (do discard (markSeen (.type t)); visit) (.sight t :: met) := by
  intro session cached hk
  obtain ⟨marked, run, tokens, arrayMethods, seen⟩ := exists_mark session (.type t)
  have grows : session.Grows target refs marked := by
    refine grows_marked tokens arrayMethods seen fun u same => ?_
    cases same
    exact named
  obtain ⟨grows', ok⟩ := h marked (grows.cached cached) (grows.meetsAll hk)
  rw [bind_of_ok run]
  refine ⟨grows.trans grows', fun later run' => ?_⟩
  obtain ⟨opens, there⟩ := ok later run'
  rw [run'] at grows'
  have sighted : later.Meets target (.sight t) :=
    (Session.meets_sight_iff built).mpr (.inl (grows'.seen _ ((seen _).mpr (.inr rfl))))
  refine ⟨fun {u} mem => ?_, List.forall_mem_cons.mpr ⟨sighted, there⟩⟩
  rcases opens mem with old | all
  · rcases (seen _).mp old with older | new
    · exact .inl older
    · cases new
      refine .inr fun need mem => ?_
      rcases ready need mem with rfl | mem
      · exact sighted
      · have all := List.forall_mem_append.mpr ⟨grows'.meetsAll (grows.meetsAll hk), there⟩
        exact all need mem
  · exact .inr all

/-- What a type inside a signature needs is visited at its first sight only. -/
theorem firstSight (h : Explores target refs known visit met) (built : ∀ d, t ≠ .named d)
    (named : ∀ k ∈ target.embeddedRefs t, k ∈ refs)
    (ready : ∀ need ∈ t.needs, need = .sight t ∨ need ∈ known ++ met) :
    Explores target refs known (Target.firstSight t visit) [.sight t] := by
  have sights : ∀ session : Session, session.Sighted t →
      ∀ need ∈ [Need.sight t], session.Meets target need := fun session sighted =>
    List.forall_mem_singleton.mpr ((Session.meets_sight_iff built).mpr sighted)
  refine unlessReserved ?_ fun session reserved => sights session (.inr reserved)
  intro session cached hk
  rw [markSeen_then]
  split
  next seen =>
    refine ⟨.refl, ?_⟩
    rintro _ ⟨⟩
    exact ⟨Session.Opens.refl, sights session (.inl (Session.hasSeen_iff.mp seen))⟩
  next =>
    obtain ⟨grows, ok⟩ := markThen h built named ready session cached hk
    exact ⟨grows, fun later run => (ok later run).imp_right fun all =>
      List.forall_mem_singleton.mpr (all _ List.mem_cons_self)⟩

/-- A reference gets its token after everything that it needs. -/
theorem reserve (foreign : ¬target.IsOwn key) (buildable : key.Buildable)
    (notByRef : ∀ t, key ≠ .type (.byRef t)) (among : ∀ k ∈ target.keyRefs key, k ∈ refs)
    (ready : ∀ need ∈ target.needs key, need ∈ known) :
    Explores target refs known (Emit.reserve key) [.token key] := by
  intro session cached hk
  have itself : key ∈ refs :=
    among key ((Target.own_or_self_mem_keyRefs buildable).resolve_left foreign)
  have marked : ∀ {t}, key = .type t → ∀ k ∈ target.embeddedRefs t, k ∈ refs := by
    rintro t rfl k hk
    exact among k (List.mem_append_left _ hk)
  have grounded : session.Grounded target key :=
    ⟨fun need mem => hk need (ready need mem), buildable, notByRef⟩
  -- Reserving grows the session also where the table is full.
  have grows : ∀ later : Session, later.arrayMethods = session.arrayMethods →
      (∀ k, k ∈ later.seen ↔ k ∈ session.seen ∨ k = key) →
      (∀ k, session.Reserved k → later.Reserved k) →
      (∀ k, later.Reserved k → session.Reserved k ∨ k = key) →
      session.Grows target refs later := by
    intro later arrayMethods seen kept new
    have below : session.Below later :=
      ⟨kept _, fun sighted => sighted.imp (fun mem => (seen _).mpr (.inl mem)) (kept _)⟩
    exact {
      seen := fun k mem => (seen k).mpr (.inl mem)
      reserved := kept _
      marked := fun mem => ((seen _).mp mem).imp_right fun same => marked same.symm
      grounded := fun {k} held => (new k held).imp_right fun same => by
        rw [same]
        exact ⟨itself, below.grounded grounded⟩
      cached := fun h => arrayMethods ▸ h }
  cases run : Emit.reserve key session with
  | error fault later =>
    obtain ⟨arrayMethods, seen, keys⟩ := reserve_eq_error run
    exact ⟨grows later arrayMethods seen (fun _ => (Session.reserved_congr keys).mpr)
      fun _ held => .inl ((Session.reserved_congr keys).mp held), nofun⟩
  | ok u later =>
    obtain ⟨arrayMethods, seen, filed⟩ := reserve_eq_ok run
    have reserved : ∀ k, later.Reserved k ↔ session.Reserved k ∨ k = key :=
      reserved_of_filed filed
    refine ⟨grows later arrayMethods seen (fun k held => (reserved k).mpr (.inl held))
      (fun k => (reserved k).mp), ?_⟩
    rintro _ ⟨⟩
    have there : later.Reserved key := (reserved key).mpr (.inr rfl)
    refine ⟨fun {t} mem => ((seen _).mp mem).imp_right ?_,
      List.forall_mem_singleton.mpr (.inr there)⟩
    rintro rfl need mem
    by_cases named : ∃ d, t = .named d
    · obtain ⟨d, rfl⟩ := named
      rw [List.mem_singleton.mp mem]
      exact .inr there
    · rw [← Target.needs_type target (not_exists.mp named)] at mem
      have below : session.Below later := (grows later arrayMethods seen
        (fun k held => (reserved k).mpr (.inl held)) fun k => (reserved k).mp).below
      exact below.meetsAll grounded.needs need mem

end Emit.Explores

end ManagedCode
