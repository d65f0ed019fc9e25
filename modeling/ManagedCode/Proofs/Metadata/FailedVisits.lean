import ManagedCode.Proofs.Metadata.ExploredVisits
import ManagedCode.Proofs.Metadata.Requests
import ManagedCode.Proofs.Metadata.TypeVisits

namespace ManagedCode

/-! A visit that fails leaves types marked whose parts were not visited. What has a token has all
that it needs, whether or not visits failed before. -/

/-- A type is another one or occurs in it at any depth. -/
inductive Ty.Within (u : Ty) : Ty → Prop where
  | here : Within u u
  | arg {t d args} : t ∈ args → Within u t → Within u (.inst d args)
  | vector {t} : Within u t → Within u (.vector t)
  | array {t rank} : Within u t → Within u (.array t rank)
  | pointer {t} : Within u t → Within u (.pointer t)
  | byRef {t} : Within u t → Within u (.byRef t)

theorem Ty.Within.of_chainLeaf {u t : Ty} (h : u.Within t.chainLeaf) : u.Within t := by
  cases t with
  | vector t => exact .vector (of_chainLeaf h)
  | array t rank => exact .array (of_chainLeaf h)
  | pointer t => exact .pointer (of_chainLeaf h)
  | _ => exact h

theorem Ty.Within.of_stripByRef {u t : Ty} (h : u.Within t.stripByRef) : u.Within t := by
  cases t with
  | byRef t => exact .byRef h
  | _ => exact h

/-- What holds of a session that visits have led to. Only types that are `left` may be marked without
what they need. -/
structure Session.Explored (session : Session) (target : Target) (left : Ty → Prop) : Prop where
  grounded : ∀ {key}, session.Reserved key → session.Grounded target key
  opened : ∀ {t}, .type t ∈ session.seen → (∀ need ∈ t.needs, session.Meets target need) ∨ left t
  cached : session.arrayMethods.Cached

/-- The visits among some, made one after another, that fail. -/
def Target.failing (target : Target) (session : Session) : List Visit → List Visit
  | [] => []
  | v :: vs =>
    match target.visit v session with
    | .ok _ later => failing target later vs
    | .error _ later => v :: failing target later vs

/-- A type may have been left marked by one of the visits that failed. -/
def Target.LeftBy (target : Target) (failed : List Visit) (t : Ty) : Prop :=
  ∃ v ∈ failed, ∀ k ∈ target.embeddedRefs t, k ∈ target.visitRefs v

namespace Session.Explored

variable {target : Target} {left : Ty → Prop} {failed : List Visit} {session : Session}

theorem empty (target : Target) (left : Ty → Prop) : Session.Explored {} target left where
  grounded := nofun
  opened := nofun
  cached := nofun

theorem visit (h : session.Explored target (target.LeftBy failed)) (wf : target.symbols.WellFormed)
    (v : Visit) (fails : failure? (target.visit v session) ≠ none → v ∈ failed) :
    (finalState (target.visit v session)).Explored target (target.LeftBy failed) := by
  obtain ⟨grows, ok⟩ := Emit.Explores.visit wf v session h.cached nofun
  have old {t} (seen : .type t ∈ session.seen) := (h.opened seen).imp_left grows.meetsAll
  refine ⟨fun held => ?_, fun {t} seen => ?_, grows.cached h.cached⟩
  · exact (grows.grounded held).elim (fun held => grows.below.grounded (h.grounded held)) And.right
  cases run : target.visit v session with
  | ok u later =>
    rw [run] at grows seen old
    exact ((ok later run).1 seen).elim old .inl
  | error fault later =>
    rw [run] at grows seen old
    have among := fails (by rw [run]; exact nofun)
    exact (grows.marked seen).elim old fun all => .inr ⟨v, among, all⟩

/-- Visits may fail as long as they are accounted for. -/
theorem serveAll (h : session.Explored target (target.LeftBy failed))
    (wf : target.symbols.WellFormed) {visits : List Visit}
    (fails : ∀ v ∈ target.failing session visits, v ∈ failed) :
    (target.serveAll session (visits.map .visit)).Explored target (target.LeftBy failed) := by
  induction visits generalizing session with
  | nil => exact h
  | cons v visits ih =>
    unfold Target.failing at fails
    cases run : target.visit v session with
    | ok u later =>
      have step := h.visit wf v fun failed => absurd (by rw [run]; rfl) failed
      rw [run] at fails step
      have rest := ih step fails
      rwa [← run] at rest
    | error fault later =>
      rw [run] at fails
      have step := h.visit wf v fun _ => fails v List.mem_cons_self
      rw [run] at step
      have rest := ih step fun v mem => fails v (List.mem_cons_of_mem _ mem)
      rwa [← run] at rest

/-- Where a type was come across, the definitions that it names have tokens, unless a type around
them in it was left. -/
theorem mentions (h : session.Explored target left) {t : Ty} (met : session.Meets target (.sight t)) :
    ∀ d ∈ t.mentions, session.Meets target (.token (.type (.named d))) ∨
      ∃ u, u.Within t ∧ d ∈ u.mentions ∧ left u := by
  induction size : sizeOf t using Nat.strongRecOn generalizing t with
  | _ n ih =>
    subst size
    by_cases built : ∀ d, t ≠ .named d
    case neg =>
      obtain ⟨d, rfl⟩ := not_forall_not.mp built
      exact List.forall_mem_singleton.mpr (.inl met)
    have opened : (∀ need ∈ t.needs, session.Meets target need) ∨ left t := by
      rcases (Session.meets_sight_iff built).mp met with seen | reserved
      · exact h.opened seen
      · exact .inl (target.needs_type built ▸ (h.grounded reserved).needs)
    intro d named
    rcases opened with all | here
    case inr => exact .inr ⟨t, .here, named, here⟩
    -- What is found for a smaller type in `t` is found for `t`.
    have inside : ∀ t', sizeOf t' < sizeOf t → (∀ u : Ty, u.Within t' → u.Within t) →
        session.Meets target (.sight t') → d ∈ t'.mentions →
        session.Meets target (.token (.type (.named d))) ∨
          ∃ u, u.Within t ∧ d ∈ u.mentions ∧ left u := fun t' smaller within met' named' =>
      (ih _ smaller met' rfl d named').imp_right fun ⟨u, inner, rest⟩ => ⟨u, within u inner, rest⟩
    cases t with
    | named e => exact absurd rfl (built e)
    | inst e args =>
      obtain ⟨itself, parts⟩ := List.forall_mem_cons.mp all
      rw [Ty.mentions, Ty.mentionsAll_eq_flatMap] at named
      rcases List.mem_cons.mp named with rfl | named
      · exact .inl itself
      · obtain ⟨arg, mem, named⟩ := List.mem_flatMap.mp named
        have smaller : sizeOf arg < sizeOf (Ty.inst e args) := by
          have := List.sizeOf_lt_of_mem mem
          simp only [Ty.inst.sizeOf_spec]
          omega
        exact inside arg smaller (fun u => .arg mem) (parts _ (List.mem_map_of_mem mem)) named
    | byRef u =>
      exact inside u (by simp only [Ty.byRef.sizeOf_spec]; omega) (fun _ => .byRef)
        (all _ List.mem_cons_self) named
    | vector u | array u _ | pointer u =>
      have shorter := u.sizeOf_chainLeaf_le
      refine inside u.chainLeaf ?_ (fun _ inner => .of_chainLeaf inner)
        (all (.sight u.chainLeaf) List.mem_cons_self) (by rwa [Ty.mentions_chainLeaf])
      simp only [Ty.vector.sizeOf_spec, Ty.array.sizeOf_spec, Ty.pointer.sizeOf_spec]
      omega
    | primitive | typeParam | methodParam => cases named

end Session.Explored

/-! How a type is left marked: its definition is in an assembly for which there is no more row. -/

namespace Target

variable {target : Target} {session : Session} {d : TypeDefId} {a : AssemblyId}

/-- A definition at the top level of another assembly. -/
structure Imports (target : Target) (d : TypeDefId) (a : AssemblyId) : Prop where
  top : (target.symbols.typeDef d).enclosing = []
  module : (target.symbols.typeDef d).module ≠ target.module
  assembly : (target.symbols.module (target.symbols.typeDef d).module).assembly = a
  other : a ≠ target.assembly

/-- A visit of other assemblies that have no token yet gives each of them a row. -/
theorem visitAll_assemblies {as : List AssemblyId} (distinct : as.Nodup)
    (others : ∀ a ∈ as, a ≠ target.assembly) (absent : ∀ a ∈ as, ¬session.Reserved (.assembly a))
    (free : (session.tokens.rows .assemblyRef).length + as.length < Token.rowLimit) :
    ∃ later, target.visitAll (as.map fun a => .reference (.assembly a)) session = .ok () later ∧
      (later.tokens.rows .assemblyRef).length =
        (session.tokens.rows .assemblyRef).length + as.length ∧
      (∀ k, later.Reserved k ↔ session.Reserved k ∨ ∃ a ∈ as, k = .assembly a) ∧
      ∀ k, k ∈ later.seen ↔ k ∈ session.seen ∨ ∃ a ∈ as, k = .assembly a := by
  induction as generalizing session with
  | nil => exact ⟨session, rfl, rfl, by simp, by simp⟩
  | cons a as ih =>
    obtain ⟨fresh, distinct⟩ := List.nodup_cons.mp distinct
    obtain ⟨other, others⟩ := List.forall_mem_cons.mp others
    obtain ⟨unfiled, absent⟩ := List.forall_mem_cons.mp absent
    rw [List.length_cons] at free
    have room : (session.tokens.rows .assemblyRef).length + 1 < Token.rowLimit := by omega
    obtain ⟨next, run, filed, seen⟩ := Emit.exists_reserve unfiled room
    have visited : target.visit (.reference (.assembly a)) session = .ok () next := by
      rw [visit, visitReference, visitAssembly, if_pos other]
      exact run
    have rows : (next.tokens.rows .assemblyRef).length =
        (session.tokens.rows .assemblyRef).length + 1 := by
      rw [filed, TokenTable.rows_file]
      exact List.length_append
    have reserved : ∀ k, next.Reserved k ↔ session.Reserved k ∨ k = .assembly a :=
      Emit.reserved_of_filed (.inr ⟨unfiled, filed, room⟩)
    have absent' : ∀ a' ∈ as, ¬next.Reserved (.assembly a') := by
      intro a' among held
      rcases (reserved _).mp held with held | same
      · exact absent a' among held
      · cases same
        exact fresh among
    obtain ⟨later, rest, rows', reserved', seen'⟩ := ih distinct others absent' (by omega)
    refine ⟨later, (bind_of_ok visited).trans rest, ?_, fun k => ?_, fun k => ?_⟩
    · rw [rows', rows, List.length_cons]
      omega
    · rw [reserved', reserved, List.exists_mem_cons_iff, or_assoc]
    · rw [seen', seen, List.exists_mem_cons_iff, or_assoc]

theorem visitNamed_full (absent : ¬session.Reserved (.assembly a))
    (unnamed : ¬session.Reserved (.type (.named d)))
    (full : Token.rowLimit ≤ (session.tokens.rows .assemblyRef).length + 1)
    (imports : target.Imports d a) :
    ∃ later, target.visitNamed d session = .error (.tableFull .assemblyRef) later ∧
      (∀ k, k ∈ later.seen ↔ k ∈ session.seen ∨ k = .assembly a) ∧
      later.tokens.keys = session.tokens.keys := by
  obtain ⟨later, run⟩ := Emit.exists_reserve_full absent full
  have outside : target.visitModule (target.symbols.typeDef d).module session =
      .error (.tableFull .assemblyRef) later := by
    rw [visitModule, if_neg imports.module, imports.assembly, if_pos imports.other, visitAssembly,
      if_pos imports.other]
    exact run
  have foreign : ¬target.isLocal d = true := fun own => imports.module (of_decide_eq_true own)
  refine ⟨later, ?_, (Emit.reserve_eq_error run).2⟩
  rw [visitNamed, imports.top, visitNested, if_neg foreign, Emit.unlessReserved_eq,
    if_neg (mt Session.reserved_iff_contains.mp unnamed)]
  exact bind_of_error outside

theorem firstSight_of_seen {t : Ty} (seen : .type t ∈ session.seen) (visit : Emit Unit) :
    firstSight t visit session = .ok () session := by
  unfold firstSight
  rw [Emit.unlessReserved_eq, Emit.markSeen_then, if_pos (Session.hasSeen_iff.mpr seen), ite_self]

theorem firstSight_of_fresh {t : Ty} (fresh : .type t ∉ session.seen)
    (unfiled : ¬session.Reserved (.type t)) (visit : Emit Unit) :
    firstSight t visit session = (do discard (Emit.markSeen (.type t)); visit : Emit Unit) session := by
  unfold firstSight
  rw [Emit.unlessReserved_eq, if_neg (mt Session.reserved_iff_contains.mp unfiled),
    Emit.markSeen_then, if_neg (mt Session.hasSeen_iff.mp fresh)]

/-- An instance is marked before its definition turns out to have no place. -/
theorem visitSignatureTy_inst_full {args : List Ty} (absent : ¬session.Reserved (.assembly a))
    (unnamed : ¬session.Reserved (.type (.named d)))
    (unfiled : ¬session.Reserved (.type (.inst d args)))
    (fresh : .type (.inst d args) ∉ session.seen)
    (full : Token.rowLimit ≤ (session.tokens.rows .assemblyRef).length + 1)
    (imports : target.Imports d a) :
    ∃ later, target.visitSignatureTy (.inst d args) session = .error (.tableFull .assemblyRef) later ∧
      .type (.inst d args) ∈ later.seen ∧ later.tokens.keys = session.tokens.keys := by
  obtain ⟨marked, run, tokens, -, seen⟩ := Emit.exists_mark session (.type (.inst d args))
  have same : ∀ {k}, marked.Reserved k ↔ session.Reserved k :=
    Session.reserved_congr (congrArg _ tokens)
  obtain ⟨later, failed, seen', keys⟩ := visitNamed_full (mt same.mp absent) (mt same.mp unnamed)
    (tokens ▸ full) imports
  refine ⟨later, (firstSight_of_fresh fresh unfiled _).trans ?_,
    (seen' _).mpr (.inl ((seen _).mpr (.inr rfl))), keys.trans (congrArg _ tokens)⟩
  rw [bind_of_ok run]
  exact bind_of_error failed

end Target

end ManagedCode
