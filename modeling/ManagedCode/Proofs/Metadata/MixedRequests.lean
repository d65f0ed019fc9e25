import ManagedCode.Proofs.Metadata.Builds
import ManagedCode.Proofs.Metadata.Requests

namespace ManagedCode

/-- What has a token once this reference was visited. -/
def Request.visitRefs (target : Target) : Request → List RefKey
  | .visit v => target.visitRefs v
  | .token _ => []

/-- What should have a token once the token of this reference was asked for. -/
def Request.askedRefs (target : Target) : Request → List RefKey
  | .visit _ => []
  | .token key => target.keyRefs key

def Symbols.RequestInScope (symbols : Symbols) : Request → Prop
  | .visit v => symbols.VisitInScope v
  | .token key => symbols.KeyInScope key

/-- The key that a visit looks for first, to do nothing if it has its token. -/
def Reference.key? : Reference → Option RefKey
  | .type t => some (.type t)
  | .member m => some (.member m)
  | .arrayMethod kind arrayTy => some (.arrayMethod kind arrayTy)
  | _ => none

/-- Serves requests one after another, from the first that fails on nothing. -/
def Target.serveInTurn (target : Target) : List Request → Emit Unit
  | [] => pure ()
  | r :: rs => do target.serve r; serveInTurn target rs

theorem Symbols.KeyInScope.buildable {symbols : Symbols} {key : RefKey}
    (h : symbols.KeyInScope key) : key.Buildable := by
  cases key with
  | arrayMethod => exact h.2
  | _ => trivial

namespace Emit

variable {target : Target} {session later : Session} {key : RefKey}

/-- The token of something else than a definition is filed without a visit. -/
theorem token_eq_ok (foreign : target.definition? key = none) {token : Token}
    (h : Emit.token target key session = .ok token later) :
    later.arrayMethods = session.arrayMethods ∧ later.seen = session.seen ∧
      ((session.Reserved key ∧ later.tokens = session.tokens) ∨
        (¬session.Reserved key ∧ later.tokens = session.tokens.file key key.table ∧
          (session.tokens.rows key.table).length + 1 < Token.rowLimit)) := by
  have filing : Emit.token target key = reserveIn key key.table := by rw [Emit.token, foreign]
  exact reserveIn_eq_ok (filing ▸ h)

theorem reserved_token (foreign : target.definition? key = none) {token : Token}
    (h : Emit.token target key session = .ok token later) : later.Reserved key := by
  obtain ⟨-, -, ⟨held, same⟩ | ⟨-, filed, -⟩⟩ := token_eq_ok foreign h
  · rwa [Session.Reserved, same]
  · simp [Session.Reserved, filed]

theorem unlessReserved_of_reserved (h : session.Reserved key) (visit : Emit Unit) :
    unlessReserved key visit session = .ok () session := by
  rw [unlessReserved_eq, Session.reserved_iff_contains.mpr h]
  rfl

/-- A visit of what has its token does nothing. -/
theorem visitReference_of_reserved {r : Reference} (hr : r.key? = some key)
    (h : session.Reserved key) : target.visitReference r session = .ok () session := by
  cases r with
  | assembly | module | signature => cases hr
  | type t =>
    cases hr
    exact unlessReserved_of_reserved h _
  | member m =>
    cases hr
    cases m <;> exact unlessReserved_of_reserved h _
  | arrayMethod kind arrayTy =>
    cases hr
    exact unlessReserved_of_reserved h _

namespace Collects

variable {excused known : List RefKey}

/-- A token that is asked for excuses what its reference stands for. -/
theorem token (wf : target.symbols.WellFormed) (scope : target.symbols.KeyInScope key)
    (sub : ∀ k ∈ target.keyRefs key, k ∈ excused) :
    Collects target excused [] known (discard (Emit.token target key)) [] := by
  intro session later sound _ h
  obtain ⟨token, later', h, hl⟩ := bind_eq_ok.mp h
  cases hl
  cases own : target.definition? key with
  | some _ =>
    rw [Emit.token, own] at h
    cases h
    exact ⟨sound, by simp⟩
  | none =>
    have foreign : ¬target.IsOwn key := fun is => by
      have := Target.definition?_isSome wf scope is
      simp [own] at this
    obtain ⟨arrayMethods, seen, tokens⟩ := token_eq_ok own h
    have parts : ∀ part ∈ target.parts key, target.IsOwn part ∨ session.Held excused part :=
      fun part hp => (Target.own_or_mem_keyRefs wf foreign scope.buildable hp).imp_right fun hm =>
        .inr (sub part hm)
    obtain ⟨sound', held⟩ := sound_filed sound arrayMethods (fun k hk => .inl (seen ▸ hk)) tokens
      (fun k hk => .inl (.inr (sub k hk))) parts
    refine ⟨sound', fun k => ⟨fun hk => ?_, fun hk => (held k).mpr (.inl ?_)⟩⟩
    · refine .inl (((held k).mp hk).elim id fun same => .inr (same ▸ sub key ?_))
      exact (Target.own_or_self_mem_keyRefs scope.buildable).resolve_left foreign
    · exact hk.resolve_right List.not_mem_nil

theorem serve (wf : target.symbols.WellFormed) {r : Request}
    (scope : target.symbols.RequestInScope r) (sub : ∀ k ∈ r.askedRefs target, k ∈ excused) :
    Collects target excused [] known (target.serve r) (r.visitRefs target) := by
  cases r with
  | visit v => exact visit wf v
  | token key => exact token wf scope sub

theorem serveInTurn (wf : target.symbols.WellFormed) {requests : List Request}
    (scope : ∀ r ∈ requests, target.symbols.RequestInScope r)
    (sub : ∀ r ∈ requests, ∀ k ∈ r.askedRefs target, k ∈ excused) :
    Collects target excused [] known (target.serveInTurn requests)
      (requests.flatMap (·.visitRefs target)) := by
  induction requests generalizing known with
  | nil => exact nothing
  | cons r rs ih =>
    rw [List.flatMap_cons]
    refine (serve wf (scope r List.mem_cons_self) (sub r List.mem_cons_self)).andThen (ih ?_ ?_)
    · exact fun r' hr => scope r' (List.mem_cons_of_mem r hr)
    · exact fun r' hr => sub r' (List.mem_cons_of_mem r hr)

end Collects

end Emit

namespace Target

variable {target : Target} {requests : List Request} {session : Session}

/-- After requests that succeeded, the visited references have what they stand for, but for what
references stand for whose tokens were asked for. -/
theorem held_serveInTurn (wf : target.symbols.WellFormed)
    (scope : ∀ r ∈ requests, target.symbols.RequestInScope r)
    (served : target.serveInTurn requests {} = .ok () session) :
    session.Sound target (requests.flatMap (·.askedRefs target)) [] ∧
      ∀ k, session.Held (requests.flatMap (·.askedRefs target)) k ↔
        (∃ r ∈ requests, k ∈ r.askedRefs target) ∨ ∃ r ∈ requests, k ∈ r.visitRefs target := by
  have collects : Emit.Collects target (requests.flatMap (·.askedRefs target)) [] []
      (target.serveInTurn requests) _ :=
    .serveInTurn wf scope fun r hr k hk => List.mem_flatMap.mpr ⟨r, hr, hk⟩
  obtain ⟨sound, held⟩ := collects _ _ (Session.sound_empty target _) nofun served
  refine ⟨sound, fun k => ?_⟩
  rw [held, List.mem_flatMap, Session.Held, List.mem_flatMap]
  simp [Session.Reserved, TokenTable.keys]

/-- If references whose tokens were asked for have what they stand for in the end, whether by
other visits or by a visit of their own that came first, the session is as good as one that was
only visited. -/
theorem indexed_serveInTurn (wf : target.symbols.WellFormed)
    (scope : ∀ r ∈ requests, target.symbols.RequestInScope r)
    (served : target.serveInTurn requests {} = .ok () session)
    (settled : ∀ r ∈ requests, ∀ k ∈ r.askedRefs target, session.Reserved k)
    (definitions : .visit .definitions ∈ requests) : session.Indexed target := by
  obtain ⟨sound, held⟩ := held_serveInTurn wf scope served
  have reserved : ∀ {k}, session.Held (requests.flatMap (·.askedRefs target)) k →
      session.Reserved k := fun hk => hk.elim id fun asked => by
    obtain ⟨r, hr, hk⟩ := List.mem_flatMap.mp asked
    exact settled r hr _ hk
  refine ⟨wf, sound.filed, sound.cached, fun hk part hp => (sound.part hk hp).imp_right reserved,
    fun hk => ?_, fun hd key hk => ?_⟩
  · rcases (held _).mp (.inl hk) with ⟨r, hr, hm⟩ | ⟨r, hr, hm⟩
    · cases r with
      | visit v => cases hm
      | token key => exact inScope_keyRefs wf (scope _ hr) hm
    · cases r with
      | visit v => exact inScope_visitRefs wf (scope _ hr) hm
      | token key => cases hm
  · exact reserved ((held key).mpr
      (.inr ⟨_, definitions, List.mem_flatMap.mpr ⟨_, hd, hk⟩⟩))

/-- Visits and requests for tokens that all succeed, in any order. What a visited reference
stands for has a token unless a reference stands for it whose token was asked for. If those have
what they stand for in the end, so has everything that was visited, and no row lacks a token. But
a visit of a reference whose token was asked for before does nothing. -/
theorem mixed_requests (wf : target.symbols.WellFormed)
    (scope : ∀ r ∈ requests, target.symbols.RequestInScope r)
    (served : target.serveInTurn requests {} = .ok () session) :
    (∀ r ∈ requests, ∀ k ∈ r.visitRefs target,
      session.Reserved k ∨ ∃ asked ∈ requests, k ∈ asked.askedRefs target) ∧
    ((∀ asked ∈ requests, ∀ k ∈ asked.askedRefs target, session.Reserved k) →
      (∀ r ∈ requests, ∀ k ∈ r.visitRefs target, session.Reserved k) ∧
      (.visit .definitions ∈ requests →
        (∃ image later, target.image session = .ok image later) ∨
          ∃ value later, target.image session = .error (.compressedOverflow value) later)) ∧
    ∀ key token before after r, target.definition? key = none →
      Emit.token target key before = .ok token after → r.key? = some key →
        target.visitReference r after = .ok () after := by
  obtain ⟨-, held⟩ := held_serveInTurn wf scope served
  have visited : ∀ r ∈ requests, ∀ k ∈ r.visitRefs target,
      session.Reserved k ∨ ∃ asked ∈ requests, k ∈ asked.askedRefs target := by
    intro r hr k hk
    exact ((held k).mpr (.inr ⟨r, hr, hk⟩)).imp_right List.mem_flatMap.mp
  refine ⟨visited, fun settled => ⟨fun r hr k hk => ?_, fun definitions => ?_⟩, ?_⟩
  · rcases visited r hr k hk with reserved | ⟨asked, ha, hm⟩
    · exact reserved
    · exact settled asked ha k hm
  · have indexed := indexed_serveInTurn wf scope served settled definitions
    cases hi : target.image session with
    | ok image later => exact .inl ⟨image, later, rfl⟩
    | error fault later =>
      obtain ⟨value, rfl⟩ := indexed.image hi
      exact .inr ⟨value, later, rfl⟩
  · intro key token before after r foreign asked hr
    exact Emit.visitReference_of_reserved hr (Emit.reserved_token foreign asked)

/-- A field of another module's type, seen through an instance of the type. -/
def sampleMember : MemberRef := .specializedField ⟨0⟩ (.inst ⟨1⟩ [.vector .int32])

theorem keyInScope_sampleMember : sample.symbols.KeyInScope (.member sampleMember) := by
  have field : 0 < sample.symbols.fields.length := by decide
  have container : ∀ d ∈ (Ty.inst ⟨1⟩ [.vector .int32]).mentions,
      d.index < sample.symbols.typeDefs.length := by decide
  exact ⟨field, container⟩

/-- The token of the member is asked for after its visit. -/
def visitedThenAsked : List Request :=
  [.visit .definitions, .visit (.reference (.member sampleMember)), .token (.member sampleMember)]

theorem mixed_requests_sample : ∃ session,
    sample.serveInTurn visitedThenAsked {} = .ok () session ∧
      ((∃ image later, sample.image session = .ok image later) ∨
        ∃ value later, sample.image session = .error (.compressedOverflow value) later) := by
  have ok : failure? (sample.serveInTurn visitedThenAsked {}) = none := by decide +kernel
  obtain ⟨⟨⟩, served⟩ := eq_ok_of_failure? ok
  have scope : ∀ r ∈ visitedThenAsked, sample.symbols.RequestInScope r := by
    simp only [visitedThenAsked, List.forall_mem_cons]
    exact ⟨trivial, keyInScope_sampleMember, keyInScope_sampleMember, nofun⟩
  have settled : ∀ r ∈ visitedThenAsked, ∀ k ∈ r.askedRefs sample,
      Session.Reserved (finalState (sample.serveInTurn visitedThenAsked {})) k := by
    simp only [← Session.reserved_iff_contains]
    decide +kernel
  obtain ⟨-, mixed, -⟩ := mixed_requests wellFormed_sample scope served
  exact ⟨_, served, (mixed settled).2 List.mem_cons_self⟩

/-- The token of the member is asked for before its visit. -/
def askedThenVisited : List Request :=
  [.token (.member sampleMember), .visit .definitions, .visit (.reference (.member sampleMember))]

/-- The visit succeeds, but the field has no token, and the image cannot be written. -/
theorem asked_then_visited_misses : ∃ session later,
    sample.serveInTurn askedThenVisited {} = .ok () session ∧
      .member (.field ⟨0⟩) ∈ sample.visitRefs (.reference (.member sampleMember)) ∧
      ¬session.Reserved (.member (.field ⟨0⟩)) ∧
      sample.image session = .error (.missingToken (.type (.named ⟨1⟩))) later := by
  have ok : failure? (sample.serveInTurn askedThenVisited {}) = none := by decide +kernel
  have missing : failure? (sample.image (finalState (sample.serveInTurn askedThenVisited {}))) =
      some (.missingToken (.type (.named ⟨1⟩))) := by decide +kernel
  have absent : ¬Session.Reserved (finalState (sample.serveInTurn askedThenVisited {}))
      (.member (.field ⟨0⟩)) := by
    rw [← Session.reserved_iff_contains]
    decide +kernel
  obtain ⟨⟨⟩, served⟩ := eq_ok_of_failure? ok
  exact ⟨_, _, served, by decide +kernel, absent, eq_error_of_failure? missing⟩

end Target

end ManagedCode
