import ManagedCode.Proofs.Body.SuspendingTries
import ManagedCode.Proofs.Iterator.Counting

namespace ManagedCode

/-! The yields of a body and the try statements around them. -/

mutual

/-- What is yielded in a statement at any depth, in the order of the source. -/
def Stmt.yielded : Stmt → List Expr
  | .yield value => [value]
  | .block stmts => Stmt.yieldedAll stmts
  | .tryCatch _ body catches none => Stmt.yieldedAll body ++ Catch.yieldedAll catches
  | .tryCatch _ body catches (some cleanup) =>
    Stmt.yieldedAll body ++ (Catch.yieldedAll catches ++ Stmt.yieldedAll cleanup)
  | .tryFault body fault => Stmt.yieldedAll body ++ Stmt.yieldedAll fault
  | _ => []

def Stmt.yieldedAll : List Stmt → List Expr
  | [] => []
  | s :: ss => s.yielded ++ Stmt.yieldedAll ss

def Catch.yieldedAll : List Catch → List Expr
  | [] => []
  | .mk _ _ body :: cs => Stmt.yieldedAll body ++ Catch.yieldedAll cs

end

def Body.yielded (body : Body) : List Expr := Stmt.yieldedAll body.root

/-- The yields of a body with the try statements around them, the innermost first. -/
def Body.yieldSites (body : Body) : List (Expr × List TryId) := Stmt.yieldSitesAll [] body.root

open Lowering

mutual

theorem Stmt.yielded_eq_nil (s : Stmt) (quiet : s.yields = false) : s.yielded = [] := by
  cases s with
  | block stmts => exact Stmt.yieldedAll_eq_nil stmts quiet
  | yield => cases quiet
  | tryCatch id body catches finally? =>
    cases finally? with
    | none =>
      obtain ⟨hb, hc⟩ := Bool.or_eq_false_iff.mp quiet
      rw [Stmt.yielded, Stmt.yieldedAll_eq_nil body hb, Catch.yieldedAll_eq_nil catches hc]
      rfl
    | some cleanup =>
      obtain ⟨hbc, hf⟩ := Bool.or_eq_false_iff.mp quiet
      obtain ⟨hb, hc⟩ := Bool.or_eq_false_iff.mp hbc
      rw [Stmt.yielded, Stmt.yieldedAll_eq_nil body hb, Catch.yieldedAll_eq_nil catches hc,
        Stmt.yieldedAll_eq_nil cleanup hf]
      rfl
  | tryFault body fault =>
    obtain ⟨hb, hf⟩ := Bool.or_eq_false_iff.mp quiet
    rw [Stmt.yielded, Stmt.yieldedAll_eq_nil body hb, Stmt.yieldedAll_eq_nil fault hf]
    rfl
  | _ => rfl

theorem Stmt.yieldedAll_eq_nil (ss : List Stmt) (quiet : Stmt.anyYields ss = false) :
    Stmt.yieldedAll ss = [] := by
  cases ss with
  | nil => rfl
  | cons s ss =>
    obtain ⟨first, rest⟩ := Bool.or_eq_false_iff.mp quiet
    rw [Stmt.yieldedAll, Stmt.yielded_eq_nil s first, Stmt.yieldedAll_eq_nil ss rest]
    rfl

theorem Catch.yieldedAll_eq_nil (cs : List Catch) (quiet : Catch.anyYields cs = false) :
    Catch.yieldedAll cs = [] := by
  cases cs with
  | nil => rfl
  | cons c cs =>
    obtain ⟨ty, caught, body⟩ := c
    obtain ⟨first, rest⟩ := Bool.or_eq_false_iff.mp quiet
    rw [Catch.yieldedAll, Stmt.yieldedAll_eq_nil body first, Catch.yieldedAll_eq_nil cs rest]
    rfl

end

mutual

theorem Stmt.map_fst_yieldSites (s : Stmt) (fine : s.Suspendable) (around : List TryId) :
    (s.yieldSites around).map (·.1) = s.yielded := by
  cases s with
  | block stmts => exact Stmt.map_fst_yieldSitesAll stmts fine around
  | tryCatch id body catches finally? =>
    cases finally? with
    | none =>
      obtain ⟨-, quiet, fineBody, -⟩ := fine
      rw [Stmt.yielded, Catch.yieldedAll_eq_nil catches quiet, List.append_nil]
      exact Stmt.map_fst_yieldSitesAll body fineBody (id :: around)
    | some cleanup =>
      obtain ⟨-, quiet, quiet', -, fineBody, -⟩ := fine
      rw [Stmt.yielded, Catch.yieldedAll_eq_nil catches quiet,
        Stmt.yieldedAll_eq_nil cleanup quiet', List.append_nil, List.append_nil]
      exact Stmt.map_fst_yieldSitesAll body fineBody (id :: around)
  | tryFault body fault =>
    obtain ⟨quiet, quiet', -⟩ := fine
    rw [Stmt.yielded, Stmt.yieldedAll_eq_nil body quiet, Stmt.yieldedAll_eq_nil fault quiet']
    rfl
  | _ => rfl

/-- Where it suspends only where it may, all its yields are in the bodies of try statements. -/
theorem Stmt.map_fst_yieldSitesAll (ss : List Stmt) (fine : Stmt.SuspendableAll ss)
    (around : List TryId) : (Stmt.yieldSitesAll around ss).map (·.1) = Stmt.yieldedAll ss := by
  cases ss with
  | nil => rfl
  | cons s ss =>
    rw [Stmt.yieldSitesAll, Stmt.yieldedAll, List.map_append, Stmt.map_fst_yieldSites s fine.1,
      Stmt.map_fst_yieldSitesAll ss fine.2]

end

mutual

/-- All try statements around a yield suspend. -/
theorem Stmt.around_yieldSites (s : Stmt) {around : List TryId} {outer? : Option TryId} :
    ∀ site ∈ s.yieldSites around, ∀ id ∈ site.2,
      id ∈ around ∨ id ∈ (s.suspendingTries outer?).map (·.id) := by
  cases s with
  | block stmts => exact Stmt.around_yieldSitesAll stmts
  | yield value =>
    intro site mem id inside
    cases List.mem_singleton.mp mem
    exact .inl inside
  | tryCatch number body catches finally? =>
    intro site mem id inside
    have suspends : Stmt.anyYields body = true := by
      cases yields : Stmt.anyYields body with
      | true => rfl
      | false =>
        rw [Stmt.yieldSites, yieldSitesAll_eq_nil body yields] at mem
        cases mem
    have deeper : id ∈ number :: around ∨
        id ∈ (Stmt.suspendingTriesAll (some number) body).map (·.id) :=
      Stmt.around_yieldSitesAll body site mem id inside
    rw [List.mem_cons] at deeper
    cases finally? with
    | none | some =>
      rw [Stmt.suspendingTries, SuspendingTry.here, SuspendingTry.inside, if_pos suspends,
        if_pos suspends, List.map_append, List.map_append, List.mem_append, List.mem_append,
        List.map_singleton, List.mem_singleton]
      tauto
  | _ => exact fun site mem => absurd mem List.not_mem_nil

theorem Stmt.around_yieldSitesAll (ss : List Stmt) {around : List TryId} {outer? : Option TryId} :
    ∀ site ∈ Stmt.yieldSitesAll around ss, ∀ id ∈ site.2,
      id ∈ around ∨ id ∈ (Stmt.suspendingTriesAll outer? ss).map (·.id) := by
  cases ss with
  | nil => exact fun site mem => absurd mem List.not_mem_nil
  | cons s ss =>
    intro site mem id inside
    rw [Stmt.suspendingTriesAll, List.map_append, List.mem_append]
    rcases List.mem_append.mp mem with mem | mem
    · exact (Stmt.around_yieldSites s site mem id inside).imp_right .inl
    · exact (Stmt.around_yieldSitesAll ss site mem id inside).imp_right .inr

end

/-! Each try statement that suspends becomes a frame. -/

mutual

theorem Stmt.map_id_suspendingTries (s : Stmt) (fine : s.Suspendable) (outer? : Option TryId) :
    (s.suspendingTries outer?).map (·.id) = frameIds s.tries := by
  cases s with
  | block stmts => exact Stmt.map_id_suspendingTriesAll stmts fine outer?
  | tryCatch id body catches finally? =>
    cases finally? with
    | none =>
      obtain ⟨quiet, quiet', fineBody, fineCatches⟩ := fine
      rw [frameIds_tryCatch (Bool.or_eq_false_iff.mpr ⟨quiet, quiet'⟩), Stmt.suspendingTries,
        SuspendingTry.here, quiet, List.map_append, List.map_append,
        Stmt.map_id_suspendingTriesAll body fineBody,
        Catch.map_id_suspendingTriesAll catches fineCatches]
      rfl
    | some cleanup =>
      obtain ⟨plain, quiet, quiet', -, fineBody, fineCatches, fineCleanup⟩ := fine
      have here : (Stmt.tryCatch id body catches (some cleanup)).yields = Stmt.anyYields body := by
        rw [Stmt.yields, quiet, quiet', Bool.or_false, Bool.or_false]
      rw [Stmt.suspendingTries, SuspendingTry.here, List.map_append, List.map_append,
        List.map_append, Stmt.map_id_suspendingTriesAll body fineBody,
        Catch.map_id_suspendingTriesAll catches fineCatches,
        Stmt.map_id_suspendingTriesAll cleanup fineCleanup, Stmt.tries, frameIds_cons,
        frameIds_append, frameIds_append, List.append_assoc, here]
      cases Stmt.anyYields body <;> rfl
  | tryFault body fault =>
    obtain ⟨-, -, fineBody, fineFault⟩ := fine
    rw [Stmt.suspendingTries, Stmt.tries, List.map_append, frameIds_append,
      Stmt.map_id_suspendingTriesAll body fineBody, Stmt.map_id_suspendingTriesAll fault fineFault]
  | _ => rfl

theorem Stmt.map_id_suspendingTriesAll (ss : List Stmt) (fine : Stmt.SuspendableAll ss)
    (outer? : Option TryId) :
    (Stmt.suspendingTriesAll outer? ss).map (·.id) = frameIds (Stmt.triesAll ss) := by
  cases ss with
  | nil => rfl
  | cons s ss =>
    rw [Stmt.suspendingTriesAll, Stmt.triesAll, List.map_append, frameIds_append,
      Stmt.map_id_suspendingTries s fine.1, Stmt.map_id_suspendingTriesAll ss fine.2]

theorem Catch.map_id_suspendingTriesAll (cs : List Catch) (fine : Catch.SuspendableAll cs)
    (outer? : Option TryId) :
    (Catch.suspendingTriesAll outer? cs).map (·.id) = frameIds (Catch.triesAll cs) := by
  cases cs with
  | nil => rfl
  | cons c cs =>
    obtain ⟨ty, caught, body⟩ := c
    rw [Catch.suspendingTriesAll, Catch.triesAll, List.map_append, frameIds_append,
      Stmt.map_id_suspendingTriesAll body fine.1, Catch.map_id_suspendingTriesAll cs fine.2]

end

namespace Body

variable {body : Body}

/-- The state in which the code of a try statement that suspends runs outside of those inside it, or
the code outside all of them. -/
def finalizeState (body : Body) : Option TryId → Int
  | none => runningState
  | some id => firstFinalizeState - ((body.suspendingTries.map (·.id)).idxOf id : Nat)

theorem nodup_suspendingTries (unique : (Stmt.tryIdsAll body.root).Nodup)
    (fine : Stmt.SuspendableAll body.root) : (body.suspendingTries.map (·.id)).Nodup := by
  rw [suspendingTries, Stmt.map_id_suspendingTriesAll body.root fine]
  exact unique.sublist (List.filter_sublist.map _)

theorem finalizeState_getElem? (distinct : (body.suspendingTries.map (·.id)).Nodup)
    {i : Nat} {try_ : SuspendingTry} (h : body.suspendingTries[i]? = some try_) :
    body.finalizeState (some try_.id) = firstFinalizeState - i := by
  have here : (body.suspendingTries.map (·.id))[i]? = some try_.id := by
    rw [List.getElem?_map, h]
    rfl
  obtain ⟨room, same⟩ := List.getElem?_eq_some_iff.mp here
  have index := distinct.idxOf_getElem i room
  rw [same] at index
  rw [finalizeState, index]

/-- A body has frames if a try statement in it suspends. -/
theorem hasFrames_iff {facts : YieldFacts} (h : YieldFacts.ofBody body = .ok facts) :
    facts.hasFrames = true ↔ body.suspendingTries ≠ [] := by
  have suspending : ∀ id, id ∈ facts.suspending ↔ id ∈ body.suspendingTries.map (·.id) := by
    intro id
    obtain ⟨found, -, fine⟩ := YieldFacts.ofStmts_eq_ok body.root h
    rw [found.suspending, suspendingTries, Stmt.map_id_suspendingTriesAll body.root fine]
    simp only [frameIds, YieldFacts.tryIds, List.filterMap_nil, List.not_mem_nil, and_false,
      false_or, List.mem_map, List.mem_filter]
    exact exists_congr fun t => by tauto
  unfold YieldFacts.hasFrames
  cases known : facts.suspending with
  | nil =>
    have none : body.suspendingTries.map (·.id) = [] :=
      List.eq_nil_iff_forall_not_mem.mpr fun id mem => by
        have := (suspending id).mpr mem
        rw [known] at this
        cases this
    simpa using none
  | cons id ids =>
    have mem := (suspending id).mp (known ▸ List.mem_cons_self)
    simpa using List.ne_nil_of_mem mem

end Body

end ManagedCode
