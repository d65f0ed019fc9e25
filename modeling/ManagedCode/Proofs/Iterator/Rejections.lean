import ManagedCode.Proofs.Iterator.DispatchDemand
import ManagedCode.Proofs.Iterator.LabelDemand
import ManagedCode.Proofs.Iterator.Legality
import ManagedCode.Proofs.Iterator.Numbering

namespace ManagedCode

/-! Which iterators have a machine. -/

namespace Lowering

variable {source : Source} {position : Position} {p p' : Progress}

theorem uses_of_hoistExpr {e e' : Expr} {returns : Prop} (h : hoistExpr source e p = .ok (e', p')) :
    e.Uses (.slotted source.paramCount returns) :=
  (visitExpr_slotGuard e).mp (hoistExpr_eq_ok h).1

theorem uses_of_hoistPlace {place place' : Place} {returns : Prop}
    (h : hoistPlace source place p = .ok (place', p')) :
    place.Uses (.slotted source.paramCount returns) :=
  (visitPlace_slotGuard place).mp (hoistPlace_eq_ok h).1

theorem body_of_suspendingTry {id : TryId} {body : Position → LowerM (List Stmt)}
    {finallyClause : LowerM (List Stmt)} {out : List Stmt}
    (h : suspendingTry source position id body finallyClause p = .ok (out, p')) :
    ∃ inner p₁ stmts p₂, body inner p₁ = .ok (stmts, p₂) ∧
      ∃ p₃ clause p₄, finallyClause p₃ = .ok (clause, p₄) := by
  unfold suspendingTry at h
  rw [bind_eq_ok] at h
  obtain ⟨⟨frame, index⟩, p₁, -, h⟩ := h
  rw [bind_eq_ok] at h
  obtain ⟨entry, p₁', -, h⟩ := h
  rw [bind_eq_ok] at h
  obtain ⟨stmts, p₂, hb, h⟩ := h
  rw [bind_eq_ok] at h
  obtain ⟨leave, p₃, -, h⟩ := h
  rw [bind_eq_ok] at h
  obtain ⟨_, _, hw, -⟩ := h
  obtain ⟨clause, p₄, hc, -⟩ := writeHandler_eq_ok hw
  exact ⟨_, _, _, _, hb, _, _, _, hc⟩

mutual

/-- What was lowered names only what has a slot, and does not return. -/
theorem uses_of_rewriteStmt (s : Stmt) (known : ∀ t ∈ s.tries, source.facts.Describe t)
    (fine : s.Suspendable) {position : Position} {p p' : Progress} {out : List Stmt}
    (h : rewriteStmt source position s p = .ok (out, p')) :
    s.Uses (.slotted source.paramCount False) := by
  cases s with
  | label | goto | nop | yieldBreak => exact trivial
  | ret value => cases h
  | block ss =>
    rw [rewriteStmt, bind_eq_ok] at h
    obtain ⟨inner, _, hi, -⟩ := h
    exact uses_of_rewriteStmts ss known fine hi
  | expr value | throw value | condGoto value | switch value =>
    rw [rewriteStmt, bind_eq_ok] at h
    obtain ⟨e, _, he, -⟩ := h
    exact uses_of_hoistExpr he
  | yield value =>
    rw [rewriteStmt, bind_eq_ok] at h
    obtain ⟨e, _, he, -⟩ := h
    exact ⟨trivial, uses_of_hoistExpr he⟩
  | assign place value =>
    rw [rewriteStmt, bind_eq_ok] at h
    obtain ⟨_, _, hp, h⟩ := h
    rw [bind_eq_ok] at h
    obtain ⟨_, _, he, -⟩ := h
    exact ⟨uses_of_hoistPlace hp, uses_of_hoistExpr he⟩
  | tryCatch id body catches finally? =>
    cases finally? with
    | none =>
      obtain ⟨quiet, quiet', fineBody, fineCatches⟩ := fine
      have plain : source.facts.containsYield id = false := by
        refine (known _ List.mem_cons_self).yields.trans ?_
        exact (congrArg₂ or quiet quiet').trans rfl
      have knownBody : ∀ t ∈ Stmt.triesAll body, source.facts.Describe t := fun t ht =>
        known t (List.mem_cons_of_mem _ (List.mem_append_left _ ht))
      have knownCatches : ∀ t ∈ Catch.triesAll catches, source.facts.Describe t := fun t ht =>
        known t (List.mem_cons_of_mem _ (List.mem_append_right _ ht))
      rw [rewriteStmt, if_neg (Bool.eq_false_iff.mp plain), bind_eq_ok] at h
      obtain ⟨body', _, hb, h⟩ := h
      rw [bind_eq_ok] at h
      obtain ⟨catches', _, hc, -⟩ := h
      exact ⟨uses_of_rewriteStmts body knownBody fineBody hb,
        uses_of_rewriteCatches catches knownCatches fineCatches hc⟩
    | some cleanup =>
      obtain ⟨plain, quiet, quiet', -, fineBody, fineCatches, fineCleanup⟩ := fine
      have knownBody : ∀ t ∈ Stmt.triesAll body, source.facts.Describe t := fun t ht =>
        known t (List.mem_cons_of_mem _ (List.mem_append_left _ (List.mem_append_left _ ht)))
      have knownCatches : ∀ t ∈ Catch.triesAll catches, source.facts.Describe t := fun t ht =>
        known t (List.mem_cons_of_mem _ (List.mem_append_left _ (List.mem_append_right _ ht)))
      have knownCleanup : ∀ t ∈ Stmt.triesAll cleanup, source.facts.Describe t := fun t ht =>
        known t (List.mem_cons_of_mem _ (List.mem_append_right _ ht))
      rw [rewriteStmt] at h
      split at h
      next suspends =>
        -- A try statement that suspends has no catch clauses, which would be left out.
        have yields : Stmt.anyYields body = true := by
          have described := (known _ List.mem_cons_self).yields
          change source.facts.containsYield id = _ at described
          rw [suspends, Stmt.yields, quiet, quiet', Bool.or_false, Bool.or_false] at described
          exact described.symm
        obtain rfl := plain yields
        obtain ⟨_, _, _, _, hb, _, _, _, hc⟩ := body_of_suspendingTry h
        exact ⟨uses_of_rewriteStmts body knownBody fineBody hb, trivial,
          uses_of_rewriteStmts cleanup knownCleanup fineCleanup hc⟩
      next =>
        dsimp only at h
        rw [bind_eq_ok] at h
        obtain ⟨body', _, hb, h⟩ := h
        rw [bind_eq_ok] at h
        obtain ⟨catches', _, hc, h⟩ := h
        rw [bind_eq_ok] at h
        obtain ⟨cleanup', _, hf, -⟩ := h
        exact ⟨uses_of_rewriteStmts body knownBody fineBody hb,
          uses_of_rewriteCatches catches knownCatches fineCatches hc,
          uses_of_rewriteStmts cleanup knownCleanup fineCleanup hf⟩
  | tryFault body fault =>
    have knownBody : ∀ t ∈ Stmt.triesAll body, source.facts.Describe t := fun t ht =>
      known t (List.mem_append_left _ ht)
    have knownFault : ∀ t ∈ Stmt.triesAll fault, source.facts.Describe t := fun t ht =>
      known t (List.mem_append_right _ ht)
    rw [rewriteStmt, bind_eq_ok] at h
    obtain ⟨body', _, hb, h⟩ := h
    rw [bind_eq_ok] at h
    obtain ⟨fault', _, hf, -⟩ := h
    exact ⟨uses_of_rewriteStmts body knownBody fine.2.2.1 hb,
      uses_of_rewriteStmts fault knownFault fine.2.2.2 hf⟩

theorem uses_of_rewriteStmts (ss : List Stmt)
    (known : ∀ t ∈ Stmt.triesAll ss, source.facts.Describe t) (fine : Stmt.SuspendableAll ss)
    {position : Position} {p p' : Progress} {out : List Stmt}
    (h : rewriteStmts source position ss p = .ok (out, p')) :
    Stmt.UsesAll (.slotted source.paramCount False) ss := by
  cases ss with
  | nil => exact trivial
  | cons s ss =>
    rw [rewriteStmts, bind_eq_ok] at h
    obtain ⟨first, _, hs, h⟩ := h
    rw [bind_eq_ok] at h
    obtain ⟨rest, _, hss, -⟩ := h
    exact ⟨uses_of_rewriteStmt s (fun t ht => known t (List.mem_append_left _ ht)) fine.1 hs,
      uses_of_rewriteStmts ss (fun t ht => known t (List.mem_append_right _ ht)) fine.2 hss⟩

theorem uses_of_rewriteCatches (cs : List Catch)
    (known : ∀ t ∈ Catch.triesAll cs, source.facts.Describe t) (fine : Catch.SuspendableAll cs)
    {position : Position} {p p' : Progress} {out : List Catch}
    (h : rewriteCatches source position cs p = .ok (out, p')) :
    Catch.UsesAll (.slotted source.paramCount False) cs := by
  cases cs with
  | nil => exact trivial
  | cons c cs =>
    obtain ⟨ty, caught, body⟩ := c
    have knownBody : ∀ t ∈ Stmt.triesAll body, source.facts.Describe t := fun t ht =>
      known t (List.mem_append_left _ ht)
    have knownRest : ∀ t ∈ Catch.triesAll cs, source.facts.Describe t := fun t ht =>
      known t (List.mem_append_right _ ht)
    rw [rewriteCatches, bind_eq_ok] at h
    obtain ⟨first, _, hc, h⟩ := h
    rw [bind_eq_ok] at h
    obtain ⟨rest, _, hcs, -⟩ := h
    have later := uses_of_rewriteCatches cs knownRest fine.2 hcs
    cases caught with
    | none =>
      rw [rewriteCatch, bind_eq_ok] at hc
      obtain ⟨body', _, hb, -⟩ := hc
      exact ⟨nofun, uses_of_rewriteStmts body knownBody fine.1 hb, later⟩
    | some caught =>
      rw [rewriteCatch, bind_eq_ok] at hc
      obtain ⟨local_, _, -, hc⟩ := hc
      rw [bind_eq_ok] at hc
      obtain ⟨place, _, hp, hc⟩ := hc
      rw [bind_eq_ok] at hc
      obtain ⟨body', _, hb, -⟩ := hc
      have slot : (Place.local caught).Uses (.slotted source.paramCount False) :=
        uses_of_hoistPlace hp
      refine ⟨?_, uses_of_rewriteStmts body knownBody fine.1 hb, later⟩
      rintro _ ⟨⟩
      exact slot

end

end Lowering

open Lowering

/-- How many frames the try statements of a body become. -/
def Body.frameCount (body : Body) : Nat := (frameIds (Stmt.triesAll body.root)).length

/-- There are enough ids for a machine of the body: two labels, those that its statements draw, and
two labels and a try id for each frame in the dispose method. -/
structure Body.LeavesRoom (body : Body) : Prop where
  labels : body.labelCount + 2 + Stmt.labelDemandAll 0 body.root + 2 * body.frameCount < idLimit
  tries : body.tryCount + body.frameCount < idLimit

namespace Lowering

theorem rewriteStep_of_ok {body : Body} {facts : YieldFacts} (room : body.labelCount + 2 < idLimit)
    {rewritten : List Stmt} {p' : Progress}
    (h : rewriteStmts (.of body facts) {} body.root (.begun body) = .ok (rewritten, p')) :
    ∃ step, rewriteStep (.of body facts) body.root (.start body) = .ok (step, p') := by
  let first : Progress := { Progress.start body with locals := [{ name := none, ty := .int32 }] }
  have cached : temp .int32 (.start body) = .ok (⟨0⟩, first) := rfl
  have start : addState FrameTree.root first = .ok ((0, ⟨body.labelCount + 1⟩), .begun body) := by
    have one : first.resumeLabels.length + 1 < stateLimit :=
      show 1 < stateLimit by decide
    obtain ⟨state, p₁, added⟩ := addState_of_room FrameTree.root room one
    obtain ⟨rfl, -, -, rfl⟩ := addState_eq_ok added
    exact added
  have read : (get : LowerM Progress) p' = .ok (p', p') := rfl
  unfold rewriteStep
  rw [lower_bind_of_ok cached, lower_bind_of_ok start]
  dsimp only
  rw [lower_bind_of_ok h, lower_bind_of_ok read]
  exact ⟨_, rfl⟩

/-- The step method and the dispose method of a body that suspends only where it may, and not too
often, and whose names have slots can be written. -/
theorem exists_methods {body : Body} (unique : (Stmt.tryIdsAll body.root).Nodup)
    (room : body.LeavesRoom) (states : body.yielded.length + 1 < stateLimit) (legal : ¬Stmt.Misplaced body.root)
    (uses : Stmt.UsesAll (.slotted body.params.length False) body.root) :
    ∃ facts step progress dispose ids, YieldFacts.ofBody body = .ok facts ∧
      rewriteStep (.of body facts) body.root (.start body) = .ok (step, progress) ∧
      Dispose.build progress.frames progress.ids = some (dispose, ids) := by
  obtain ⟨facts, analysed⟩ := (YieldFacts.exists_ofBody_iff unique).mpr legal
  have known := YieldFacts.describe_ofBody unique analysed
  have fine := Stmt.suspendableAll_iff_not_misplaced.mpr legal
  obtain ⟨labels, tries⟩ := room
  have begun : body.labelCount + 2 < idLimit := by omega
  have lies : (Progress.begun body).frames.Lies [] := .root rfl Nat.one_pos
  have sound := sound_begun begun
  have few : body.frameCount ≤ Stmt.labelDemandAll 0 body.root :=
    Stmt.length_frameIdsAll_le body.root fine 0
  have enough : Affords [] (Stmt.labelDemandAll 0 body.root) body.frameCount body.yielded.length
      (Progress.begun body) := by
    refine ⟨?_, ?_, ?_⟩
    · change body.labelCount + 2 + Stmt.labelDemandAll 0 body.root < idLimit
      omega
    · change 0 + body.frameCount + 2 < stateLimit
      have limits : idLimit = 2 * stateLimit := rfl
      have large : 9 < stateLimit := by decide
      omega
    · change 1 + body.yielded.length < stateLimit
      omega
  have lowers : GetsThrough body.labelCount [] (rewriteStmts (.of body facts) {} body.root)
      (Stmt.labelDemandAll 0 body.root) body.frameCount body.yielded.length :=
    getsThrough_rewriteStmts body.root known fine uses rfl
  obtain ⟨rewritten, p', rewrote, -, -, drawn, handlers⟩ := lowers _ sound lies enough
  have evolves := RewritesAll.evolves (rewritesAll_of_ok body.root known fine rewrote) fine sound
    Nat.one_pos
  obtain ⟨step, written⟩ := rewriteStep_of_ok begun rewrote
  have frames : p'.frames.frames.length - 1 = body.frameCount := by
    rw [evolves.sound.count, handlers]
    exact Nat.zero_add _
  have spent : p'.ids.labelCount ≤ body.labelCount + 2 + Stmt.labelDemandAll 0 body.root := drawn
  have numbers : p'.ids.tryCount = body.tryCount := evolves.grows.tries
  obtain ⟨dispose, ids, made⟩ := Dispose.exists_build evolves.sound.nested
    (evolves.grows.lies lies) p'.ids (by rw [frames]; omega) (by rw [frames, numbers]; exact tries)
  exact ⟨facts, step, p', dispose, ids, analysed, written, made⟩

end Lowering

/-- A machine can be made of an iterator method of the program that suspends only where it may, and
not too often, and whose names have slots. -/
theorem exists_lowerIterator {symbols : Symbols} (options : LoweringOptions)
    {iterator : IteratorMethod} (known : iterator.method.index < symbols.methods.length)
    (unique : (Stmt.tryIdsAll iterator.body.root).Nodup) (room : iterator.body.LeavesRoom)
    (states : iterator.body.yielded.length + 1 < stateLimit) (legal : ¬Stmt.Misplaced iterator.body.root)
    (uses : Stmt.UsesAll (.slotted iterator.body.params.length False) iterator.body.root) :
    ∃ machine, lowerIterator symbols options iterator = .ok machine := by
  have exit : (FreshIds.after iterator.body).label? = some (⟨iterator.body.labelCount⟩,
      ⟨iterator.body.labelCount + 1, iterator.body.tryCount⟩) := by
    refine if_pos ?_
    have labels := room.labels
    change iterator.body.labelCount + 1 < idLimit
    omega
  obtain ⟨facts, step, progress, dispose, ids, analysed, written, made⟩ :=
    exists_methods unique room states legal uses
  have run : (Dispose.build progress.frames).run progress.ids = some (dispose, ids) := made
  unfold lowerIterator
  dsimp only
  rw [except_bind_of_ok analysed, exit]
  change ∃ machine, (rewriteStep (.of iterator.body facts) iterator.body.root
    (.start iterator.body) >>= _) = .ok machine
  rw [except_bind_of_ok written, run, List.getElem?_eq_getElem known]
  exact ⟨_, rfl⟩

end ManagedCode
