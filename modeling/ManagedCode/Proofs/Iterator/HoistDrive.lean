import ManagedCode.Proofs.Coroutine.Live
import ManagedCode.Proofs.Iterator.HoistRun

namespace ManagedCode

/-! A coroutine runs alike over its own locals and over the fields of its machine. -/

mutual

@[simp] theorem Stmt.yields_returning (s : Stmt) : s.returning.yields = s.yields := by
  cases s with
  | block stmts => exact Stmt.anyYields_returningAll stmts
  | tryCatch id body catches cleanup =>
    cases cleanup with
    | none =>
      simp only [Stmt.returning, Stmt.yields, Stmt.anyYields_returningAll body,
        Catch.anyYields_returningAll catches]
    | some cleanup =>
      simp only [Stmt.returning, Stmt.yields, Stmt.anyYields_returningAll body,
        Catch.anyYields_returningAll catches, Stmt.anyYields_returningAll cleanup]
  | tryFault body fault =>
    simp only [Stmt.returning, Stmt.yields, Stmt.anyYields_returningAll body,
      Stmt.anyYields_returningAll fault]
  | _ => rfl

@[simp] theorem Stmt.anyYields_returningAll (ss : List Stmt) :
    Stmt.anyYields (Stmt.returningAll ss) = Stmt.anyYields ss := by
  cases ss with
  | nil => rfl
  | cons s ss =>
    rw [Stmt.returningAll, Stmt.anyYields, Stmt.anyYields, Stmt.yields_returning s,
      Stmt.anyYields_returningAll ss]

theorem Catch.anyYields_returningAll (cs : List Catch) :
    Catch.anyYields (Catch.returningAll cs) = Catch.anyYields cs := by
  cases cs with
  | nil => rfl
  | cons c cs =>
    obtain ⟨ty, caught, body⟩ := c
    simp only [Catch.returningAll, Catch.returning, Catch.anyYields, Stmt.anyYields_returningAll body,
      Catch.anyYields_returningAll cs]

end

variable {σ : Type} {n m : Nat}

/-- An open try statement, and what it is hoisted to. -/
inductive OpenTry.Hoists (n m : Nat) : OpenTry → OpenTry → Prop
  | mk {id : TryId} {catches : List Catch} {finally? : Option (List Stmt)} {after after' : Point}
    (clauses : Catch.UsesAll (.ranged m n) catches)
    (cleanup : ∀ ss, finally? = some ss → Stmt.UsesAll (.ranged m n) ss)
    (later : after.Hoists n m after') :
    Hoists n m ⟨id, Catch.returningAll catches, finally?.map Stmt.returningAll, after⟩
      ⟨id, Catch.hoistAll n catches, finally?.map (Stmt.hoistAll n), after'⟩

/-- Both stopped in the same way, at places that correspond. -/
inductive Outcome.Hoists (n m : Nat) : Outcome → Config σ → Outcome → Config σ → Prop
  | paused {a b : Config σ} {value : Value} {p p' : Point} {opened opened' : List OpenTry}
    (places : p.Hoists n m p') (tries : List.Forall₂ (OpenTry.Hoists n m) opened opened')
    (kept : Keeps n m a b) :
    Hoists n m (.paused value p opened) a (.paused value p' opened') b
  | ended {a b : Config σ} {flow : Flow} (kept : Keeps n m a b) :
    Hoists n m (.ended flow) a (.ended flow) b

namespace Coroutine

variable {env : Environment σ} {observer : Observer σ} {fuel : Nat} {a b : Config σ}

/-- Within an amount of fuel, a body runs up to its next yield as the hoisted body does. -/
def HoistDrives (env : Environment σ) (observer : Observer σ) (n m fuel : Nat) : Prop :=
  ∀ {p p' : Point} {opened opened' : List OpenTry} {a b : Config σ}, p.Hoists n m p' →
    List.Forall₂ (OpenTry.Hoists n m) opened opened' → a.fuel ≤ fuel → Keeps n m a b →
    Simulates (drives env observer p opened) a (drives env observer p' opened') b (Keeps n m)
      (Outcome.Hoists n m)

theorem tells (f : σ → σ) (kept : Keeps n m a b) :
    Simulates (Exec.onHost f : Exec σ Unit) a (Exec.onHost f) b (Keeps n m)
      (fun _ a' _ b' => a'.fuel = a.fuel ∧ Keeps n m a' b') := by
  have before : Kept n m a.activation a.world b.world := kept
  exact .update rfl (fun _ => rfl) ⟨rfl, { before with host := congrArg f before.host }⟩

theorem hoists_leaveTry (still : ∀ s h, env.watch s h = h) {try_ try' : OpenTry}
    (h : try_.Hoists n m try') (flow : Flow) (kept : Keeps n m a b) :
    Simulates (leaveTry env observer try_ flow) a (leaveTry env observer try' flow) b (Keeps n m)
      (KeepsAt n m) := by
  obtain ⟨clauses, cleanup, -⟩ := h
  rename_i id catches finally? after after'
  refine (tells _ kept).bind fun _ a₁ _ b₁ _ step => ?_
  obtain ⟨-, kept₁⟩ := step
  have handles := HoistsWell.handle (hoistsWell still a₁.fuel) still clauses (Nat.le_refl _) kept₁ flow
  refine handles.bind fun flow a₂ _ b₂ _ step => ?_
  obtain ⟨rfl, kept₂⟩ := step
  cases finally? with
  | none => exact .pure ⟨rfl, kept₂⟩
  | some ss =>
    exact HoistsWell.cleanUp (hoistsWell still a₂.fuel) (cleanup ss rfl) (Nat.le_refl _) kept₂ flow

section

variable {opened opened' : List OpenTry}

theorem hoists_land (goes : HoistDrives env observer n m fuel) {leave leave' : Flow → Exec σ Outcome}
    {after after' : Point} (later : after.Hoists n m after')
    (tries : List.Forall₂ (OpenTry.Hoists n m) opened opened') (less : a.fuel ≤ fuel) (flow : Flow)
    (leaves : Simulates (leave flow) a (leave' flow) b (Keeps n m) (Outcome.Hoists n m))
    (kept : Keeps n m a b) :
    Simulates (land (drives env observer) leave after opened flow) a
      (land (drives env observer) leave' after' opened' flow) b (Keeps n m)
      (Outcome.Hoists n m) := by
  cases flow with
  | normal => exact goes later tries less kept
  | goto label =>
    have found := Point.jump?_hoist label later
    simp only [land]
    generalize Point.jump? label after = x at found ⊢
    generalize Point.jump? label after' = y at found ⊢
    cases found with
    | none => exact leaves
    | some h => exact goes h tries less kept
  | _ => exact leaves

theorem hoists_leave (still : ∀ s h, env.watch s h = h) (goes : HoistDrives env observer n m fuel)
    (tries : List.Forall₂ (OpenTry.Hoists n m) opened opened') (flow : Flow) (less : a.fuel ≤ fuel)
    (kept : Keeps n m a b) :
    Simulates (leave env observer (drives env observer) opened flow) a
      (leave env observer (drives env observer) opened' flow) b (Keeps n m)
      (Outcome.Hoists n m) := by
  induction tries generalizing flow a b with
  | nil => exact .pure (.ended kept)
  | cons first rest ih =>
    refine (hoists_leaveTry still first flow kept).bind fun flow a' _ b' fewer step => ?_
    obtain ⟨rfl, kept'⟩ := step
    obtain ⟨-, -, later⟩ := first
    exact hoists_land goes later rest (by omega) flow (ih flow (by omega) kept') kept'

/-- A statement of a body is advanced as the hoisted statement is. -/
theorem hoists_advance (still : ∀ s h, env.watch s h = h) (goes : HoistDrives env observer n m fuel)
    {s : Stmt} (own : s.Uses (.ranged m n)) {after after' : Point} (later : after.Hoists n m after')
    (tries : List.Forall₂ (OpenTry.Hoists n m) opened opened') (less : a.fuel ≤ fuel)
    (kept : Keeps n m a b) :
    Simulates (advance env observer (drives env observer) s.returning after opened) a
      (advance env observer (drives env observer) (s.hoist n) after' opened') b (Keeps n m)
      (Outcome.Hoists n m) := by
  have leaves : ∀ {a' b' : Config σ} (flow : Flow), a'.fuel ≤ a.fuel → Keeps n m a' b' →
      Simulates (leave env observer (drives env observer) opened flow) a'
        (leave env observer (drives env observer) opened' flow) b' (Keeps n m)
        (Outcome.Hoists n m) := fun flow fewer kept =>
    hoists_leave still goes tries flow (by omega) kept
  -- A statement that is executed as it always is.
  have lands : (∀ stmts, s ≠ .block stmts) →
      Simulates ((env.execStmt env.runAll s.returning).unwinding >>=
          land (drives env observer) (leave env observer (drives env observer) opened) after opened) a
        ((env.execStmt env.runAll (s.hoist n)).unwinding >>=
          land (drives env observer) (leave env observer (drives env observer) opened') after' opened')
        b (Keeps n m) (Outcome.Hoists n m) := by
    intro plain
    have exec := HoistsWell.exec (hoistsWell still a.fuel) still own plain (Nat.le_refl _) kept
    have ended := exec.unwinding fun v _ _ kept => ⟨rfl, kept⟩
    refine ended.bind fun flow a' _ b' fewer step => ?_
    obtain ⟨rfl, kept'⟩ := step
    exact hoists_land goes later tries (by omega) flow (leaves flow fewer kept') kept'
  cases s with
  | block stmts => exact goes (Point.hoists_start own later) tries less kept
  | yield value =>
    have evaluated : Simulates
        (Exec.unwinding (do return Flow.ret (← env.eval env.runAll value))) a
        (Exec.unwinding (do return Flow.ret (← env.eval env.runAll (value.hoist n)))) b (Keeps n m)
        (KeepsAt n m) := by
      refine Simulates.unwinding ((kept.eval own.2).bind fun v a' w b' _ step => ?_)
        fun v _ _ kept => ⟨rfl, kept⟩
      exact .pure ⟨congrArg Flow.ret step.1, step.2⟩
    refine evaluated.bind fun flow a' _ b' fewer step => ?_
    obtain ⟨rfl, kept'⟩ := step
    cases flow with
    | ret value => exact .pure (.paused later tries kept')
    | _ => exact leaves _ fewer kept'
  | tryCatch id body catches cleanup =>
    by_cases suspends : Stmt.anyYields body = true
    case neg =>
      have lands := lands (fun _ h => by cases h)
      cases cleanup with
      | none => simpa [Stmt.returning, Stmt.hoist, advance, suspends] using lands
      | some cleanup => simpa [Stmt.returning, Stmt.hoist, advance, suspends] using lands
    have opens : ∀ finally? : Option (List Stmt), Stmt.UsesAll (.ranged m n) body →
        Catch.UsesAll (.ranged m n) catches →
        (∀ ss, finally? = some ss → Stmt.UsesAll (.ranged m n) ss) →
        Simulates (Exec.onHost (observer.entered id) >>= fun _ =>
            drives env observer (.start (Stmt.returningAll body)) (⟨id, Catch.returningAll catches,
              finally?.map Stmt.returningAll, after⟩ :: opened)) a
          (Exec.onHost (observer.entered id) >>= fun _ =>
            drives env observer (.start (Stmt.hoistAll n body)) (⟨id, Catch.hoistAll n catches,
              finally?.map (Stmt.hoistAll n), after'⟩ :: opened')) b (Keeps n m)
          (Outcome.Hoists n m) := by
      intro finally? uses clauses last
      refine (tells _ kept).bind fun _ a' _ b' _ step => ?_
      obtain ⟨same, kept'⟩ := step
      exact goes (Point.hoists_start uses .nil) (.cons (.mk clauses last later) tries) (by omega) kept'
    cases cleanup with
    | none =>
      have opens := opens none own.1 own.2 fun _ h => by cases h
      simpa [Stmt.returning, Stmt.hoist, advance, suspends] using opens
    | some cleanup =>
      have opens := opens (some cleanup) own.1 own.2.1 (by rintro _ ⟨⟩; exact own.2.2)
      simpa [Stmt.returning, Stmt.hoist, advance, suspends] using opens
  | _ => exact lands (fun _ h => by cases h)

/-- Within any amount of fuel, a body runs up to its next yield as the hoisted body does. -/
theorem hoistDrives (still : ∀ s h, env.watch s h = h) (fuel : Nat) :
    HoistDrives env observer n m fuel := by
  induction fuel using Nat.strongRecOn with
  | ind fuel ih =>
  intro p p' opened opened' a b h tries less kept
  have shorter : ∀ {k : Nat}, a.fuel = k + 1 → HoistDrives env observer n m k :=
    fun h => ih _ (by omega)
  rcases h.next with ⟨done, done'⟩ | ⟨s, after, after', own, due, due', later⟩
  · cases tries with
    | nil =>
      rw [drives_done done, drives_done done']
      exact .pure (.ended kept)
    | cons first rest =>
      rw [drives_leave done, drives_leave done']
      refine Simulates.tick (k := 0) (Exec.Reaches.tick _ b) fun k hk => ?_
      exact hoists_leave still (shorter hk) (.cons first rest) .normal (Nat.le_refl k)
        (kept.withFuel k b.fuel)
  · rw [drives_eq due, drives_eq due']
    refine Simulates.tick (k := 0) (Exec.Reaches.tick _ b) fun k hk => ?_
    exact hoists_advance still (shorter hk) own later tries (Nat.le_refl k) (kept.withFuel k b.fuel)

end

/-! Calls. -/

inductive Status.Hoists (n m : Nat) : Status → Status → Prop
  | fresh : Hoists n m .fresh .fresh
  | paused {p p' : Point} {opened opened' : List OpenTry} (places : p.Hoists n m p')
    (tries : List.Forall₂ (OpenTry.Hoists n m) opened opened') :
    Hoists n m (.paused p opened) (.paused p' opened')
  | done : Hoists n m .done .done

/-- A coroutine over its own locals, and one over the fields of its machine. -/
structure Live.Hoists (n m : Nat) (live live' : Live σ) : Prop where
  status : live.status.Hoists n m live'.status
  kept : Kept n m live.activation live.world live'.world

theorem matches_resume {live live' : Live σ} {next next' : Exec σ Outcome}
    (sim : ∀ k, Simulates next (live.config k) next' (live'.config 0) (Keeps n m)
      (Outcome.Hoists n m)) (contained : next'.Contained) :
    Matches (resume next ·) live (resume next' ·) live' fun r s t =>
      s.host = t.host ∧ ((∃ answer : Answer, r = answer.result) → s.Hoists n m t) := by
  refine Simulates.matches (a := live.config 0) sim contained (.of .done) (.of .done)
    (fun _ _ => rfl) (fun n error c h => resume_error h) (fun n error c h => resume_error h) ?_ ?_
  · intro error a' b' other kept
    have kept : Kept n m a'.activation a'.world b'.world := kept
    refine ⟨kept.host, ?_⟩
    rintro ⟨answer, hr⟩
    cases answer with
    | ok element => cases hr
    | error value => exact absurd (Except.error.inj hr) (other value)
  · intro outcome a' outcome' b' stopped
    cases stopped with
    | paused places tries kept =>
      rename_i value p p' opened opened'
      have kept : Kept n m a'.activation a'.world b'.world := kept
      exact ⟨.ok (some value), .of (.paused p opened) a', .of (.paused p' opened') b', by simp,
        ⟨kept.host, fun _ => ⟨.paused places tries, { kept with }⟩⟩, fun n h => resume_paused h,
        fun n f h => resume_paused (c := b'.withFuel f) h⟩
    | ended kept =>
      rename_i flow
      have kept : Kept n m a'.activation a'.world b'.world := kept
      refine ⟨flow.result.map fun _ => none, .of .done a', .of .done b', ?_,
        ⟨kept.host, fun _ => ⟨.done, { kept with }⟩⟩, fun n h => resume_ended h,
        fun n f h => resume_ended (c := b'.withFuel f) h⟩
      cases flow <;> exact nofun

theorem matches_nothing {live live' : Live σ} (kept : Kept n m live.activation live.world live'.world) :
    Matches (fun _ live => .ok none { live with status := .done }) live
      (fun _ live => .ok none { live with status := .done }) live' fun (r : Except RunError (Option Value)) s t =>
      s.host = t.host ∧ ((∃ answer : Answer, r = answer.result) → s.Hoists n m t) := fun _ =>
  ⟨.ok none, _, rfl, .inr ⟨by simp, 0, _, fun _ _ => rfl,
    fun _ less => absurd less (Nat.not_lt_zero _), kept.host, fun _ => ⟨.done, kept⟩⟩⟩

/-- A body answers every call as the hoisted body does. -/
theorem bisimilar_hoist (still : ∀ s h, env.watch s h = h) {root : List Stmt}
    (uses : Stmt.UsesAll (.ranged m n) root) :
    Bisimilar (perform env observer (Stmt.returningAll root))
      (perform env observer (Stmt.hoistAll n root)) (Live.Hoists n m)
      fun live live' => live.host = live'.host where
  alike h := h.kept.host
  calls {live live'} linked call := by
    obtain ⟨status, activation, fields, host⟩ := live
    obtain ⟨status', activation', fields', host'⟩ := live'
    obtain ⟨places, kept⟩ := linked
    dsimp only at places kept
    cases places with
    | fresh =>
      cases call with
      | moveNext =>
        refine matches_resume (fun k => ?_) (contained_drives _ _)
        exact hoistDrives still k (Point.hoists_start uses .nil) .nil (Nat.le_refl k) { kept with }
      | dispose => exact matches_nothing kept
    | paused places tries =>
      cases call with
      | moveNext =>
        refine matches_resume (fun k => ?_) (contained_drives _ _)
        exact hoistDrives still k places tries (Nat.le_refl k) { kept with }
      | dispose =>
        refine matches_resume (fun k => ?_) (contained_leave contained_drives _ _)
        exact hoists_leave still (hoistDrives still k) tries _ (Nat.le_refl k) { kept with }
    | done => cases call <;> exact matches_nothing kept

end Coroutine

end ManagedCode
