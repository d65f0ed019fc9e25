import ManagedCode.Proofs.Iterator.Driving

namespace ManagedCode

/-- The places of a list that is being executed are all at home. -/
theorem At.suffix_of {top list rest rest' : List Stmt} {outer : Point}
    (h : At top (⟨list, rest⟩ :: outer)) (le : rest' <:+ list) : At top (⟨list, rest'⟩ :: outer) := by
  cases h with
  | base _ => exact .base le
  | block ho hl _ => exact .block ho hl le

namespace Lowering

variable {σ : Type} {iterator : IteratorMethod} {machine : StateMachine}
  {assembly : Assembly iterator machine} {observer : Observer σ} {E M : Environment σ}
  {current : Option Value} {a b : Config σ} {level : Level}

/-! The methods of a machine, from where it waits. -/

/-- The dispatch of a step method goes to the label of the state. -/
theorem lookup_states (labels : List LabelId) {s : Int} (fits : Fits s) (n : Nat)
    (room : n + labels.length ≤ idLimit) :
    (labels.mapIdx fun i l => (Int64.ofNat (n + i), l)).lookup (Int64.ofInt s) =
      if (n : Int) ≤ s then labels[(s - n).toNat]? else none := by
  induction labels generalizing n with
  | nil => simp
  | cons label labels ih =>
    rw [List.length_cons] at room
    have shift : (labels.mapIdx fun i l => (Int64.ofNat (n + (i + 1)), l)) =
        labels.mapIdx fun i l => (Int64.ofNat (n + 1 + i), l) := by
      congr 1
      funext i l
      rw [Nat.add_assoc, Nat.add_comm 1 i]
    rw [List.mapIdx_cons, List.lookup_cons, shift, ih (n + 1) (by omega)]
    have small : Fits n := by
      unfold idLimit at room
      exact Int64.toInt_ofInt_of_le (by omega) (by omega)
    have number : Int64.ofNat (n + 0) = Int64.ofInt n := by
      rw [Nat.add_zero]
      exact (Int64.ofInt_eq_ofNat).symm
    by_cases here : s = n
    · subst here
      rw [number, beq_self_eq_true]
      simp
    · have other : (Int64.ofInt s == Int64.ofNat (n + 0)) = false := by
        refine beq_false_of_ne fun same => here ?_
        exact Dispose.ofInt_inj fits small (same.trans number)
      rw [other]
      by_cases later : (n : Int) ≤ s
      · obtain ⟨d, rfl⟩ := Int.eq_ofNat_of_zero_le (by omega : 0 ≤ s)
        have next : n + 1 ≤ d := by omega
        obtain ⟨i, rfl⟩ := Nat.exists_eq_add_of_le next
        have first : ((n + 1 + i : Nat) - (n : Int)).toNat = i + 1 := by omega
        have second : ((n + 1 + i : Nat) - ((n + 1 : Nat) : Int)).toNat = i := by omega
        rw [if_pos (by omega), if_pos later, first, second, List.getElem?_cons_succ]
      · rw [if_neg (by omega), if_neg later]

/-- The step method first goes to the label of its state, if there is one. -/
theorem reaches_dispatch (hosted : Hosted E M) {s : Int} (fits : Fits s)
    (state : b.world.fields[0]? = some (stateValue s)) :
    ∃ c k, c.world = b.world ∧ (M.runAll assembly.stepStmts).Reaches b k
      (Environment.follow M.runs [⟨assembly.stepStmts, assembly.stepStmts.tail.tail⟩]
        ((if 0 ≤ s then assembly.plan.resumeLabels[s.toNat]? else none).elim .normal .goto)) c := by
  let c : Config σ := { b with activation := b.activation.writeLocal ⟨0⟩ (stateValue s) }
  have labels : assembly.plan.resumeLabels.length ≤ idLimit :=
    Nat.le_of_lt (Nat.lt_of_le_of_lt assembly.sound.states assembly.sound.limit)
  have read : (M.runAll assembly.stepStmts).Reaches b (1 + 0)
      (M.runs [⟨assembly.stepStmts, assembly.stepStmts.tail⟩]) c :=
    runs_reaches (s := .assign (.local ⟨0⟩) (.machineField stateField)) rfl nofun
      (hosted.quiet _ ⟨rfl, rfl⟩) (ends_readState M ⟨0⟩ state)
  have held : c.activation.locals.lookup ⟨0⟩ = some (stateValue s) :=
    Activation.lookup_writeLocal_self _ _ _
  have choose : (M.runs [⟨assembly.stepStmts, assembly.stepStmts.tail⟩]).Reaches c (1 + 0) _ c :=
    runs_reaches (s := .switch (.local ⟨0⟩) (assembly.plan.resumeLabels.mapIdx fun state label =>
      (Int64.ofNat state, label)) none) rfl nofun (hosted.quiet _ ⟨rfl, rfl⟩) (ends_switch held)
  have chosen := lookup_states assembly.plan.resumeLabels fits 0 (by omega)
  simp only [Nat.zero_add, Int.natCast_zero, Int.sub_zero] at chosen
  rw [chosen] at choose
  exact ⟨c, _, rfl, read.trans choose⟩

/-- Where it has no label to go to, it answers that there is no element. -/
theorem step_ended (hosted : Hosted E M) {s : Int} (fits : Fits s)
    (ended : s < 0 ∨ assembly.plan.resumeLabels.length ≤ s)
    (state : b.world.fields[0]? = some (stateValue s)) :
    ∃ c k, c.world = b.world ∧
      (M.runAll (stepRoot assembly.facts.hasFrames assembly.stepStmts)).Ends b k
        (.ret (.bool false)) c := by
  have nowhere : (if 0 ≤ s then assembly.plan.resumeLabels[s.toNat]? else none) = none := by
    split
    next low =>
      rcases ended with high | high
      · omega
      · exact List.getElem?_eq_none (by omega)
    next => rfl
  obtain ⟨k, start⟩ := reaches_stepRoot hosted assembly.facts.hasFrames assembly.stepStmts b
  obtain ⟨c, k', world, choose⟩ := reaches_dispatch hosted fits state
  rw [nowhere] at choose
  have leave : (M.runs [⟨assembly.stepStmts, assembly.stepStmts.tail.tail⟩]).Reaches c (1 + 0)
      (pure (.ret (.bool false))) c :=
    runs_reaches (s := .ret (some (.bool false))) rfl nofun (hosted.quiet _ ⟨rfl, rfl⟩)
      (.of_eq fun _ => rfl)
  exact ⟨c, _, world, start.trans (choose.trans leave).bind⟩

/-- Where it has one, it goes on from there. -/
theorem step_goesOn (hosted : Hosted E M) {k : Nat} {label : LabelId}
    (resume : assembly.plan.resumeLabels[k]? = some label)
    (state : b.world.fields[0]? = some (stateValue k)) {list rest : List Stmt} {outer : Point}
    (target : At assembly.stepStmts (⟨list, .label label :: rest⟩ :: outer)) :
    ∃ c m, c.world = b.world ∧
      (M.runAll (stepRoot assembly.facts.hasFrames assembly.stepStmts)).Reaches b m
        (M.runs (⟨list, rest⟩ :: outer) >>= finish M assembly.facts.hasFrames) c := by
  have known : k < assembly.plan.resumeLabels.length := (List.getElem?_eq_some_iff.mp resume).1
  have fits : Fits k := assembly.fits (.inl ⟨k, known, rfl⟩)
  have there : (if 0 ≤ (k : Int) then assembly.plan.resumeLabels[(k : Int).toNat]? else none) =
      some label := by
    rw [if_pos (Int.natCast_nonneg k)]
    exact resume
  obtain ⟨m, start⟩ := reaches_stepRoot hosted assembly.facts.hasFrames assembly.stepStmts b
  obtain ⟨c, m', world, choose⟩ := reaches_dispatch hosted fits state
  rw [there] at choose
  have here : At assembly.stepStmts [⟨assembly.stepStmts, assembly.stepStmts.tail.tail⟩] :=
    .base ⟨[_, _], rfl⟩
  have jump := reaches_jump assembly.nodup_stepStmts target here
    (hosted.quiet _ ⟨rfl, rfl⟩) c
  exact ⟨c, _, world, start.trans (choose.trans jump).bind⟩

section

variable (setting : assembly.Setting observer E M)

include setting

/-- The first step runs the body from its start. -/
theorem step_first (alike : Alike (some (stateValue initialState)) current a.world b.world) :
    Simulates (Coroutine.drives E observer (.start assembly.hoisted) []) a
      (M.runAll (stepRoot assembly.facts.hasFrames assembly.stepStmts)) b SameHost
      (assembly.Stopped current) := by
  have hosted := setting.hosted
  have resume : assembly.plan.resumeLabels[0]? = some ⟨iterator.body.labelCount + 1⟩ := by
    obtain ⟨more, split⟩ := assembly.evolves.grows.resume
    change assembly.progress.resumeLabels[0]? = _
    rw [← split]
    rfl
  let body : List Stmt := assembly.rewritten ++ assembly.outermost.tail
  have whole : assembly.stepStmts = assembly.outermost.head ++ body := by
    simp [Assembly.stepStmts, stepStmts, body, Assembly.outermost]
  have target : At assembly.stepStmts [⟨assembly.stepStmts,
      .label ⟨iterator.body.labelCount + 1⟩ :: setState runningState :: body⟩] := by
    refine .base ⟨assembly.outermost.head.take 3, ?_⟩
    rw [whole]
    rfl
  obtain ⟨c, m, world, goes⟩ := step_goesOn hosted resume alike.state target
  have alike' : Alike (some (stateValue initialState)) current a.world c.world := by rwa [world]
  have wide := alike'.wide
  let c' : Config σ := { c with world := inState runningState c.world }
  have run : (M.runs [⟨assembly.stepStmts, setState runningState :: body⟩]).Reaches c (1 + 0)
      (M.runs [⟨assembly.stepStmts, body⟩]) c' :=
    runs_reaches (s := setState runningState) rfl nofun (hosted.quiet _ ⟨rfl, rfl⟩)
      (ends_setState M runningState (by omega))
  have start : assembly.outermost.Aligns assembly.plan (.start assembly.hoisted)
      [⟨assembly.stepStmts, body⟩] := .base (writtenAll_nil ..) assembly.written rfl rfl whole
  refine .ahead (goes.trans run.bind) ?_
  exact drivesWell setting a.fuel .root start (Nat.le_refl _) (alike'.setState runningState)

/-- A step after a yield runs the body from there. -/
theorem step_resumed {k : Nat} {point : Point} (resting : assembly.Resting level k point)
    (alike : Alike (some (stateValue (k + 1 : Nat))) current a.world b.world) :
    Simulates (Coroutine.drives E observer point level.opened) a
      (M.runAll (stepRoot assembly.facts.hasFrames assembly.stepStmts)) b SameHost
      (assembly.Stopped current) := by
  have hosted := setting.hosted
  obtain ⟨t, t', outer, value, label, aligned, suffix, resume⟩ := resting.goesOn
  have target : At assembly.stepStmts
      (⟨t, .label label :: setState level.site.state :: t'⟩ :: (outer ++ level.outer)) :=
    (resting.nests.at_ aligned).suffix_of (List.IsSuffix.trans ⟨[_, _, _], rfl⟩ suffix)
  obtain ⟨c, m, world, goes⟩ := step_goesOn hosted resume alike.state target
  have alike' : Alike (some (stateValue (k + 1 : Nat))) current a.world c.world := by rwa [world]
  have wide := alike'.wide
  let c' : Config σ := { c with world := inState level.site.state c.world }
  have run : (M.runs (⟨t, setState level.site.state :: t'⟩ :: (outer ++ level.outer))).Reaches c
      (1 + 0) (M.runs (⟨t, t'⟩ :: (outer ++ level.outer))) c' :=
    runs_reaches (s := setState level.site.state) rfl nofun (hosted.quiet _ ⟨rfl, rfl⟩)
      (ends_setState M level.site.state (by omega))
  refine .ahead (goes.trans run.bind) ?_
  exact drivesWell setting a.fuel resting.nests aligned (Nat.le_refl _)
    (alike'.setState level.site.state)

end

end Lowering

end ManagedCode
