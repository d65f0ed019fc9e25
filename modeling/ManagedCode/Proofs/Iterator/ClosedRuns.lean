import Mathlib.Data.List.GetD
import ManagedCode.Proofs.Iterator.AssignedCode
import ManagedCode.Proofs.Iterator.Behaviour
import ManagedCode.Proofs.Iterator.Closed
import ManagedCode.Proofs.Run.SelfContained

namespace ManagedCode

/-! Runs of machines, which are closed code. -/

theorem Vocabulary.method_within_machine {locals fields methods : Nat} :
    (Vocabulary.method locals fields methods).Within (.machine fields methods) where
  locals _ := trivial
  params h := h
  slots h := h
  methods h := h
  suspends h := h
  returns h := h

namespace Lowering

variable {iterator : IteratorMethod} {machine : StateMachine}

theorem targeted_begun (body : Body) : (Progress.begun body).Targeted ⟨body.labelCount⟩ := by
  rintro ⟨i⟩ pair mem
  cases i <;> cases mem

/-- Before anything is written, only the start of the step method must be no exit. -/
theorem ready_begun {body : Body} (answer? : Option LocalId) {exits : Set LabelId}
    (start : (⟨body.labelCount + 1⟩ : LabelId) ∉ exits) :
    (Progress.begun body).Ready ⟨body.labelCount⟩ answer? exits where
  proxies := by
    rintro ⟨i⟩ pair mem
    cases i <;> cases mem
  resume _ mem := List.mem_singleton.mp mem ▸ start
  handlers := nofun

namespace Assembly

variable (a : Assembly iterator machine)

include a in
/-- There is a choice of exits for which all that was written of the body is ready. -/
theorem exists_exits (wellFormed : iterator.body.WellFormed) : ∃ exits : Set LabelId,
    a.plan.exit ∈ exits ∧ a.progress.Ready a.plan.exit a.progress.result? exits ∧
      ∀ known, Stmt.AssignedAll (arrivals a.progress.result? exits) known a.rewritten := by
  have labels := wellFormed.labelCount
  have escapes : ∀ l ∈ Stmt.escapesAll iterator.body.root, l.index < iterator.body.labelCount := by
    rw [wellFormed.closed]
    exact nofun
  have targeted := targeted_begun iterator.body
  have prepares : PreparesCode a.plan.exit (.begun iterator.body) a.progress a.rewritten :=
    RewritesAll.prepares a.rewrites wellFormed.inRange labels (below_targets labels escapes)
      targeted
  obtain ⟨made, prepared⟩ := prepares.ready targeted
  let exits : Set LabelId :=
    {l | l = a.plan.exit ∨ iterator.body.labelCount + 2 ≤ l.index ∧ l ∈ made}
  have exit : a.plan.exit.index = iterator.body.labelCount := rfl
  have choice :
      Choice a.plan.exit (.begun iterator.body) a.progress made a.progress.result? exits :=
    { answered := fun _ h => h
      ends := .inl rfl
      outside := by
        rintro l below (rfl | ⟨fresh, -⟩)
        · exact Nat.lt_irrefl _ below
        · omega
      new := fun l low _ => by
        have fresh : iterator.body.labelCount + 2 ≤ l.index := low
        refine ⟨?_, fun mem => .inr ⟨fresh, mem⟩⟩
        rintro (rfl | ⟨-, mem⟩)
        · omega
        · exact mem }
  have start : (⟨iterator.body.labelCount + 1⟩ : LabelId) ∉ exits := by
    rintro (same | ⟨fresh, -⟩)
    · exact Nat.succ_ne_self iterator.body.labelCount (congrArg LabelId.index same)
    · exact Nat.lt_irrefl _ fresh
  obtain ⟨ready, assigned⟩ := prepared _ exits choice (ready_begun _ start)
  exact ⟨exits, .inl rfl, ready, assigned⟩

/-- The step method reads its state where it has it, and its answer where each way there has set it.
-/
theorem assigned_stepStmts {exits : Set LabelId} (ends : a.plan.exit ∈ exits)
    (ready : a.progress.Ready a.plan.exit a.progress.result? exits)
    (written : ∀ known, Stmt.AssignedAll (arrivals a.progress.result? exits) known a.rewritten) :
    Stmt.AssignedAll (arrivals a.progress.result? exits) ∅ a.stepStmts := by
  have chosen : ∀ l ∈ (a.progress.resumeLabels.mapIdx fun state label =>
      (Int64.ofNat state, label)).map (·.2), l ∉ exits := by
    intro l mem
    obtain ⟨pair, inside, rfl⟩ := List.mem_map.mp mem
    obtain ⟨k, room, rfl⟩ := List.mem_mapIdx.mp inside
    exact ready.resume _ (List.getElem_mem room)
  have begins : Stmt.AssignedAll (arrivals a.progress.result? exits) ∅
      (prologue a.progress.resumeLabels ⟨iterator.body.labelCount + 1⟩) := by
    refine ⟨⟨trivial, trivial⟩, ⟨Set.mem_insert _ _, fun l mem => ?_⟩, trivial, Set.subset_univ _,
      ⟨trivial, trivial⟩, trivial⟩
    rw [Option.toList_none, List.append_nil] at mem
    exact arrivals_of_notMem (chosen l mem) _
  have ends : ∀ known, Stmt.AssignedAll (arrivals a.progress.result? exits) known
      (clearAnswer a.progress.result? ++
        epilogue ⟨iterator.body.labelCount⟩ a.progress.result?) := by
    intro known
    cases made : a.progress.result? with
    | none => exact ⟨fun _ arrived => (nomatch arrived.2), ⟨trivial, trivial⟩, trivial, trivial⟩
    | some result =>
      refine ⟨⟨trivial, trivial⟩, ?_, ⟨trivial, trivial⟩, ⟨ends, rfl⟩, trivial⟩
      rintro id ⟨-, same⟩
      cases same
      exact Set.mem_insert _ _
  unfold stepStmts Lowering.stepStmts
  rw [List.append_assoc, List.append_assoc]
  exact Stmt.assignedAll_append.mpr ⟨begins, Stmt.assignedAll_append.mpr ⟨written _, ends _⟩⟩

include a in
/-- Every method of a machine reads its locals only where they are assigned. -/
theorem assigned_code (wellFormed : iterator.body.WellFormed) {c : List LocalDecl × List Stmt}
    (h : c ∈ machine.code) : ∃ arrives, Stmt.AssignedAll arrives ∅ c.2 := by
  have uses := a.uses_code wellFormed.inRange h
  obtain ⟨exits, ends, ready, written⟩ := a.exists_exits wellFormed
  rw [a.code] at h
  rcases List.mem_cons.mp h with rfl | h
  · have stmts := a.assigned_stepStmts ends ready written
    refine ⟨arrivals a.progress.result? exits, ?_⟩
    change Stmt.AssignedAll _ ∅ (stepRoot a.facts.hasFrames a.stepStmts)
    cases a.facts.hasFrames with
    | false => exact stmts
    | true => exact ⟨⟨stmts, ⟨trivial, trivial⟩, trivial⟩, trivial⟩
  · rcases List.mem_cons.mp h with rfl | h
    · -- The dispose method reads one local, which it assigns first.
      have reads :
          Stmt.UsesAll (.reading {⟨0⟩}) (a.dispatch ++ [setState finishedState, .ret none]) :=
        Stmt.UsesAll.mono
          { locals := fun {id} room => congrArg LocalId.mk (Nat.lt_one_iff.mp room)
            params := fun _ => trivial
            slots := fun _ => trivial
            methods := fun _ => trivial
            suspends := fun _ => trivial
            returns := fun _ => trivial } _ uses.2
      refine ⟨fun _ => {⟨0⟩}, ⟨trivial, trivial⟩, ?_⟩
      exact (Stmt.assignedAll_of_usesAll _ reads
        (Set.singleton_subset_iff.mpr (Set.mem_insert _ _))).1
    · obtain ⟨m, hm, rfl⟩ := List.mem_map.mp h
      exact ⟨_, ready.handlers m hm⟩

include a in
theorem selfContained (wellFormed : iterator.body.WellFormed) {m : SynthesizedMethod}
    (h : m ∈ machine.methods) :
    m.body.SelfContained machine.fields.length machine.methods.length := by
  have mem : (m.body.locals, m.body.root) ∈ machine.code := List.mem_map_of_mem h
  exact
    { uses := Stmt.UsesAll.mono Vocabulary.method_within_machine _
        (a.uses_code wellFormed.inRange mem)
      assigned := a.assigned_code wellFormed mem
      closed := a.escapes_code wellFormed.closed mem }

end Assembly

end Lowering

theorem StateMachine.getD_mem (machine : StateMachine) {i : Nat}
    (room : i < machine.methods.length) :
    machine.methods.getD i default ∈ machine.methods := by
  rw [List.getD_eq_getElem _ _ room]
  exact List.getElem_mem room

namespace Instance

variable {σ : Type} {machine : StateMachine} {host : Host σ} {fuel : Nat} {watch : Stmt → σ → σ}

/-- A call that finds the fields of the machine leaves them, and an error of form is one of the
host. -/
abbrev Steady (machine : StateMachine) (host : Host σ) {α : Type}
    (call : EStateM RunError (Instance σ) α) : Prop :=
  Ensures (fun live => live.fields.length = machine.fields.length) call
    (fun _ live => live.fields.length = machine.fields.length) fun e live =>
      (e.OfForm → host.Raises e) ∧ live.fields.length = machine.fields.length

variable (sound : ∀ m ∈ machine.methods,
  m.body.SelfContained machine.fields.length machine.methods.length)

include sound

theorem steady_call {method : SynthesizedMethod} (mem : method ∈ machine.methods) :
    Steady machine host (call machine host fuel method watch) := by
  intro live fields
  have steady : (environment machine host watch).Steady machine.fields.length
      ((environment machine host watch).execute method.body []) :=
    Environment.steady_execute sound (sound method mem) []
  obtain ⟨good, bad⟩ := steady { fields := live.fields, fuel, host := live.host } fields
  unfold call
  dsimp only
  rw [show ({ host, methods := machine.methods, watch } : Environment σ) =
    environment machine host watch from rfl]
  cases ran : (environment machine host watch).execute method.body []
      { fields := live.fields, fuel, host := live.host } with
  | ok value world =>
    refine ⟨fun _ _ hx => ?_, fun _ _ hx => ?_⟩ <;> cases hx
    exact good value world ran
  | error error world =>
    refine ⟨fun _ _ hx => ?_, fun _ _ hx => ?_⟩ <;> cases hx
    exact bad error world ran

/-- So do the calls of a client. -/
theorem steady_moveNext (room : 1 < machine.methods.length) :
    Steady machine host (moveNext machine host fuel watch) := by
  have mem : machine.step ∈ machine.methods := machine.getD_mem (Nat.lt_of_succ_lt room)
  refine (steady_call sound mem).bind fun value => ?_
  cases value with
  | bool produced => exact .pure fun _ fields => fields
  | _ => exact .throws fun _ fields => ⟨False.elim, fields⟩

theorem steady_dispose (room : 1 < machine.methods.length) :
    Steady machine host (dispose machine host fuel watch) := by
  have mem : machine.dispose ∈ machine.methods := machine.getD_mem room
  exact (steady_call sound mem).bind fun _ => .pure fun _ fields => fields

omit sound in
theorem Steady.finalState {α : Type} {call : EStateM RunError (Instance σ) α}
    (steady : Steady machine host call) {live : Instance σ}
    (fields : live.fields.length = machine.fields.length) :
    (finalState (call live)).fields.length = machine.fields.length := by
  obtain ⟨good, bad⟩ := steady live fields
  cases h : call live with
  | ok a later => exact good a later h
  | error e later => exact (bad e later h).2

/-- What a machine has come to by calls after it was created, whatever they ended with. -/
inductive Called (machine : StateMachine) (host : Host σ) : Instance σ → Prop
  | created (args : List Value) (start : σ) : Called machine host (create machine args start)
  | moveNext {live : Instance σ} (before : Called machine host live) (fuel : Nat)
    (watch : Stmt → σ → σ) :
    Called machine host (finalState (Instance.moveNext machine host fuel watch live))
  | dispose {live : Instance σ} (before : Called machine host live) (fuel : Nat)
    (watch : Stmt → σ → σ) :
    Called machine host (finalState (Instance.dispose machine host fuel watch live))

/-- It has the fields of the machine. -/
theorem Called.fields (room : 1 < machine.methods.length) {live : Instance σ}
    (called : Called machine host live) : live.fields.length = machine.fields.length := by
  induction called with
  | created args start => exact List.length_map _
  | moveNext before fuel watch ih => exact (steady_moveNext sound room).finalState ih
  | dispose before fuel watch ih => exact (steady_dispose sound room).finalState ih

end Instance

/-- The machine of a well-formed body is closed code. Whatever its fields hold, so that also in
every state that calls may lead to, a call fails because of the form of the code only if the host
itself fails so. -/
theorem lowered_machine_closed {iterator : IteratorMethod} {machine : StateMachine}
    {symbols : Symbols} {options : LoweringOptions} (wellFormed : iterator.body.WellFormed)
    (lowered : lowerIterator symbols options iterator = .ok machine) :
    machine.Closed ∧ ∀ {σ : Type} (host : Host σ),
      (∀ live : Instance σ, Instance.Called machine host live →
        live.fields.length = machine.fields.length) ∧
      ∀ live : Instance σ, live.fields.length = machine.fields.length →
        ∀ (fuel : Nat) (watch : Stmt → σ → σ) (error : RunError) (later : Instance σ),
          (Instance.moveNext machine host fuel watch live = .error error later ∨
            Instance.dispose machine host fuel watch live = .error error later) →
          error.OfForm → host.Raises error := by
  obtain ⟨a⟩ := Lowering.nonempty_assembly wellFormed.toRegular lowered
  have sound : ∀ m ∈ machine.methods,
      m.body.SelfContained machine.fields.length machine.methods.length := fun _ =>
    a.selfContained wellFormed
  have room : 1 < machine.methods.length := by
    rw [a.length_methods]
    omega
  refine ⟨a.closed wellFormed.inRange wellFormed.closed, fun host => ⟨fun live called =>
    called.fields sound room, fun live fields fuel watch error later failed => ?_⟩⟩
  rcases failed with step | dispose
  · exact ((Instance.steady_moveNext sound room live fields).2 error later step).1
  · exact ((Instance.steady_dispose sound room live fields).2 error later dispose).1

theorem wellFormed_sampleIterator : sampleIterator.body.WellFormed :=
  { regular_sampleIterator with
    inRange := inRange_sampleIterator
    closed := by decide }

/-- A machine that was just created can be stepped and disposed. -/
theorem lowered_machine_closed_sample : ∃ machine,
    lowerIterator .oneMethod {} sampleIterator = .ok machine ∧ machine.Closed ∧
      ∀ fuel watch error later,
        (Instance.moveNext machine Script.host fuel watch (.create machine [.int 7] {}) =
            .error error later ∨
          Instance.dispose machine Script.host fuel watch (.create machine [.int 7] {}) =
            .error error later) →
        error.OfForm → Script.host.Raises error := by
  obtain ⟨machine, lowered⟩ := exists_machine_sampleIterator
  obtain ⟨closed, runs⟩ := lowered_machine_closed wellFormed_sampleIterator lowered
  have fields := (runs Script.host).1 _ (.created [.int 7] {})
  exact ⟨machine, lowered, closed, (runs Script.host).2 _ fields⟩

end ManagedCode
