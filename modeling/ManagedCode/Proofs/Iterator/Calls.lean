import ManagedCode.Proofs.Coroutine.Live
import ManagedCode.Proofs.Iterator.Stepping

namespace ManagedCode

namespace Instance

variable {σ : Type} {machine : StateMachine} {host : Host σ} {watch : Stmt → σ → σ} {fuel : Nat}
  {live : Instance σ} {c : Config σ}

/-- The environment in which the methods of a machine are executed. -/
def environment (machine : StateMachine) (host : Host σ) (watch : Stmt → σ → σ) : Environment σ :=
  { host, methods := machine.methods, watch }

def world (live : Instance σ) : World σ := ⟨live.fields, 0, live.host⟩

/-- A method is executed in an activation of its own. -/
def config (live : Instance σ) : Config σ := ⟨{ args := [] }, live.world⟩

/-- The machine that an execution has left. -/
def of (config : Config σ) : Instance σ := ⟨config.world.fields, config.world.host⟩

theorem call_of_ok {method : SynthesizedMethod} {flow : Flow}
    (h : (environment machine host watch).runAll method.body.root (live.config.withFuel fuel) =
      .ok flow c) : call machine host fuel method watch live = reached flow.result (of c) := by
  have ran : (environment machine host watch).execute method.body []
      { fields := live.fields, fuel, host := live.host } = reached flow.result c.world :=
    callBody_of_ok h
  unfold call
  dsimp only
  rw [show ({ host, methods := machine.methods, watch } : Environment σ) =
    environment machine host watch from rfl, ran]
  cases flow <;> rfl

theorem call_of_error {method : SynthesizedMethod} {error : RunError}
    (h : (environment machine host watch).runAll method.body.root (live.config.withFuel fuel) =
      .error error c) : call machine host fuel method watch live = .error error (of c) := by
  have ran : (environment machine host watch).execute method.body []
      { fields := live.fields, fuel, host := live.host } = .error error c.world :=
    callBody_of_error h
  unfold call
  dsimp only
  rw [show ({ host, methods := machine.methods, watch } : Environment σ) =
    environment machine host watch from rfl, ran]
  rfl

/-- What a step answers whose method ended with a flow. -/
def answerStep (flow : Flow) (c : Config σ) : Except RunError (Option Value) :=
  match flow.result with
  | .ok (.bool true) => .ok (some (of c).current)
  | .ok (.bool false) => .ok none
  | .ok value => .error (.typeMismatch .bool value)
  | .error error => .error error

theorem moveNext_of_ok {flow : Flow}
    (h : (environment machine host watch).runAll machine.step.body.root
      (live.config.withFuel fuel) = .ok flow c) :
    perform machine host watch fuel .moveNext live = reached (answerStep flow c) (of c) := by
  have called := call_of_ok h
  unfold answerStep
  cases hr : flow.result with
  | error error =>
    rw [hr] at called
    exact bind_of_error (bind_of_error called)
  | ok value =>
    rw [hr] at called
    cases value with
    | bool produced =>
      have answered : moveNext machine host fuel watch live = .ok produced (of c) :=
        bind_of_ok called
      cases produced <;> exact bind_of_ok answered
    | _ => exact bind_of_error (bind_of_ok called)

theorem moveNext_of_error {error : RunError}
    (h : (environment machine host watch).runAll machine.step.body.root
      (live.config.withFuel fuel) = .error error c) :
    perform machine host watch fuel .moveNext live = .error error (of c) :=
  bind_of_error (bind_of_error (call_of_error h))

theorem dispose_of_ok {flow : Flow}
    (h : (environment machine host watch).runAll machine.dispose.body.root
      (live.config.withFuel fuel) = .ok flow c) :
    perform machine host watch fuel .dispose live =
      reached (flow.result.map fun _ => none) (of c) := by
  have called := call_of_ok h
  cases hr : flow.result with
  | error error =>
    rw [hr] at called
    exact bind_of_error (bind_of_error called)
  | ok value =>
    rw [hr] at called
    exact bind_of_ok (bind_of_ok called)

theorem dispose_of_error {error : RunError}
    (h : (environment machine host watch).runAll machine.dispose.body.root
      (live.config.withFuel fuel) = .error error c) :
    perform machine host watch fuel .dispose live = .error error (of c) :=
  bind_of_error (bind_of_error (call_of_error h))

end Instance

/-- Worlds that are alike a third one differ in their states only. -/
theorem Alike.fields_eq {σ : Type} {state current : Option Value} {value : Value} {u w w' : World σ}
    (h : Alike state current u w) (h' : Alike (some value) current u w') :
    w'.fields = w.fields.set 0 value := by
  refine List.ext_getElem? fun i => ?_
  rcases i with _ | _ | i
  · rw [h'.state, List.getElem?_set_self (Nat.lt_of_lt_of_le Nat.two_pos h.wide)]
  · rw [h'.current, List.getElem?_set_ne (Nat.zero_ne_add_one 0), h.current]
  · rw [← h'.same _ (Nat.le_add_left 2 i), List.getElem?_set_ne (Nat.zero_ne_add_one _),
      h.same _ (Nat.le_add_left 2 i)]

namespace Lowering

variable {σ : Type} {iterator : IteratorMethod} {machine : StateMachine}
  {assembly : Assembly iterator machine} {observer : Observer σ} {E : Environment σ}
  {host : Host σ} {watch : Stmt → σ → σ}

open Coroutine Instance

/-- A coroutine over the fields of a machine, and the machine, between the same calls. -/
inductive Assembly.Linked (assembly : Assembly iterator machine) (live : Live σ)
    (inst : Instance σ) : Prop
  | fresh {current : Option Value} (status : live.status = .fresh)
    (alike : Alike (some (stateValue initialState)) current live.world inst.world)
  | paused {level : Level} {k : Nat} {point : Point} {value : Value}
    (status : live.status = .paused point level.opened)
    (resting : assembly.Resting level k point)
    (alike : Alike (some (stateValue (k + 1 : Nat))) (some value) live.world inst.world)
  | done {state : Int} {current : Option Value} (status : live.status = .done)
    (dead : state = finishedState ∨ state = runningState)
    (alike : Alike (some (stateValue state)) current live.world inst.world)

theorem Assembly.Linked.sameHost {live : Live σ} {inst : Instance σ} (h : assembly.Linked live inst) :
    live.host = inst.host := by
  cases h with
  | fresh _ alike => exact alike.host
  | paused _ _ alike => exact alike.host
  | done _ _ alike => exact alike.host

/-- The hosts agree, and after an answer so does all the rest. -/
def Assembly.Agreed (assembly : Assembly iterator machine) (r : Except RunError (Option Value))
    (live : Live σ) (inst : Instance σ) : Prop :=
  live.host = inst.host ∧ ((∃ answer : Answer, r = answer.result) → assembly.Linked live inst)

/-- A step that simulates the body up to its next yield answers as the coroutine does. -/
theorem matches_step {live : Live σ} {inst : Instance σ} {next : Exec σ Outcome}
    {current : Option Value}
    (sim : ∀ n, Simulates next (live.config n)
      ((environment machine host watch).runAll
        (stepRoot assembly.facts.hasFrames assembly.stepStmts)) inst.config SameHost
      (assembly.Stopped current)) :
    Matches (resume next · : Nat → EStateM RunError (Live σ) (Option Value)) live
      (perform machine host watch · .moveNext) inst assembly.Agreed := by
  obtain ⟨m, found, -, root⟩ := assembly.step
  have step : machine.step = m := by
    unfold StateMachine.step
    rw [List.getD_eq_getElem?_getD, found]
    rfl
  rw [← root, ← step] at sim
  refine Simulates.matches (a := live.config 0) sim
    (Environment.contained_runAll _) (.of .done) of (fun _ _ => rfl)
    (fun n error c h => resume_error h) (fun n error c h => moveNext_of_error h) ?_ ?_
  · intro error a' b' other same
    refine ⟨same, fun ⟨answer, hr⟩ => ?_⟩
    cases answer with
    | ok element => cases hr
    | error value => exact absurd (Except.error.inj hr) (other value)
  · intro outcome a' flow b' stopped
    cases stopped with
    | paused resting alike =>
      rename_i value point level k
      have element : (of b').current = value := by
        change b'.world.fields.getD 1 .unit = value
        rw [List.getD_eq_getElem?_getD, alike.current]
        rfl
      refine ⟨.ok (some value), .of (.paused point level.opened) a', of b', by simp, ⟨alike.host,
        fun _ => .paused rfl resting { alike with }⟩, fun n h => resume_paused h, fun n f h => ?_⟩
      have answered := moveNext_of_ok h
      have value : answerStep (.ret (.bool true)) (b'.withFuel f) = .ok (some value) :=
        congrArg (Except.ok ∘ some) element
      rw [value] at answered
      exact answered
    | finished ended alike =>
      refine ⟨.ok none, .of .done a', of b', by simp, ⟨alike.host,
        fun _ => .done rfl (.inl rfl) { alike with }⟩, fun n h => ?_, fun n f h => moveNext_of_ok h⟩
      have answered := resume_ended h
      rcases ended with rfl | rfl <;> exact answered
    | threw value dead alike =>
      exact ⟨.error (.thrown value), .of .done a', of b', by simp, ⟨alike.host,
        fun _ => .done rfl dead { alike with }⟩, fun n h => resume_ended h,
        fun n f h => moveNext_of_ok h⟩
    | @lost _ _ l _ same =>
      refine ⟨.error (.undefinedLabel l), .of .done a', of b', by simp, ⟨same, fun ⟨answer, hr⟩ => ?_⟩,
        fun n h => resume_ended h, fun n f h => moveNext_of_ok h⟩
      cases answer <;> cases hr

section

variable (setting : assembly.Setting observer E (environment machine host watch))

include setting

/-- The dispose method leaves the try statements around the place where the machine waits. -/
theorem matches_dispose {live : Live σ} {inst : Instance σ} {s : Int} (fits : Fits s)
    {path : List Nat} (covers : assembly.plan.frames.Covers s path) {opened : List OpenTry}
    (tower : Tower observer E (environment machine host watch) opened path)
    (same : opened.length = path.length) {current : Option Value}
    (alike : Alike (some (stateValue s)) current live.world inst.world)
    {f : Nat → EStateM RunError (Live σ) (Option Value)}
    (here : ∀ n flow c, unwind E observer opened (.ret .unit) (live.config n) = .ok flow c →
      f n live = reached (flow.result.map fun _ => none) (.of .done c))
    (fails : ∀ n error c, unwind E observer opened (.ret .unit) (live.config n) = .error error c →
      f n live = .error error (.of .done c)) :
    Matches f live (perform machine host watch · .dispose) inst assembly.Agreed := by
  obtain ⟨m, found, -, root⟩ := assembly.dispose
  have dispose : machine.dispose = m := by
    unfold StateMachine.dispose
    rw [List.getD_eq_getElem?_getD, found]
    rfl
  have sim : ∀ n, Simulates (unwind E observer opened (.ret .unit)) (live.config n)
      ((environment machine host watch).runAll machine.dispose.body.root) inst.config SameHost
      (Disposed current (.ret .unit)) := by
    intro n
    rw [dispose, root]
    exact runs_dispose setting fits covers tower same { alike with } (.ret .unit)
  refine Simulates.matches (a := live.config 0) sim
    (Environment.contained_runAll _) (.of .done) of (fun _ _ => rfl)
    fails (fun n error c h => dispose_of_error h) ?_ ?_
  · intro error a' b' other same
    refine ⟨same, fun ⟨answer, hr⟩ => ?_⟩
    cases answer with
    | ok element => cases hr
    | error value => exact absurd (Except.error.inj hr) (other value)
  · intro flow a' ended b' disposed
    cases disposed with
    | through alike =>
      exact ⟨.ok none, .of .done a', of b', by simp, ⟨alike.host,
        fun _ => .done rfl (.inl rfl) { alike with }⟩, fun n h => here n _ _ h,
        fun n f h => dispose_of_ok h⟩
    | throw value alike =>
      exact ⟨.error (.thrown value), .of .done a', of b', by simp, ⟨alike.host,
        fun _ => .done rfl (.inr rfl) { alike with }⟩, fun n h => here n _ _ h,
        fun n f h => dispose_of_ok h⟩

/-- A machine that is through does nothing but write its state. -/
theorem idles {live : Live σ} {inst : Instance σ} {state : Int} {current : Option Value}
    (dead : state = finishedState ∨ state = runningState)
    (alike : Alike (some (stateValue state)) current live.world inst.world) (call : Call) :
    ∃ k state', (state' = finishedState ∨ state' = runningState) ∧
      (∀ f, k ≤ f → perform machine host watch f call inst =
        .ok none { inst with fields := inst.fields.set 0 (stateValue state') }) ∧
      ∀ f < k, ∃ t, perform machine host watch f call inst = .error .stepLimit t := by
  have fits : Fits state := by rcases dead with rfl | rfl <;> rfl
  -- What is left is the machine itself but for its state.
  have left : ∀ {state' : Int} {c : Config σ},
      Alike (some (stateValue state')) current live.world c.world →
      of c = { inst with fields := inst.fields.set 0 (stateValue state') } := by
    intro state' c alike'
    have fields : c.world.fields = inst.fields.set 0 (stateValue state') := alike.fields_eq alike'
    have same : c.world.host = inst.host := alike'.host.symm.trans alike.host
    unfold of
    rw [fields, same]
  cases call with
  | moveNext =>
    obtain ⟨m, found, -, root⟩ := assembly.step
    have step : machine.step = m := by
      unfold StateMachine.step
      rw [List.getD_eq_getElem?_getD, found]
      rfl
    obtain ⟨c, k, world, ends⟩ := step_ended (b := inst.config)
      setting.hosted fits (.inl (by rcases dead with rfl | rfl <;> decide)) alike.state
    rw [← root, ← step] at ends
    have alike' : Alike (some (stateValue state)) current live.world c.world := by
      rw [world]
      exact { alike with }
    refine ⟨k, state, dead, fun f enough => ?_, fun f short => ?_⟩
    · obtain ⟨d, rfl⟩ := Nat.exists_eq_add_of_le enough
      rw [← left alike']
      exact moveNext_of_ok (ends.1 d)
    · obtain ⟨t, ht⟩ := ends.2 f short
      exact ⟨of t, moveNext_of_error ht⟩
  | dispose =>
    obtain ⟨m, found, -, root⟩ := assembly.dispose
    have dispose : machine.dispose = m := by
      unfold StateMachine.dispose
      rw [List.getD_eq_getElem?_getD, found]
      rfl
    have new : ¬assembly.progress.Allocated state := by
      rcases dead with rfl | rfl <;> exact assembly.not_allocated (by decide) (by decide)
    have sim := runs_dispose setting (a := live.config 0) (b := inst.config) fits
      (assembly.covers_nil new) .nil rfl { alike with } (.ret .unit)
    have nothing : unwind E observer [] (.ret .unit) (live.config 0) =
        .ok (.ret .unit) (live.config 0) := rfl
    rw [← root, ← dispose, Simulates.of_ok nothing] at sim
    obtain ⟨-, k, flow, c, -, ends, disposed⟩ := sim
    cases disposed with
    | through alike' =>
      refine ⟨k, finishedState, .inl rfl, fun f enough => ?_, fun f short => ?_⟩
      · obtain ⟨d, rfl⟩ := Nat.exists_eq_add_of_le enough
        rw [← left { alike' with }]
        exact dispose_of_ok (ends.1 d)
      · obtain ⟨t, ht⟩ := ends.2 f short
        exact ⟨of t, dispose_of_error ht⟩

/-- A machine answers every call as the hoisted body does. -/
theorem bisimilar_hoisted : Bisimilar (Coroutine.perform E observer assembly.hoisted)
    (Instance.perform machine host watch) assembly.Linked fun live inst => live.host = inst.host where
  alike h := h.sameHost
  calls {live inst} linked call := by
    change Matches _ live _ inst assembly.Agreed
    -- A dispose that finds nothing open.
    have closes : ∀ {s : Int} {current : Option Value}, Fits s →
        assembly.plan.frames.Covers s [] →
        Alike (some (stateValue s)) current live.world inst.world →
        (∀ n, Coroutine.perform E observer assembly.hoisted n .dispose live =
          .ok none { live with status := .done }) →
        Matches (Coroutine.perform E observer assembly.hoisted · .dispose) live
          (Instance.perform machine host watch · .dispose) inst assembly.Agreed := by
      intro s current fits covers alike nothing
      refine matches_dispose setting fits covers .nil rfl alike (fun n flow c h => ?_)
        fun n error c h => by cases h
      cases h
      exact nothing n
    cases linked with
    | fresh status alike =>
      cases call with
      | moveNext =>
        refine .congr_left (fun n => ?_) (matches_step fun n =>
          step_first setting (a := live.config n) (b := inst.config) { alike with })
        unfold Coroutine.perform
        rw [status]
      | dispose =>
        refine closes (s := initialState) rfl assembly.covers_initial alike fun n => ?_
        unfold Coroutine.perform
        rw [status]
    | paused status resting alike =>
      rename_i level k point value
      cases call with
      | moveNext =>
        refine .congr_left (fun n => ?_) (matches_step fun n =>
          step_resumed setting resting (a := live.config n) (b := inst.config) { alike with })
        unfold Coroutine.perform
        rw [status]
      | dispose =>
        have tower := resting.nests.tower setting
        have fits : Fits (k + 1 : Nat) := by
          obtain ⟨t, t', outer, -, label, -, -, resume⟩ := resting.goesOn
          exact assembly.fits (.inl ⟨k + 1, (List.getElem?_eq_some_iff.mp resume).1, rfl⟩)
        have same : ∀ n, Coroutine.perform E observer assembly.hoisted n .dispose live =
            resume (leave E observer (drives E observer) level.opened (.ret .unit)) n live := by
          intro n
          unfold Coroutine.perform
          rw [status]
        have left : ∀ n, leave E observer (drives E observer) level.opened (.ret .unit)
            (live.config n) = (unwind E observer level.opened (.ret .unit) >>=
              fun flow => pure (.ended flow)) (live.config n) := fun n =>
          leave_exits tower (b := inst.config) (a := live.config n) { alike with } trivial
        refine matches_dispose setting fits resting.covers tower resting.nests.length_opened alike ?_ ?_
        · exact fun n flow c h => (same n).trans (resume_ended ((left n).trans (bind_of_ok h)))
        · exact fun n error c h => (same n).trans (resume_error ((left n).trans (bind_of_error h)))
    | done status dead alike =>
      rename_i state current
      obtain ⟨k, state', dead', enough, short⟩ := idles setting dead alike call
      intro n
      refine ⟨.ok none, _, perform_done status, .inr ⟨nofun, k, _, enough, short, alike.host, ?_⟩⟩
      exact fun _ => .done rfl dead' { alike.setState state' with }

end

end Lowering

end ManagedCode
