import ManagedCode.Proofs.Iterator.Behaviour

namespace ManagedCode

/-! Machines between two calls. -/

variable {σ : Type} {iterator : IteratorMethod} {machine : StateMachine} {host : Host σ}

/-- The state of a machine is what its first field holds. -/
theorem state_of_alike {state : Int} {current : Option Value} {u : World σ} {inst : Instance σ}
    (alike : Alike (some (stateValue state)) current u inst.world) :
    inst.state = .int (Int64.ofInt state) := by
  unfold Instance.state
  rw [List.getD_eq_getElem?_getD]
  exact congrArg (·.getD Value.unit) alike.state

namespace Instance

variable {start inst : Instance σ} {log : List (Call × Answer)} {watch : Stmt → σ → σ}

/-- Only a step hands out an element. -/
theorem moveNext_of_element (dialogue : Dialogue (perform machine host watch) start log inst)
    {call : Call} {element : Value} (mem : (call, .ok (some element)) ∈ log) : call = .moveNext := by
  induction dialogue with
  | start => cases mem
  | call before h ih =>
    rename_i inst' _ fuel _ _
    rcases List.mem_append.mp mem with earlier | last
    · exact ih earlier
    · cases List.mem_singleton.mp last
      cases call with
      | moveNext => rfl
      | dispose =>
        cases hd : dispose machine host fuel watch inst' with
        | ok value left =>
          have answered : perform machine host watch fuel .dispose inst' = .ok none left :=
            bind_of_ok hd
          rw [answered] at h
          cases h
        | error error left =>
          have failed : perform machine host watch fuel .dispose inst' = .error error left :=
            bind_of_error hd
          rw [failed] at h
          cases h

/-- A call with fuel enough has no element to answer with, tells the host nothing and changes
nothing but the state. -/
def Idles (machine : StateMachine) (host : Host σ) (inst : Instance σ) (call : Call) : Prop :=
  let performs : Performs (Instance σ) := perform machine host
  ∃ k state, (∀ f, k ≤ f → performs f call inst =
      .ok none { inst with fields := inst.fields.set stateField.index state }) ∧
    ∀ f < k, ∃ t, performs f call inst = .error .stepLimit t

/-- The state of a machine between two calls, after the calls of a log, where the coroutine has a
status. -/
inductive Rests (body : Body) : List (Call × Answer) → Coroutine.Status → Int → Prop
  | initial : Rests body [] .fresh 0
  /-- The last answer was the element of yield number `k + 1`. -/
  | yielded {before : List (Call × Answer)} {element : Value} {k : Nat} {point : Point}
    {opened : List OpenTry} (room : k < Stmt.yieldCount body.root)
    (after : Lowering.AfterYield body k point opened) :
    Rests body (before ++ [(.moveNext, .ok (some element))]) (.paused point opened) (k + 1 : Nat)
  | ended {before : List (Call × Answer)} {entry : Call × Answer} {state : Int}
    (none : ∀ element, entry.2 ≠ .ok (some element)) (dead : state = -1 ∨ state = -2) :
    Rests body (before ++ [entry]) .done state

end Instance

open Coroutine Instance in
/-- What the calls of a log have left of a machine. -/
theorem Lowering.Assembly.Linked.rests {assembly : Assembly iterator machine} {live : Live σ}
    {inst : Instance σ} (linked : assembly.Linked live inst) {log : List (Call × Answer)}
    (follows : Status.Follows log live.status)
    (steps : ∀ {call element}, (call, .ok (some element)) ∈ log → call = .moveNext) :
    ∃ n : Int64, inst.state = .int n ∧ Rests iterator.body log live.status n.toInt := by
  cases linked with
  | fresh status alike =>
    rw [status] at follows ⊢
    cases follows
    exact ⟨_, state_of_alike alike, .initial⟩
  | paused status resting alike =>
    rename_i level k point value
    rw [status] at follows ⊢
    cases follows
    obtain rfl := steps (List.mem_append_right _ List.mem_cons_self)
    have number := resting.after.number
    obtain ⟨t, t', outer, -, label, -, -, resume⟩ := resting.goesOn
    have fits : (Int64.ofInt (k + 1 : Nat)).toInt = (k + 1 : Nat) :=
      assembly.fits (.inl ⟨k + 1, (List.getElem?_eq_some_iff.mp resume).1, rfl⟩)
    refine ⟨_, state_of_alike alike, ?_⟩
    rw [fits]
    exact .yielded (by omega) resting.after
  | done status dead alike =>
    rw [status] at follows ⊢
    cases follows with
    | done none =>
      refine ⟨_, state_of_alike alike, .ended none ?_⟩
      rcases dead with rfl | rfl
      · exact .inr rfl
      · exact .inl rfl

open Lowering Coroutine Instance in
/-- Between two calls a machine is in the state of the yield it waits at, or in none of a frame; and
once it has answered without an element, all that its calls do is to say so. -/
theorem rests_between_calls {symbols : Symbols} {options : LoweringOptions}
    (regular : iterator.body.Regular)
    (lowered : lowerIterator symbols options iterator = .ok machine) (host : Host σ) (args : List Value)
    (start : σ) {log : List (Call × Answer)} {inst : Instance σ}
    (dialogue : Dialogue (Instance.perform machine host) (.create machine args start) log inst) :
    (∃ live, Dialogue (Coroutine.perform { host } {}
          (Stmt.hoistAll iterator.body.params.length iterator.body.root))
          (hoistedLive machine args start) log live ∧
        ∃ n : Int64, inst.state = .int n ∧ Rests iterator.body log live.status n.toInt) ∧
      ((∃ entry ∈ log, ∀ element, entry.2 ≠ .ok (some element)) → ∀ call, inst.Idles machine host call) := by
  obtain ⟨assembly⟩ := nonempty_assembly regular lowered
  have setting := assembly.unwatched host
  obtain ⟨live, direct, linked⟩ := (bisimilar_hoisted setting).back
    (linked_create assembly args start) dialogue
  have follows := follows_of_dialogue rfl direct
  refine ⟨⟨live, direct, linked.rests follows (moveNext_of_element dialogue)⟩, ?_⟩
  rintro ⟨entry, mem, none⟩ call
  have through := done_of_dialogue direct mem none
  cases linked with
  | fresh status _ => cases through.symm.trans status
  | paused status _ _ => cases through.symm.trans status
  | done status dead alike =>
    obtain ⟨k, state, -, enough, short⟩ := idles setting dead alike call
    exact ⟨k, stateValue state, enough, short⟩

/-- The sample, with the argument 7, hands out 7 in its first step on a host that lets it. -/
theorem exists_dialogue_sampleIterator {start : σ} {watch : Stmt → σ → σ}
    (answers : (lowerIterator .oneMethod {} sampleIterator).toOption.map (fun machine =>
      (Instance.perform machine host watch 100 .moveNext).run' (.create machine [.int 7] start)) =
        some (some (some (.int 7)))) :
    ∃ machine inst, lowerIterator .oneMethod {} sampleIterator = .ok machine ∧
      Dialogue (Instance.perform machine host watch) (.create machine [.int 7] start)
        [(.moveNext, .ok (some (.int 7)))] inst := by
  obtain ⟨machine, lowered⟩ := exists_machine_sampleIterator
  rw [lowered] at answers
  have answered : (Instance.perform machine host watch 100 .moveNext).run'
      (.create machine [.int 7] start) = some (some (.int 7)) := Option.some.inj answers
  unfold EStateM.run' EStateM.run at answered
  cases h : Instance.perform machine host watch 100 .moveNext (.create machine [.int 7] start) with
  | ok element inst =>
    rw [h] at answered
    cases answered
    exact ⟨machine, inst, lowered, .call .start h⟩
  | error error inst =>
    rw [h] at answered
    cases answered

open Instance in
theorem rests_between_calls_sample : ∃ machine inst,
    lowerIterator .oneMethod {} sampleIterator = .ok machine ∧
      Dialogue (perform machine Script.host) (create machine [.int 7] {})
        [(.moveNext, .ok (some (.int 7)))] inst ∧
      ∃ status n, inst.state = .int n ∧
        Rests sampleIterator.body [(.moveNext, .ok (some (.int 7)))] status n.toInt := by
  obtain ⟨machine, inst, lowered, dialogue⟩ : ∃ machine inst,
      lowerIterator .oneMethod {} sampleIterator = .ok machine ∧
        Dialogue (perform machine Script.host) (create machine [.int 7] {})
          [(.moveNext, .ok (some (.int 7)))] inst :=
    exists_dialogue_sampleIterator (by decide +kernel)
  obtain ⟨live, -, n, state, rests⟩ := (rests_between_calls regular_sampleIterator lowered
    Script.host [.int 7] {} dialogue).1
  exact ⟨machine, inst, lowered, dialogue, live.status, n, state, rests⟩

end ManagedCode
