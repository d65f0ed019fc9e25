import ManagedCode.Proofs.Coroutine.Safety
import ManagedCode.Proofs.Iterator.Rest

namespace ManagedCode

/-! Frames are left in the order opposite to that in which they are entered. -/

/-- The number of a frame that a machine enters, or whose handler it calls. -/
inductive FrameEvent where
  | entered (frame : Nat)
  | left (frame : Nat)
  deriving DecidableEq, Inhabited

namespace FrameEvent

/-- What a statement of a machine is to the frames. -/
def of? (s : Stmt) : Option FrameEvent :=
  (s.entered?.map entered).or (s.handled?.map left)

/-- The frames that are open after events, innermost first, if each handler that is called belongs to
the frame that was entered last. -/
def replay : List FrameEvent → List Nat → Option (List Nat)
  | [], frames => some frames
  | entered g :: events, frames => replay events (g :: frames)
  | left g :: events, f :: frames => if g = f then replay events frames else none
  | left _ :: _, [] => none

theorem replay_append (before after : List FrameEvent) (frames : List Nat) :
    replay (before ++ after) frames = (replay before frames).bind (replay after) := by
  induction before generalizing frames with
  | nil => rfl
  | cons event before ih =>
    cases event with
    | entered g => exact ih (g :: frames)
    | left g =>
      cases frames with
      | nil => rfl
      | cons f frames =>
        by_cases same : g = f
        · simp only [List.cons_append, replay, if_pos same]
          exact ih frames
        · simp only [List.cons_append, replay, if_neg same]
          rfl

theorem replay_entered {events : List FrameEvent} {frames : List Nat} {g : Nat}
    (h : replay events [] = some frames) :
    replay (events ++ [entered g]) [] = some (g :: frames) := by
  rw [replay_append, h]
  rfl

theorem replay_left {events : List FrameEvent} {frames : List Nat} {g : Nat}
    (h : replay events [] = some (g :: frames)) :
    replay (events ++ [left g]) [] = some frames := by
  rw [replay_append, h]
  exact if_pos rfl

/-- A handler is called once for every entry of its frame that is not open any more. -/
theorem count_of_replay {events : List FrameEvent} {before after : List Nat}
    (h : replay events before = some after) (g : Nat) :
    events.count (left g) + after.count g = events.count (entered g) + before.count g := by
  induction events generalizing before with
  | nil =>
    cases h
    rfl
  | cons event events ih =>
    cases event with
    | entered f =>
      have rest := ih h
      rw [List.count_cons] at rest
      by_cases same : f = g
      · subst same
        simp only [List.count_cons_self, beq_self_eq_true, if_true,
          List.count_cons_of_ne (show entered f ≠ left f from nofun)] at rest ⊢
        omega
      · have other : entered f ≠ entered g := fun eq => same (FrameEvent.entered.inj eq)
        simp only [List.count_cons_of_ne other, beq_eq_false_iff_ne.mpr same,
          List.count_cons_of_ne (show entered f ≠ left g from nofun)] at rest ⊢
        exact rest
    | left f =>
      cases before with
      | nil => cases h
      | cons f' before =>
        by_cases same : f = f'
        · subst same
          have rest := ih ((if_pos rfl).symm.trans h)
          by_cases own : f = g
          · subst own
            simp only [List.count_cons_self,
              List.count_cons_of_ne (show left f ≠ entered f from nofun)]
            omega
          · have other : left f ≠ left g := fun eq => own (FrameEvent.left.inj eq)
            simp only [List.count_cons_of_ne other, List.count_cons_of_ne own,
              List.count_cons_of_ne (show left f ≠ entered g from nofun)]
            exact rest
        · cases (if_neg same).symm.trans h

end FrameEvent

/-- A host, and what it was told of frames. -/
structure Noted (σ : Type) where
  host : σ
  events : List FrameEvent := []
  deriving Inhabited

namespace Noted

variable {σ α : Type}

def add (event : FrameEvent) (noted : Noted σ) : Noted σ :=
  { noted with events := noted.events ++ [event] }

/-- Takes note of a statement that enters a frame or calls a handler. -/
def note (s : Stmt) (noted : Noted σ) : Noted σ :=
  (FrameEvent.of? s).elim noted noted.add

def onHost (action : EStateM RunError σ α) : EStateM RunError (Noted σ) α := fun noted =>
  match action noted.host with
  | .ok value host => .ok value { noted with host }
  | .error error host => .error error { noted with host }

/-- What is known of the notes stays true while the host acts. -/
theorem ensures_onHost (action : EStateM RunError σ α) (known : List FrameEvent → Prop) :
    Ensures (fun noted : Noted σ => known noted.events) (onHost action)
      (fun _ noted => known noted.events) fun _ noted => True ∧ known noted.events := by
  intro noted h
  unfold onHost
  cases action noted.host with
  | ok value host =>
    refine ⟨fun _ _ hx => ?_, fun _ _ hx => ?_⟩ <;> cases hx
    exact h
  | error error host =>
    refine ⟨fun _ _ hx => ?_, fun _ _ hx => ?_⟩ <;> cases hx
    exact ⟨trivial, h⟩

end Noted

/-- A host that acts as before while notes are kept. -/
def Host.noting {σ : Type} (host : Host σ) : Host (Noted σ) where
  call member receiver? args := Noted.onHost (host.call member receiver? args)
  load member receiver? := Noted.onHost (host.load member receiver?)
  store member receiver? value := Noted.onHost (host.store member receiver? value)

/-- The frames of a body in the order of their numbers: the try statements that suspend. -/
def Body.frames (body : Body) : List TryId := Lowering.frameIds (Stmt.triesAll body.root)

/-- The try statements around the yield at which a coroutine waits, innermost first. -/
def Coroutine.Status.openTries : Status → List TryId
  | .paused _ opened => opened.map (·.id)
  | .fresh | .done => []

namespace Lowering

open Coroutine FrameEvent

variable {σ : Type} {iterator : IteratorMethod} {machine : StateMachine} (host : Host σ)

/-- What the notes on a machine are in terms of try statements. -/
def frameObserver (frames : List TryId) : Observer (Noted σ) where
  entered id := Noted.add (.entered (frames.idxOf id))
  leaving id := Noted.add (.left (frames.idxOf id))

/-- The notes say which try statements are open. -/
def Tracked (frames ids : List TryId) (noted : Noted σ) : Prop :=
  replay noted.events [] = some (ids.map frames.idxOf)

theorem handled?_handlerCall (g : Nat) : (handlerCall g).handled? = some g := by
  refine (if_pos (Nat.le_add_right 2 g)).trans ?_
  exact congrArg some (Nat.add_sub_cancel_left 2 g)

theorem Assembly.noting (assembly : Assembly iterator machine) :
    assembly.Setting (frameObserver iterator.body.frames) { host := host.noting }
      (Instance.environment machine host.noting Noted.note) where
  hosted :=
    { host := rfl
      still := fun _ _ => rfl
      quiet := fun s quiet noted => by
        change Noted.note s noted = noted
        unfold Noted.note of?
        rw [quiet.1, quiet.2]
        rfl }
  methods := rfl
  entered s g id enters number := by
    have same : iterator.body.frames.idxOf id = g := assembly.idxOf_tries number
    funext noted
    change Noted.note s noted = noted.add (.entered (iterator.body.frames.idxOf id))
    unfold Noted.note of?
    rw [enters, same]
    rfl
  leaving g id number := by
    have same : iterator.body.frames.idxOf id = g := assembly.idxOf_tries number
    funext noted
    change Noted.note (handlerCall g) noted = noted.add (.left (iterator.body.frames.idxOf id))
    unfold Noted.note of?
    rw [handled?_handlerCall, same]
    rfl

/-- The notes and the steps of the body keep track of one another. -/
theorem guarded_noting (frames : List TryId) :
    Guarded .any { host := host.noting } (frameObserver frames) (fun _ => True) (Tracked frames)
      fun _ => True where
  safe ids :=
    { ordinary := fun _ _ => trivial
      locals := fun _ _ _ => trivial
      params := fun _ _ _ => trivial
      setLocal := fun _ _ _ => trivial
      setParam := fun _ _ _ => trivial
      lacksParam := fun _ _ _ => trivial
      slots := fun _ => trivial
      methods := fun _ => ⟨rfl, trivial⟩
      suspends := fun _ => trivial
      call := fun member receiver? args =>
        Noted.ensures_onHost (host.call member receiver? args) (replay · [] = some (ids.map frames.idxOf))
      load := fun member receiver? =>
        Noted.ensures_onHost (host.load member receiver?) (replay · [] = some (ids.map frames.idxOf))
      store := fun member receiver? value =>
        Noted.ensures_onHost (host.store member receiver? value)
          (replay · [] = some (ids.map frames.idxOf))
      watch := fun _ _ h => h }
  entered h := replay_entered h
  leaving h := replay_left h

theorem Tracked.of_keeps {frames : List TryId} {root : List Stmt} {live : Live (Noted σ)}
    (keeps : live.Keeps root (fun _ => True) (Tracked frames)) :
    Tracked frames live.status.openTries live.host := by
  cases keeps with
  | fresh status _ tracked | done status _ tracked =>
    rw [status]
    exact tracked
  | paused status _ tracked _ _ =>
    rw [status]
    exact tracked

/-- The try statements that are open are frames. -/
theorem Assembly.Linked.mem_frames {assembly : Assembly iterator machine} {live : Live σ}
    {inst : Instance σ} (linked : assembly.Linked live inst) {id : TryId}
    (mem : id ∈ live.status.openTries) : id ∈ iterator.body.frames := by
  cases linked with
  | fresh status _ | done status _ _ =>
    rw [status] at mem
    cases mem
  | paused status resting alike =>
    rename_i level k point value
    rw [status] at mem
    have some : Option.some id ∈ (level.opened.map (·.id)).map Option.some := List.mem_map_of_mem mem
    rw [← resting.nests.tries] at some
    obtain ⟨g, -, number⟩ := List.mem_map.mp some
    exact List.mem_of_getElem? number

end Lowering

open Lowering Coroutine Instance FrameEvent in
/-- Handlers are called in the order opposite to that in which their frames are entered, once for
every entry. Between two calls the frames of just those try statements are open that are around the
yield at which the machine waits. -/
theorem frames_bracketed {symbols : Symbols} {options : LoweringOptions}
    (regular : iterator.body.Regular)
    (lowered : lowerIterator symbols options iterator = .ok machine) (host : Host σ) (args : List Value)
    (start : σ) {log : List (Call × Answer)} {inst : Instance (Noted σ)}
    (dialogue : Dialogue (Instance.perform machine host.noting Noted.note)
      (.create machine args { host := start }) log inst) :
    ∃ status frames, ∃ n : Int64, inst.state = .int n ∧ Rests iterator.body log status n.toInt ∧
      replay inst.host.events [] = some frames ∧
      frames.map (iterator.body.frames[·]?) = status.openTries.map some ∧
      ∀ g, inst.host.events.count (left g) + frames.count g = inst.host.events.count (entered g) := by
  obtain ⟨assembly⟩ := nonempty_assembly regular lowered
  obtain ⟨live, direct, linked⟩ := (bisimilar_hoisted (assembly.noting host)).back
    (linked_create assembly args { host := start }) dialogue
  have new : (hoistedLive machine args ({ host := start } : Noted σ)).Keeps assembly.hoisted
      (fun _ => True) (Tracked iterator.body.frames) := .fresh rfl trivial rfl
  have keeps := keeps_of_dialogue (guarded_noting host iterator.body.frames)
    (Stmt.drivesAll_any _) new direct
  have tracked := Tracked.of_keeps keeps
  obtain ⟨n, state, rests⟩ := linked.rests (follows_of_dialogue rfl direct)
    (moveNext_of_element dialogue)
  rw [linked.sameHost] at tracked
  refine ⟨live.status, _, n, state, rests, tracked, ?_, count_of_replay tracked⟩
  rw [List.map_map]
  exact List.map_congr_left fun id mem => List.getElem?_idxOf (linked.mem_frames mem)

open Instance FrameEvent in
theorem frames_bracketed_sample : ∃ machine inst,
    lowerIterator .oneMethod {} sampleIterator = .ok machine ∧
      Dialogue (perform machine Script.host.noting Noted.note)
        (create machine [.int 7] { host := {} }) [(.moveNext, .ok (some (.int 7)))] inst ∧
      ∃ status frames n, inst.state = .int n ∧
        Rests sampleIterator.body [(.moveNext, .ok (some (.int 7)))] status n.toInt ∧
        replay inst.host.events [] = some frames ∧
        frames.map (sampleIterator.body.frames[·]?) = status.openTries.map some := by
  obtain ⟨machine, inst, lowered, dialogue⟩ : ∃ machine inst,
      lowerIterator .oneMethod {} sampleIterator = .ok machine ∧
        Dialogue (perform machine Script.host.noting Noted.note)
          (create machine [.int 7] { host := {} }) [(.moveNext, .ok (some (.int 7)))] inst :=
    exists_dialogue_sampleIterator (by decide +kernel)
  obtain ⟨status, frames, n, state, rests, replayed, same, -⟩ :=
    frames_bracketed regular_sampleIterator lowered Script.host [.int 7] {} dialogue
  exact ⟨machine, inst, lowered, dialogue, status, frames, n, state, rests, replayed, same⟩

end ManagedCode
