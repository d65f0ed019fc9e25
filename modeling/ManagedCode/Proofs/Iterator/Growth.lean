import ManagedCode.Proofs.Iterator.FramePaths
import ManagedCode.Proofs.Iterator.Rewrites
import ManagedCode.Proofs.Iterator.Written

namespace ManagedCode

namespace Lowering

/-! How lowering goes on. -/

namespace Progress

/-- A state that was given to the start, to a yield or to a frame. -/
def Allocated (p : Progress) (state : Int) : Prop :=
  (∃ k : Nat, k < p.resumeLabels.length ∧ state = k) ∨
    ∃ g : Nat, g < p.handlers.length ∧ state = frameState g

/-- What has been made of a body whose labels lie below `base`. -/
structure Sound (base : Nat) (p : Progress) : Prop where
  count : p.frames.frames.length = p.handlers.length + 1
  nested : p.frames.Nested p.Allocated
  frame : ∀ g < p.handlers.length, (p.frames.frame ⟨g + 1⟩).finalizeState = frameState g ∧
    (p.frames.frame ⟨g + 1⟩).handler? = some (handlerMethod g)
  proxies : ∀ f, ∀ pair ∈ (p.frames.frame f).proxies,
    base ≤ pair.2.index ∧ pair.2.index < p.ids.labelCount
  labels : base ≤ p.ids.labelCount
  states : p.resumeLabels.length ≤ p.ids.labelCount
  limit : p.ids.labelCount < idLimit
  stateLimit : p.resumeLabels.length < stateLimit

/-- What was made stays, and more is made. -/
structure Grows (p p' : Progress) : Prop where
  labels : p.ids.labelCount ≤ p'.ids.labelCount
  tries : p'.ids.tryCount = p.ids.tryCount
  resume : p.resumeLabels <+: p'.resumeLabels
  handlers : p.handlers <+: p'.handlers
  locals : p.locals <+: p'.locals
  result : p'.result? = p.result? ∨ p.result? = none ∧
    ∃ r, p'.result? = some r ∧ p.locals.length ≤ r.index ∧ r.index < p'.locals.length
  length : p.frames.frames.length ≤ p'.frames.frames.length
  fixed : ∀ f : FrameId, f.index < p.frames.frames.length →
    (p'.frames.frame f).fixed = (p.frames.frame f).fixed
  proxies : ∀ f : FrameId, f.index < p.frames.frames.length →
    (p.frames.frame f).proxies <+: (p'.frames.frame f).proxies
  known : ∀ f state, p.Allocated state → p'.frames.known f state = p.frames.known f state

variable {base : Nat} {p p₁ p' : Progress}

theorem Allocated.mono {state : Int} (h : p.Allocated state)
    (resume : p.resumeLabels.length ≤ p'.resumeLabels.length)
    (handlers : p.handlers.length ≤ p'.handlers.length) : p'.Allocated state := by
  rcases h with ⟨k, hk, rfl⟩ | ⟨g, hg, rfl⟩
  · exact .inl ⟨k, by omega, rfl⟩
  · exact .inr ⟨g, by omega, rfl⟩

theorem Sound.known_eq_none (sound : p.Sound base) {f : FrameId} {state : Int}
    (new : ¬p.Allocated state) : p.frames.known f state = none := by
  cases found : p.frames.known f state with
  | none => rfl
  | some child => exact absurd (sound.nested.known f state child found).1 new

theorem not_allocated_resume (p : Progress) : ¬p.Allocated (p.resumeLabels.length : Nat) := by
  rintro (⟨k, hk, same⟩ | ⟨g, -, same⟩)
  · omega
  · unfold frameState firstFinalizeState at same
    omega

theorem not_allocated_frame (p : Progress) : ¬p.Allocated (frameState p.handlers.length) := by
  rintro (⟨k, -, same⟩ | ⟨g, hg, same⟩)
  · unfold frameState firstFinalizeState at same
    omega
  · unfold frameState firstFinalizeState at same
    omega

namespace Grows

theorem refl (p : Progress) : Grows p p where
  labels := Nat.le_refl _
  tries := rfl
  resume := List.prefix_rfl
  handlers := List.prefix_rfl
  locals := List.prefix_rfl
  result := .inl rfl
  length := Nat.le_refl _
  fixed _ _ := rfl
  proxies _ _ := List.prefix_rfl
  known _ _ _ := rfl

theorem allocated (h : Grows p p') {state : Int} (used : p.Allocated state) :
    p'.Allocated state :=
  used.mono h.resume.length_le h.handlers.length_le

theorem trans (h : Grows p p₁) (h' : Grows p₁ p') : Grows p p' where
  labels := Nat.le_trans h.labels h'.labels
  tries := h'.tries.trans h.tries
  resume := h.resume.trans h'.resume
  handlers := h.handlers.trans h'.handlers
  locals := h.locals.trans h'.locals
  result := by
    have wide := h.locals.length_le
    have wide' := h'.locals.length_le
    rcases h.result with same | ⟨none, r, known, low, high⟩
    · rcases h'.result with same' | ⟨none', r, known', low', high'⟩
      · exact .inl (same'.trans same)
      · exact .inr ⟨same ▸ none', r, known', by omega, high'⟩
    · rcases h'.result with same' | ⟨none', -⟩
      · exact .inr ⟨none, r, same'.trans known, low, by omega⟩
      · rw [known] at none'
        cases none'
  length := Nat.le_trans h.length h'.length
  fixed f room := (h'.fixed f (Nat.lt_of_lt_of_le room h.length)).trans (h.fixed f room)
  proxies f room := (h.proxies f room).trans (h'.proxies f (Nat.lt_of_lt_of_le room h.length))
  known f state used := (h'.known f state (h.allocated used)).trans (h.known f state used)

theorem lies (h : Grows p p') {path : List Nat} (lies : p.frames.Lies path) :
    p'.frames.Lies path :=
  lies.mono h.length fun f room => Frame.ancestors_eq (h.fixed f room)

end Grows

/-- Steps that leave the frames alone. -/
theorem Sound.of_frames (sound : p.Sound base) (frames : p'.frames = p.frames)
    (handlers : p'.handlers.length = p.handlers.length)
    (resume : p'.resumeLabels.length = p.resumeLabels.length)
    (labels : p.ids.labelCount ≤ p'.ids.labelCount) (limit : p'.ids.labelCount < idLimit) :
    p'.Sound base where
  count := by rw [frames, handlers, sound.count]
  nested := by
    rw [frames]
    exact sound.nested.of_same rfl (fun _ => rfl) (fun _ => rfl) fun s used =>
      used.mono (Nat.le_of_eq resume.symm) (Nat.le_of_eq handlers.symm)
  frame g hg := by
    rw [frames]
    exact sound.frame g (handlers ▸ hg)
  proxies f pair hp := by
    rw [frames] at hp
    obtain ⟨low, high⟩ := sound.proxies f pair hp
    exact ⟨low, by omega⟩
  labels := Nat.le_trans sound.labels labels
  states := by
    rw [resume]
    exact Nat.le_trans sound.states labels
  limit
  stateLimit := resume ▸ sound.stateLimit

end Progress

open Progress

variable {base : Nat} {p p' : Progress}

theorem freshLabel_grows {label : LabelId} (h : freshLabel p = .ok (label, p')) :
    Grows p p' ∧ ∀ {base}, p.Sound base → p'.Sound base := by
  obtain ⟨-, limit, rfl⟩ := freshLabel_eq_ok h
  refine ⟨{ Grows.refl p with labels := Nat.le_succ _ }, fun sound => ?_⟩
  exact sound.of_frames rfl rfl rfl (Nat.le_succ _) limit

theorem temp_grows {ty : Ty} {id : LocalId} (h : temp ty p = .ok (id, p')) :
    Grows p p' ∧ ∀ {base}, p.Sound base → p'.Sound base := by
  obtain ⟨-, rfl⟩ := temp_eq_ok h
  refine ⟨{ Grows.refl p with
    locals := List.prefix_append _ _
    result := .inl rfl }, fun sound => ?_⟩
  exact sound.of_frames rfl rfl rfl (Nat.le_refl _) sound.limit

theorem resultLocal_grows {id : LocalId} (h : resultLocal p = .ok (id, p')) :
    Grows p p' ∧ ∀ {base}, p.Sound base → p'.Sound base := by
  rcases resultLocal_eq_ok h with ⟨-, rfl⟩ | ⟨none, rfl, rfl⟩
  · exact ⟨.refl _, fun sound => sound⟩
  · refine ⟨{ Grows.refl p with
      locals := List.prefix_append _ _
      result := .inr ⟨none, _, rfl, Nat.le_refl _, by simp⟩ }, fun sound => ?_⟩
    exact sound.of_frames rfl rfl rfl (Nat.le_refl _) sound.limit

theorem route_grows {frame : FrameId} {target label : LabelId}
    (h : route frame target p = .ok (label, p')) :
    Grows p p' ∧ ∀ {base}, p.Sound base → p'.Sound base := by
  rcases route_eq_ok h with ⟨-, -, rfl⟩ | ⟨-, -, rfl⟩ | ⟨-, -, rfl, limit, rfl⟩
  · exact ⟨.refl _, fun sound => sound⟩
  · exact ⟨.refl _, fun sound => sound⟩
  · let change : Frame → Frame := fun f =>
      { f with proxies := f.proxies ++ [(target, ⟨p.ids.labelCount⟩)] }
    have fixed : ∀ f, ((p.frames.modify frame change).frame f).fixed = (p.frames.frame f).fixed :=
      fun f => FrameTree.frame_modify_keeps Frame.fixed fun _ => rfl
    have states : ∀ f,
        ((p.frames.modify frame change).frame f).knownStates = (p.frames.frame f).knownStates :=
      fun f => FrameTree.frame_modify_keeps Frame.knownStates fun _ => rfl
    have proxies : ∀ f, (p.frames.frame f).proxies <+:
        ((p.frames.modify frame change).frame f).proxies ∧
        ∀ pair ∈ ((p.frames.modify frame change).frame f).proxies,
          pair ∈ (p.frames.frame f).proxies ∨ pair = (target, ⟨p.ids.labelCount⟩) := by
      intro f
      by_cases here : f = frame ∧ frame.index < p.frames.frames.length
      · obtain ⟨rfl, room⟩ := here
        rw [FrameTree.frame_modify_self change room]
        refine ⟨List.prefix_append _ _, fun pair hp => ?_⟩
        exact (List.mem_append.mp hp).imp_right List.mem_singleton.mp
      · have same : (p.frames.modify frame change).frame f = p.frames.frame f := by
          by_cases other : f = frame
          · exact FrameTree.frame_modify_of_le change
              (Nat.le_of_not_lt fun room => here ⟨other, room⟩)
          · exact FrameTree.frame_modify_of_ne change other
        rw [same]
        exact ⟨List.prefix_rfl, fun pair hp => .inl hp⟩
    refine ⟨{ Grows.refl p with
      labels := Nat.le_succ _
      length := Nat.le_of_eq (FrameTree.length_modify _ _ _).symm
      fixed := fun f _ => fixed f
      proxies := fun f _ => (proxies f).1
      known := fun f state _ => congrArg (List.lookup state) (states f) }, fun sound => ?_⟩
    exact
      { count := (FrameTree.length_modify _ _ _).trans sound.count
        nested := sound.nested.of_same (FrameTree.length_modify _ _ _) fixed states fun _ h => h
        frame := fun g hg => by
          obtain ⟨finalize, handler⟩ := sound.frame g hg
          exact ⟨(Frame.finalizeState_eq (fixed _)).trans finalize,
            (Frame.handler_eq (fixed _)).trans handler⟩
        proxies := fun f pair hp => by
          rcases (proxies f).2 pair hp with before | rfl
          · obtain ⟨low, high⟩ := sound.proxies f pair before
            exact ⟨low, Nat.lt_succ_of_lt high⟩
          · exact ⟨sound.labels, Nat.lt_succ_self _⟩
        labels := Nat.le_succ_of_le sound.labels
        states := Nat.le_succ_of_le sound.states
        limit := limit
        stateLimit := sound.stateLimit }

theorem addState_eq_tell {tree : FrameTree} {path : List Nat} (lies : tree.Lies path)
    (state : Int) :
    tree.addState (FrameTree.frameOf path) state =
      tree.tell state (FrameTree.framesOf path) := by
  rw [FrameTree.addState_eq, lies.chain]

theorem addState_grows {path : List Nat} {state : Int} {resume : LabelId}
    (lies : p.frames.Lies path)
    (h : addState (FrameTree.frameOf path) p = .ok ((state, resume), p')) :
    Grows p p' ∧ ∀ {base}, p.Sound base → p'.Sound base := by
  obtain ⟨rfl, rfl, ⟨limit, fewStates⟩, rfl⟩ := addState_eq_ok h
  have fixed := @FrameTree.Nested.fixed_tell
  have more : ∀ s, p.Allocated s → Progress.Allocated
      { p with resumeLabels := p.resumeLabels ++ [⟨p.ids.labelCount⟩] } s := fun s used =>
    used.mono (by simp) (Nat.le_refl _)
  rw [addState_eq_tell lies]
  have proxies : ∀ f, ((p.frames.tell (p.resumeLabels.length : Nat)
      (FrameTree.framesOf path)).frame f).proxies = (p.frames.frame f).proxies :=
    fun f => FrameTree.frame_tell_keeps Frame.proxies (fun _ _ => rfl) _ _
  refine ⟨{ Grows.refl p with
    labels := Nat.le_succ _
    resume := List.prefix_append _ _
    length := Nat.le_of_eq (FrameTree.length_tell _ _).symm
    fixed := fun f _ => fixed _ _
    proxies := fun f _ => proxies f ▸ List.prefix_rfl
    known := fun f s used => FrameTree.known_tell_of_ne _ fun same =>
      p.not_allocated_resume (same ▸ used) }, fun sound => ?_⟩
  exact
    { count := (FrameTree.length_tell _ _).trans sound.count
      nested := sound.nested.tells lies more (.inl ⟨_, by simp, rfl⟩)
      frame := fun g hg => by
        obtain ⟨finalize, handler⟩ := sound.frame g hg
        exact ⟨(Frame.finalizeState_eq (fixed _ _)).trans finalize,
          (Frame.handler_eq (fixed _ _)).trans handler⟩
      proxies := fun f pair hp => by
        dsimp only at hp
        rw [proxies] at hp
        obtain ⟨low, high⟩ := sound.proxies f pair hp
        exact ⟨low, Nat.lt_succ_of_lt high⟩
      labels := Nat.le_succ_of_le sound.labels
      states := by
        change (p.resumeLabels ++ [_]).length ≤ _
        rw [List.length_append]
        exact Nat.succ_le_succ sound.states
      limit := limit
      stateLimit := by
        change (p.resumeLabels ++ [_]).length < _
        rw [List.length_append]
        exact fewStates }

theorem covers_addState {path : List Nat} {state : Int} {resume : LabelId} (sound : p.Sound base)
    (lies : p.frames.Lies path)
    (h : addState (FrameTree.frameOf path) p = .ok ((state, resume), p')) :
    p'.frames.Covers state path := by
  obtain ⟨rfl, -, -, rfl⟩ := addState_eq_ok h
  dsimp only
  rw [addState_eq_tell lies]
  exact FrameTree.covers_tell lies fun f => sound.known_eq_none p.not_allocated_resume

/-- A new frame lies in the frame at `path`. -/
structure Pushed (source : Source) (path : List Nat) (id : TryId) (p : Progress) (frame : FrameId)
    (index : Nat) (p' : Progress) : Prop where
  number : index = p.handlers.length
  new : frame = ⟨index + 1⟩
  lies : p'.frames.Lies (index :: path)
  labels : (p'.frames.frame frame).definedLabels = source.facts.labels id
  proxies : (p'.frames.frame frame).proxies = []
  finalize : (p'.frames.frame frame).finalizeState = frameState index
  covers : p'.frames.Covers (frameState index) (index :: path)
  handlers : p'.handlers.length = p.handlers.length + 1
  resume : p'.resumeLabels = p.resumeLabels
  locals : p'.locals = p.locals
  result : p'.result? = p.result?
  ids : p'.ids = p.ids

theorem pushFrame_grows {source : Source} {path : List Nat} {id : TryId} {frame : FrameId}
    {index : Nat} (sound : p.Sound base) (lies : p.frames.Lies path)
    (h : pushFrame source (FrameTree.frameOf path) id p = .ok ((frame, index), p')) :
    Grows p p' ∧ p'.Sound base ∧ Pushed source path id p frame index p' := by
  obtain ⟨-, rfl, rfl, made⟩ := pushFrame_eq_ok h
  let new : Frame :=
    { ancestors := FrameTree.framesOf path
      finalizeState := frameState p.handlers.length
      handler? := some (handlerMethod p.handlers.length)
      definedLabels := source.facts.labels id }
  let grown := p.frames.append new
  have count := sound.count
  have number : (⟨p.frames.frames.length⟩ : FrameId) =
      FrameTree.frameOf (p.handlers.length :: path) := congrArg FrameId.mk count
  have inner : grown.Lies (p.handlers.length :: path) := lies.append count rfl
  obtain ⟨frames, handlers, before, ids, resume, locals, result⟩ :
      p'.frames = grown.tell (frameState p.handlers.length)
          (FrameTree.framesOf (p.handlers.length :: path)) ∧
        p'.handlers.length = p.handlers.length + 1 ∧ p.handlers <+: p'.handlers ∧
        p'.ids = p.ids ∧ p'.resumeLabels = p.resumeLabels ∧ p'.locals = p.locals ∧
        p'.result? = p.result? := by
    have chain := lies.chain
    rw [← addState_eq_tell inner, ← number]
    subst made
    refine ⟨?_, List.length_append, List.prefix_append _ _, rfl, rfl, rfl, rfl⟩
    change FrameTree.addState _ _ _ = FrameTree.addState _ _ _
    rw [chain]
    rfl
  have fixed : ∀ f, (p'.frames.frame f).fixed = (grown.frame f).fixed := by
    rw [frames]
    exact fun f => FrameTree.Nested.fixed_tell _ _
  have proxies : ∀ f, (p'.frames.frame f).proxies = (grown.frame f).proxies := by
    rw [frames]
    exact fun f => FrameTree.frame_tell_keeps Frame.proxies (fun _ _ => rfl) _ _
  have length : p'.frames.frames.length = p.frames.frames.length + 1 := by
    rw [frames, FrameTree.length_tell]
    exact List.length_append
  have old : ∀ f : FrameId, f.index < p.frames.frames.length →
      grown.frame f = p.frames.frame f := fun f room =>
    FrameTree.frame_append_of_ne (Nat.ne_of_lt room)
  have itself : grown.frame ⟨p.frames.frames.length⟩ = new := FrameTree.frame_append_self
  have more : ∀ s, p.Allocated s → p'.Allocated s := fun s used =>
    used.mono (Nat.le_of_eq (congrArg List.length resume).symm) (by omega)
  refine ⟨?_, ?_, ?_⟩
  · exact
      { labels := Nat.le_of_eq (congrArg FreshIds.labelCount ids).symm
        tries := congrArg FreshIds.tryCount ids
        resume := resume ▸ List.prefix_rfl
        handlers := before
        locals := locals ▸ List.prefix_rfl
        result := .inl result
        length := by omega
        fixed := fun f room => (fixed f).trans (congrArg Frame.fixed (old f room))
        proxies := fun f room => ⟨[], by rw [proxies, old f room, List.append_nil]⟩
        known := fun f s used => by
          have other : s ≠ frameState p.handlers.length := fun same =>
            p.not_allocated_frame (same ▸ used)
          rw [frames, FrameTree.known_tell_of_ne _ other]
          exact FrameTree.known_append rfl s }
  · exact
      { count := by omega
        nested := by
          rw [frames]
          exact (sound.nested.append lies count rfl rfl).tells inner more
            (.inr ⟨_, by omega, rfl⟩)
        frame := fun g hg => by
          rw [Frame.finalizeState_eq (fixed _), Frame.handler_eq (fixed _)]
          rcases Nat.lt_or_ge g p.handlers.length with earlier | last
          · rw [old ⟨g + 1⟩ (by change g + 1 < _; omega)]
            exact sound.frame g earlier
          · obtain rfl : g = p.handlers.length := by omega
            rw [← count, itself]
            exact ⟨rfl, rfl⟩
        proxies := fun f pair hp => by
          rw [proxies] at hp
          rw [ids]
          by_cases last : f.index = p.frames.frames.length
          · have here : grown.frame f = new := FrameTree.frame_append_of_eq last
            rw [here] at hp
            cases hp
          · have here : grown.frame f = p.frames.frame f := FrameTree.frame_append_of_ne last
            rw [here] at hp
            exact sound.proxies f pair hp
        labels := by
          rw [ids]
          exact sound.labels
        states := by
          rw [ids, resume]
          exact sound.states
        limit := by
          rw [ids]
          exact sound.limit
        stateLimit := by
          rw [resume]
          exact sound.stateLimit }
  · have here : (p'.frames.frame ⟨p.frames.frames.length⟩).fixed = new.fixed :=
      (fixed _).trans (congrArg Frame.fixed itself)
    exact
      { number := rfl
        new := number
        lies := by
          rw [frames]
          exact FrameTree.Nested.lies_tell inner
        labels := Frame.definedLabels_eq here
        proxies := (proxies _).trans (congrArg Frame.proxies itself)
        finalize := Frame.finalizeState_eq here
        covers := by
          rw [frames]
          refine FrameTree.covers_tell inner fun f => ?_
          exact (FrameTree.known_append rfl _).trans (sound.known_eq_none p.not_allocated_frame)
        handlers
        resume
        locals
        result
        ids }

theorem Progress.Sound.finalizeState (sound : p.Sound base) {path : List Nat}
    (lies : p.frames.Lies path) :
    (p.frames.frame (FrameTree.frameOf path)).finalizeState = stateOf path := by
  cases path with
  | nil => exact congrArg Frame.finalizeState sound.nested.root
  | cons g path =>
    have room := lies.room
    rw [FrameTree.frameOf_cons, sound.count] at room
    exact (sound.frame g (Nat.lt_of_succ_lt_succ room)).1

/-! Whole statements. -/

theorem Progress.frames_takeProxies (p : Progress) (frame : FrameId) :
    (p.takeProxies frame).frames = p.frames.modify frame fun f => { f with proxies := [] } :=
  rfl

theorem Progress.fixed_takeProxies (p : Progress) (frame f : FrameId) :
    ((p.takeProxies frame).frames.frame f).fixed = (p.frames.frame f).fixed := by
  rw [frames_takeProxies]
  exact FrameTree.frame_modify_keeps Frame.fixed fun _ => rfl

theorem Progress.knownStates_takeProxies (p : Progress) (frame f : FrameId) :
    ((p.takeProxies frame).frames.frame f).knownStates = (p.frames.frame f).knownStates := by
  rw [frames_takeProxies]
  exact FrameTree.frame_modify_keeps Frame.knownStates fun _ => rfl

theorem Progress.length_takeProxies (p : Progress) (frame : FrameId) :
    (p.takeProxies frame).frames.frames.length = p.frames.frames.length :=
  FrameTree.length_modify _ _ _

theorem Progress.frame_takeProxies_of_ne (p : Progress) {frame f : FrameId} (other : f ≠ frame) :
    (p.takeProxies frame).frames.frame f = p.frames.frame f := by
  rw [frames_takeProxies]
  exact FrameTree.frame_modify_of_ne _ other

theorem Progress.proxies_takeProxies {frame f : FrameId} {pair : LabelId × LabelId}
    (mem : pair ∈ ((p.takeProxies frame).frames.frame f).proxies) :
    pair ∈ (p.frames.frame f).proxies := by
  by_cases same : f = frame
  · subst same
    rcases Nat.lt_or_ge f.index p.frames.frames.length with room | small
    · rw [p.frames_takeProxies, FrameTree.frame_modify_self _ room] at mem
      cases mem
    · rwa [p.frames_takeProxies, FrameTree.frame_modify_of_le _ small] at mem
  · exact p.frame_takeProxies_of_ne same ▸ mem

theorem Progress.Sound.takeProxies (sound : p.Sound base) (frame : FrameId) :
    (p.takeProxies frame).Sound base where
  count := (p.length_takeProxies frame).trans sound.count
  nested := sound.nested.of_same (p.length_takeProxies frame) (p.fixed_takeProxies frame)
    (p.knownStates_takeProxies frame) fun _ h => h
  frame g hg := by
    obtain ⟨finalize, handler⟩ := sound.frame g hg
    exact ⟨(Frame.finalizeState_eq (p.fixed_takeProxies frame _)).trans finalize,
      (Frame.handler_eq (p.fixed_takeProxies frame _)).trans handler⟩
  proxies f pair hp := sound.proxies f pair (Progress.proxies_takeProxies hp)
  labels := sound.labels
  states := sound.states
  limit := sound.limit
  stateLimit := sound.stateLimit

/-- The proxies of a frame that is new are forgotten. -/
theorem Progress.Grows.takeProxies (h : Grows p p') {frame : FrameId}
    (new : p.frames.frames.length ≤ frame.index) : Grows p (p'.takeProxies frame) where
  labels := h.labels
  tries := h.tries
  resume := h.resume
  handlers := h.handlers
  locals := h.locals
  result := h.result
  length := Nat.le_trans h.length (Nat.le_of_eq (p'.length_takeProxies frame).symm)
  fixed f room := (p'.fixed_takeProxies frame f).trans (h.fixed f room)
  proxies f room := by
    have other : f ≠ frame := by
      rintro rfl
      omega
    rw [p'.frame_takeProxies_of_ne other]
    exact h.proxies f room
  known f state used :=
    (congrArg (List.lookup state) (p'.knownStates_takeProxies frame f)).trans
      (h.known f state used)

/-- From `p` to `p'`, lowering goes on as it should; only a yield break may need the local for the
answer. -/
structure Evolves (base : Nat) (breaks : Bool) (p p' : Progress) : Prop where
  grows : Grows p p'
  sound : p'.Sound base
  result : breaks = false → p'.result? = p.result?

theorem Evolves.refl (sound : p.Sound base) (breaks : Bool) : Evolves base breaks p p :=
  ⟨.refl p, sound, fun _ => rfl⟩

theorem Evolves.trans {breaks breaks' : Bool} {p₁ : Progress} (h : Evolves base breaks p p₁)
    (h' : Evolves base breaks' p₁ p') : Evolves base (breaks || breaks') p p' := by
  refine ⟨h.grows.trans h'.grows, h'.sound, fun none => ?_⟩
  obtain ⟨first, second⟩ := Bool.or_eq_false_iff.mp none
  exact (h'.result second).trans (h.result first)

theorem Evolves.mono {breaks breaks' : Bool} (h : Evolves base breaks p p')
    (less : breaks' = false → breaks = false) : Evolves base breaks' p p' :=
  ⟨h.grows, h.sound, fun none => h.result (less none)⟩

theorem result_of_route {frame : FrameId} {target label : LabelId}
    (h : route frame target p = .ok (label, p')) : p'.result? = p.result? := by
  rcases route_eq_ok h with ⟨-, -, rfl⟩ | ⟨-, -, rfl⟩ | ⟨-, -, -, -, rfl⟩ <;> rfl

theorem evolves_route {frame : FrameId} {target label : LabelId} (sound : p.Sound base)
    (h : route frame target p = .ok (label, p')) : Evolves base false p p' :=
  ⟨(route_grows h).1, (route_grows h).2 sound, fun _ => result_of_route h⟩

theorem evolves_temp {ty : Ty} {id : LocalId} (sound : p.Sound base)
    (h : temp ty p = .ok (id, p')) : Evolves base false p p' := by
  refine ⟨(temp_grows h).1, (temp_grows h).2 sound, fun _ => ?_⟩
  obtain ⟨-, rfl⟩ := temp_eq_ok h
  rfl

theorem RoutesCases.evolves {frame : FrameId} {cases cases' : List (Int64 × LabelId)}
    (h : RoutesCases frame p cases cases' p') (sound : p.Sound base) :
    Evolves base false p p' := by
  induction h with
  | nil => exact .refl sound _
  | cons h rest ih =>
    have first := evolves_route sound h
    exact first.trans (ih first.sound)

theorem RoutesDefault.evolves {frame : FrameId} {default? default' : Option LabelId}
    (h : RoutesDefault frame p default? default' p') (sound : p.Sound base) :
    Evolves base false p p' := by
  cases h with
  | none => exact .refl sound _
  | some h => exact evolves_route sound h

theorem ProxiesEnd.evolves {parent : FrameId} {handler : SynthMethodId}
    {proxies : List (LabelId × LabelId)} {out : List Stmt}
    (h : ProxiesEnd parent handler p proxies out p') (sound : p.Sound base) :
    Evolves base false p p' := by
  induction h with
  | nil => exact .refl sound _
  | cons h more ih =>
    have first := evolves_route sound h
    exact first.trans (ih first.sound)

theorem FrameEnds.evolves {parent frame : FrameId} {handler : SynthMethodId} {out : List Stmt}
    (h : FrameEnds parent frame handler p out p') (sound : p.Sound base) :
    Evolves base false (p.takeProxies frame) p' := by
  have taken := sound.takeProxies frame
  cases h with
  | plain => exact .refl taken _
  | proxies some h more =>
    have drop : Evolves base false (p.takeProxies frame) _ :=
      ⟨(freshLabel_grows h).1, (freshLabel_grows h).2 taken, fun _ => by
        obtain ⟨-, -, rfl⟩ := freshLabel_eq_ok h
        rfl⟩
    exact drop.trans (more.evolves drop.sound)

variable {source : Source}

theorem Pushed.room {path : List Nat} {id : TryId} {frame : FrameId} {index : Nat}
    (pushed : Pushed source path id p frame index p') :
    frame.index < p'.frames.frames.length := by
  rw [pushed.new, ← FrameTree.frameOf_cons index path]
  exact pushed.lies.room

/-- The proxies of the new frame may be forgotten later. -/
theorem Pushed.takes {path : List Nat} {id : TryId} {frame : FrameId} {index : Nat}
    {p₁ p₂ : Progress} (pushed : Pushed source path id p frame index p₁) (sound : p.Sound base)
    (grown : Grows p p₂) : Grows p (p₂.takeProxies frame) := by
  refine grown.takeProxies ?_
  rw [pushed.new, pushed.number]
  exact Nat.le_of_eq sound.count

theorem evolves_frame {path : List Nat} {id : TryId} {frame : FrameId} {index : Nat}
    {p₁ p₂ p₃ p₄ : Progress} {breaks : Bool} (grown : Grows p p₁)
    (pushed : Pushed source path id p frame index p₁) (sound : p.Sound base)
    (body : Evolves base breaks p₁ p₂) (leave : Evolves base false (p₂.takeProxies frame) p₃)
    (clause : Evolves base false { p₃ with locals := [] } p₄) (code : List Stmt) :
    Evolves base breaks p (p₄.withHandler index p₃.locals code) := by
  have before : Grows p p₃ := (pushed.takes sound (grown.trans body.grows)).trans leave.grows
  have after := clause.grows
  refine ⟨?_, ?_, fun none => ?_⟩
  · exact
      { labels := Nat.le_trans before.labels after.labels
        tries := after.tries.trans before.tries
        resume := before.resume.trans after.resume
        handlers := by
          have older := before.handlers.trans after.handlers
          rw [List.prefix_iff_getElem?] at older ⊢
          intro i room
          have other : index ≠ i := by
            rw [pushed.number]
            exact Nat.ne_of_gt room
          exact (List.getElem?_modify_ne _ _ other).trans (older i room)
        locals := before.locals
        result := by
          have same : p₄.result? = p₃.result? := clause.result rfl
          change p₄.result? = _ ∨ _ ∧ ∃ r, p₄.result? = _ ∧ _
          rw [same]
          exact before.result
        length := Nat.le_trans before.length after.length
        fixed := fun f room =>
          (after.fixed f (Nat.lt_of_lt_of_le room before.length)).trans (before.fixed f room)
        proxies := fun f room =>
          (before.proxies f room).trans (after.proxies f (Nat.lt_of_lt_of_le room before.length))
        known := fun f state used =>
          (after.known f state (before.allocated used)).trans (before.known f state used) }
  · exact clause.sound.of_frames rfl (List.length_modify ..) rfl (Nat.le_refl _) clause.sound.limit
  · have same : p₄.result? = p₃.result? := clause.result rfl
    refine same.trans ((leave.result rfl).trans ?_)
    exact (body.result none).trans pushed.result

mutual

theorem Rewrites.evolves {s : Stmt} {out : List Stmt} {position : Position} {p p' : Progress}
    (h : Rewrites source position p s out p') (fine : s.Suspendable) (sound : p.Sound base)
    (room : position.frame.index < p.frames.frames.length) : Evolves base s.breaks p p' := by
  cases h with
  | block h => exact RewritesAll.evolves h fine sound room
  | expr | assign | label | throw | nop | breakOut => exact .refl sound _
  | goto h => exact evolves_route sound h
  | condGoto h => exact evolves_route sound h
  | switch hc hd =>
    have first := hc.evolves sound
    exact first.trans (hd.evolves first.sound)
  | yield h =>
    obtain ⟨path, same, lies⟩ := sound.nested.paths _ room
    rw [same] at h
    refine ⟨(addState_grows lies h).1, (addState_grows lies h).2 sound, fun _ => ?_⟩
    obtain ⟨-, -, -, rfl⟩ := addState_eq_ok h
    rfl
  | breakTry inside hr h =>
    have first : Evolves base true p _ :=
      ⟨(resultLocal_grows hr).1, (resultLocal_grows hr).2 sound, fun h => by cases h⟩
    exact first.trans (evolves_route first.sound h)
  | tryCatch plain hb hc =>
    obtain ⟨-, -, fineBody, fineCatches⟩ := fine
    have first := RewritesAll.evolves hb fineBody sound room
    have room' := Nat.lt_of_lt_of_le room first.grows.length
    exact first.trans (RewritesCatches.evolves hc fineCatches first.sound room')
  | tryFinally plain hb hc hf =>
    obtain ⟨-, -, -, -, fineBody, fineCatches, fineCleanup⟩ := fine
    have first := RewritesAll.evolves hb fineBody sound room
    have room₁ := Nat.lt_of_lt_of_le room first.grows.length
    have second := RewritesCatches.evolves hc fineCatches first.sound room₁
    have room₂ := Nat.lt_of_lt_of_le room₁ second.grows.length
    exact (first.trans second).trans (RewritesAll.evolves hf fineCleanup second.sound room₂)
  | frame suspends hp hb hl hc =>
    obtain ⟨-, -, -, none, fineBody, -, fineCleanup⟩ := fine
    obtain ⟨path, same, lies⟩ := sound.nested.paths _ room
    rw [same] at hp
    obtain ⟨grown, sound₁, pushed⟩ := pushFrame_grows sound lies hp
    have body := RewritesAll.evolves hb fineBody sound₁ pushed.room
    have leave := hl.evolves body.sound
    have longer := leave.grows.length
    rw [Progress.length_takeProxies] at longer
    have room₃ := Nat.lt_of_lt_of_le room
      (Nat.le_trans grown.length (Nat.le_trans body.grows.length longer))
    have clause := RewritesAll.evolves hc fineCleanup
      (leave.sound.of_frames rfl rfl rfl (Nat.le_refl _) leave.sound.limit) room₃
    rw [none] at clause
    refine (evolves_frame grown pushed sound body leave clause _).mono fun quiet => ?_
    exact (Bool.or_eq_false_iff.mp (Bool.or_eq_false_iff.mp quiet).1).1
  | tryFault hb hf =>
    obtain ⟨-, -, fineBody, fineFault⟩ := fine
    have first := RewritesAll.evolves hb fineBody sound room
    have room' := Nat.lt_of_lt_of_le room first.grows.length
    exact first.trans (RewritesAll.evolves hf fineFault first.sound room')

theorem RewritesAll.evolves {ss out : List Stmt} {position : Position} {p p' : Progress}
    (h : RewritesAll source position p ss out p') (fine : Stmt.SuspendableAll ss)
    (sound : p.Sound base) (room : position.frame.index < p.frames.frames.length) :
    Evolves base (Stmt.anyBreaks ss) p p' := by
  cases h with
  | nil => exact .refl sound _
  | cons hs hss =>
    have first := Rewrites.evolves hs fine.1 sound room
    have room' := Nat.lt_of_lt_of_le room first.grows.length
    exact first.trans (RewritesAll.evolves hss fine.2 first.sound room')

theorem RewritesCatches.evolves {cs out : List Catch} {position : Position} {p p' : Progress}
    (h : RewritesCatches source position p cs out p') (fine : Catch.SuspendableAll cs)
    (sound : p.Sound base) (room : position.frame.index < p.frames.frames.length) :
    Evolves base (Catch.anyBreaks cs) p p' := by
  cases h with
  | nil => exact .refl sound _
  | plain hb hcs =>
    have first := RewritesAll.evolves hb fine.1 sound room
    have room' := Nat.lt_of_lt_of_le room first.grows.length
    exact first.trans (RewritesCatches.evolves hcs fine.2 first.sound room')
  | caught ht hb hcs =>
    have start := evolves_temp sound ht
    have room₁ := Nat.lt_of_lt_of_le room start.grows.length
    have first := RewritesAll.evolves hb fine.1 start.sound room₁
    have room' := Nat.lt_of_lt_of_le room₁ first.grows.length
    exact (start.trans first).trans (RewritesCatches.evolves hcs fine.2 first.sound room')

end

end Lowering

end ManagedCode
