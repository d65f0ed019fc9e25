import ManagedCode.Proofs.Iterator.Growth

namespace ManagedCode

namespace FrameTree

/-! Trees of frames that were built from the root. -/

/-- Trees that are built from the root by new frames and new states, with the states that were made
known so far and the frame of each. A frame makes its finalize state known. -/
inductive Built : List (Int × FrameId) → FrameTree → Prop
  | root : Built [] {}
  | push {states : List (Int × FrameId)} {tree : FrameTree} {parent : FrameId} {state : Int}
    (built : Built states tree) (inside : parent.index < tree.frames.length)
    (new : state ∉ states.map (·.1)) (handler : SynthMethodId) (definedLabels : List LabelId) :
    Built ((state, (tree.push parent state handler definedLabels).1) :: states)
      (tree.push parent state handler definedLabels).2
  | addState {states : List (Int × FrameId)} {tree : FrameTree} {frame : FrameId} {state : Int}
    (built : Built states tree) (inside : frame.index < tree.frames.length)
    (new : state ∉ states.map (·.1)) : Built ((state, frame) :: states) (tree.addState frame state)

variable {tree : FrameTree} {states : List (Int × FrameId)} {path : List Nat} {f : FrameId}
  {state : Int}

/-- Each known state lies under the path of its frame, and each frame below the root has a handler.
-/
structure Housed (states : List (Int × FrameId)) (tree : FrameTree) : Prop where
  nested : tree.Nested (· ∈ states.map (·.1))
  outermost : tree.Lies []
  home : ∀ s f, (s, f) ∈ states → ∃ path, f = frameOf path ∧ tree.Lies path ∧ tree.Covers s path
  guarded : ∀ f : FrameId, 0 < f.index → f.index < tree.frames.length →
    (tree.frame f).handler? ≠ none

theorem push_eq {g : Nat} (lies : tree.Lies path) (count : tree.frames.length = g + 1)
    (handler : SynthMethodId) (definedLabels : List LabelId) :
    tree.push (frameOf path) state handler definedLabels =
      (⟨g + 1⟩, (tree.append
        { ancestors := framesOf path
          finalizeState := state
          handler? := some handler
          definedLabels }).tell state (framesOf (g :: path))) := by
  let new : Frame :=
    { ancestors := framesOf path, finalizeState := state, handler? := some handler, definedLabels }
  have inner : (tree.append new).Lies (g :: path) := lies.append count rfl
  rw [← Lowering.addState_eq_tell inner]
  unfold push
  rw [lies.chain, count]
  rfl

/-- Nothing knows a state that is not in use. -/
theorem Nested.known_eq_none {used : Int → Prop} (nested : tree.Nested used) (new : ¬used state)
    (f : FrameId) : tree.known f state = none :=
  Option.eq_none_iff_forall_ne_some.mpr fun child found =>
    new (nested.known f state child found).1

namespace Housed

theorem root : Housed [] {} where
  nested :=
    { root := rfl
      paths := fun f room => ⟨[], by
        obtain ⟨i⟩ := f
        exact congrArg FrameId.mk (Nat.lt_one_iff.mp room), .root rfl Nat.one_pos⟩
      known := fun f state child found => by
        obtain ⟨i⟩ := f
        cases i <;> cases found
      unique := fun f => by
        obtain ⟨i⟩ := f
        cases i <;> exact List.nodup_nil }
  outermost := .root rfl Nat.one_pos
  home _ _ mem := absurd mem List.not_mem_nil
  guarded f inner room := absurd room (Nat.not_lt.mpr inner)

/-- A new state becomes known along the path of its frame. -/
theorem tells (h : Housed states tree) (lies : tree.Lies path) (new : state ∉ states.map (·.1)) :
    Housed ((state, frameOf path) :: states) (tree.tell state (framesOf path)) where
  nested := h.nested.tells lies (fun _ used => List.mem_cons_of_mem _ used) List.mem_cons_self
  outermost := Nested.lies_tell h.outermost
  home s f mem := by
    rcases List.mem_cons.mp mem with same | older
    · cases same
      exact ⟨path, rfl, Nested.lies_tell lies,
        covers_tell lies (h.nested.known_eq_none new)⟩
    · obtain ⟨path', same, lies', covers⟩ := h.home s f older
      have other : s ≠ state := by
        rintro rfl
        exact new (List.mem_map.mpr ⟨_, older, rfl⟩)
      exact ⟨path', same, Nested.lies_tell lies',
        covers.congr fun f => known_tell_of_ne tree other⟩
  guarded f inner room := by
    rw [length_tell] at room
    rw [Frame.handler_eq (Nested.fixed_tell _ _)]
    exact h.guarded f inner room

theorem append (h : Housed states tree) {g : Nat} (lies : tree.Lies path)
    (count : tree.frames.length = g + 1) {frame : Frame} (inner : frame.ancestors = framesOf path)
    (new : frame.knownStates = []) (handler : frame.handler? ≠ none) :
    Housed states (tree.append frame) where
  nested := h.nested.append lies count inner new
  outermost := h.outermost.of_append
  home s f mem := by
    obtain ⟨path', same, lies', covers⟩ := h.home s f mem
    exact ⟨path', same, lies'.of_append, covers.congr fun f => known_append new s⟩
  guarded f below room := by
    by_cases last : f.index = tree.frames.length
    · rw [frame_append_of_eq last]
      exact handler
    · rw [frame_append_of_ne last]
      change f.index < (tree.frames ++ [frame]).length at room
      rw [List.length_append, List.length_singleton] at room
      exact h.guarded f below (by omega)

end Housed

theorem Built.housed (built : Built states tree) : Housed states tree := by
  induction built with
  | root => exact .root
  | push built inside new handler definedLabels ih =>
    obtain ⟨path, rfl, lies⟩ := ih.nested.paths _ inside
    obtain ⟨g, count⟩ := Nat.exists_eq_add_of_lt inside
    have count := count.trans (Nat.succ_eq_add_one _)
    rw [push_eq lies count]
    exact (ih.append lies count rfl rfl (Option.some_ne_none handler)).tells
      (lies.append count rfl) new
  | addState built inside new ih =>
    obtain ⟨path, rfl, lies⟩ := ih.nested.paths _ inside
    rw [Lowering.addState_eq_tell lies]
    exact ih.tells lies new

/-- The handlers of a frame and of the frames around it, innermost first. -/
def handlersAround (tree : FrameTree) (f : FrameId) : List SynthMethodId :=
  (f :: (tree.frame f).ancestors).filterMap fun f => (tree.frame f).handler?

/-- The handler of a frame that has one. -/
def handlerOf (tree : FrameTree) (g : Nat) : SynthMethodId :=
  (tree.frame ⟨g + 1⟩).handler?.getD default

theorem Housed.handler (h : Housed states tree) {g : Nat} (lies : tree.Lies (g :: path)) :
    (tree.frame ⟨g + 1⟩).handler? = some (tree.handlerOf g) := by
  have some := h.guarded ⟨g + 1⟩ (Nat.succ_pos g) lies.room
  obtain ⟨m, hm⟩ := Option.ne_none_iff_exists'.mp some
  unfold handlerOf
  rw [hm]
  rfl

theorem Housed.handlersAround_eq (h : Housed states tree) (lies : tree.Lies path) :
    tree.handlersAround (frameOf path) = path.map tree.handlerOf := by
  unfold handlersAround
  rw [lies.chain]
  induction lies with
  | root =>
    have none : (tree.frame FrameTree.root).handler? = none := congrArg Frame.handler? h.nested.root
    change List.filterMap _ [FrameTree.root] = []
    rw [List.filterMap_cons, none]
    rfl
  | frame around inner room later ih =>
    have handled := h.handler (.frame around inner room later)
    change List.filterMap _ (⟨_⟩ :: framesOf _) = _
    rw [List.filterMap_cons, handled, ih]
    rfl

end FrameTree

end ManagedCode
