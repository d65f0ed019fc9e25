import Mathlib.Data.List.Nodup
import ManagedCode.Iterator.Frames

namespace ManagedCode

/-! Frames along a path to the root. -/

section

variable {α β : Type} [DecidableEq α]

theorem lookup_insertPair (key other : α) (value : β) (pairs : List (α × β)) :
    (insertPair key value pairs).lookup other =
      if other = key then some value else pairs.lookup other := by
  induction pairs with
  | nil =>
    by_cases same : other = key
    · simp [insertPair, same]
    · simp [insertPair, same]
  | cons pair rest ih =>
    obtain ⟨k, v⟩ := pair
    rw [insertPair]
    by_cases here : k = key
    · subst here
      rw [if_pos rfl]
      by_cases same : other = k
      · simp [same]
      · rw [if_neg same, List.lookup_cons, List.lookup_cons, beq_false_of_ne same]
    · rw [if_neg here, List.lookup_cons, List.lookup_cons, ih]
      by_cases first : other = k
      · simp [first, here]
      · rw [beq_false_of_ne first]

theorem map_fst_insertPair (key : α) (value : β) (pairs : List (α × β)) :
    (insertPair key value pairs).map (·.1) =
      if key ∈ pairs.map (·.1) then pairs.map (·.1) else pairs.map (·.1) ++ [key] := by
  induction pairs with
  | nil => rfl
  | cons pair rest ih =>
    obtain ⟨k, v⟩ := pair
    rw [insertPair]
    by_cases here : k = key
    · simp [here]
    · rw [if_neg here, List.map_cons, ih]
      by_cases later : key ∈ rest.map (·.1)
      · simp only [later, List.map_cons, List.mem_cons, or_true, if_true]
      · have absent : key ∉ (k :: rest.map (·.1)) := by
          rw [List.mem_cons, not_or]
          exact ⟨Ne.symm here, later⟩
        simp only [later, List.map_cons, absent, if_false, List.cons_append]

theorem nodup_insertPair {key : α} {value : β} {pairs : List (α × β)}
    (h : (pairs.map (·.1)).Nodup) : ((insertPair key value pairs).map (·.1)).Nodup := by
  rw [map_fst_insertPair]
  split
  next => exact h
  next absent =>
    refine List.nodup_append.mpr ⟨h, List.nodup_singleton _, fun k hk k' hk' same => ?_⟩
    exact absent (List.mem_singleton.mp hk' ▸ same ▸ hk)

end

namespace Frame

/-- What stays the same of a frame once it was made. -/
def fixed (frame : Frame) : Frame := { frame with knownStates := [], proxies := [] }

variable {frame frame' : Frame}

theorem ancestors_eq (h : frame.fixed = frame'.fixed) : frame.ancestors = frame'.ancestors := by
  have same : frame.fixed.ancestors = frame'.fixed.ancestors := congrArg _ h
  exact same

theorem finalizeState_eq (h : frame.fixed = frame'.fixed) :
    frame.finalizeState = frame'.finalizeState := by
  have same : frame.fixed.finalizeState = frame'.fixed.finalizeState := congrArg _ h
  exact same

theorem handler_eq (h : frame.fixed = frame'.fixed) : frame.handler? = frame'.handler? := by
  have same : frame.fixed.handler? = frame'.fixed.handler? := congrArg _ h
  exact same

theorem definedLabels_eq (h : frame.fixed = frame'.fixed) :
    frame.definedLabels = frame'.definedLabels := by
  have same : frame.fixed.definedLabels = frame'.fixed.definedLabels := congrArg _ h
  exact same

end Frame

namespace FrameTree

variable {tree : FrameTree} {id f : FrameId} {state other : Int}

/-- The child of `f` that a state lies under. -/
def known (tree : FrameTree) (f : FrameId) (state : Int) : Option FrameId :=
  (tree.frame f).knownStates.lookup state

@[simp] theorem length_modify (tree : FrameTree) (id : FrameId) (g : Frame → Frame) :
    (tree.modify id g).frames.length = tree.frames.length :=
  List.length_modify ..

theorem frame_modify_of_ne (g : Frame → Frame) (other : f ≠ id) :
    (tree.modify id g).frame f = tree.frame f := by
  have apart : id.index ≠ f.index := by
    intro same
    obtain ⟨_⟩ := f
    obtain ⟨_⟩ := id
    exact other (congrArg FrameId.mk same.symm)
  unfold modify frame
  dsimp only
  rw [List.getD_eq_getElem?_getD, List.getD_eq_getElem?_getD, List.getElem?_modify_ne _ _ apart]

theorem frame_modify_self (g : Frame → Frame) (room : id.index < tree.frames.length) :
    (tree.modify id g).frame id = g (tree.frame id) := by
  unfold modify frame
  dsimp only
  rw [List.getD_eq_getElem?_getD, List.getD_eq_getElem?_getD, List.getElem?_modify_eq,
    List.getElem?_eq_getElem room]
  rfl

theorem frame_modify_of_le (g : Frame → Frame) (small : tree.frames.length ≤ id.index) :
    (tree.modify id g).frame f = tree.frame f := by
  by_cases same : f = id
  · subst same
    unfold modify frame
    rw [List.getD_eq_getElem?_getD, List.getD_eq_getElem?_getD,
      List.getElem?_eq_none (by simpa using small), List.getElem?_eq_none small]
  · exact frame_modify_of_ne g same

/-- A change that keeps something of each frame keeps it of all frames. -/
theorem frame_modify_keeps {γ : Type} (part : Frame → γ) {g : Frame → Frame}
    (keeps : ∀ frame, part (g frame) = part frame) :
    part ((tree.modify id g).frame f) = part (tree.frame f) := by
  by_cases same : f = id
  · subst same
    rcases Nat.lt_or_ge f.index tree.frames.length with room | small
    · rw [frame_modify_self g room, keeps]
    · rw [frame_modify_of_le g small]
  · rw [frame_modify_of_ne g same]

/-- Tells each frame of a path but the first under which child a state lies. -/
def tell (state : Int) (tree : FrameTree) : List FrameId → FrameTree
  | child :: parent :: rest =>
    tell state
      (tree.modify parent fun f => { f with knownStates := insertPair state child f.knownStates })
      (parent :: rest)
  | _ => tree

theorem addState_eq : tree.addState id state = tell state tree (id :: (tree.frame id).ancestors) := by
  have along : ∀ (path : List FrameId) (tree : FrameTree),
      (path.zip path.tail).foldl
        (fun tree edge =>
          tree.modify edge.2 fun f =>
            { f with knownStates := insertPair state edge.1 f.knownStates }) tree =
        tell state tree path := by
    intro path
    induction path with
    | nil => exact fun tree => rfl
    | cons child path ih =>
      intro tree
      cases path with
      | nil => rfl
      | cons parent rest => exact ih _
  exact along _ tree

section

variable {path : List FrameId}

theorem length_tell (tree : FrameTree) (path : List FrameId) :
    (tell state tree path).frames.length = tree.frames.length := by
  induction path generalizing tree with
  | nil => rfl
  | cons child path ih =>
    cases path with
    | nil => rfl
    | cons parent rest => exact (ih _).trans (length_modify _ _ _)

theorem frame_tell_keeps {γ : Type} (part : Frame → γ)
    (keeps : ∀ frame states, part { frame with knownStates := states } = part frame)
    (tree : FrameTree) (path : List FrameId) :
    part ((tell state tree path).frame f) = part (tree.frame f) := by
  induction path generalizing tree with
  | nil => rfl
  | cons child path ih =>
    cases path with
    | nil => rfl
    | cons parent rest => exact (ih _).trans (frame_modify_keeps part fun _ => keeps _ _)

/-- Only the frames that have a child on the path learn something. -/
theorem frame_tell_of_notMem (tree : FrameTree) (away : f ∉ path.tail) :
    (tell state tree path).frame f = tree.frame f := by
  induction path generalizing tree with
  | nil => rfl
  | cons child path ih =>
    cases path with
    | nil => rfl
    | cons parent rest =>
      obtain ⟨other, away⟩ := not_or.mp (mt List.mem_cons.mpr away)
      exact (ih _ away).trans (frame_modify_of_ne _ other)

theorem known_tell_of_ne (tree : FrameTree) (h : other ≠ state) :
    (tell state tree path).known f other = tree.known f other := by
  induction path generalizing tree with
  | nil => rfl
  | cons child path ih =>
    cases path with
    | nil => rfl
    | cons parent rest =>
      refine (ih _).trans (frame_modify_keeps (fun frame => frame.knownStates.lookup other) ?_)
      intro frame
      dsimp only
      rw [lookup_insertPair, if_neg h]

/-- The frames on a path lead along it. -/
theorem known_tell {before rest : List FrameId} {child parent : FrameId} (tree : FrameTree)
    (unique : (before ++ child :: parent :: rest).Nodup)
    (room : parent.index < tree.frames.length) :
    (tell state tree (before ++ child :: parent :: rest)).known parent state = some child := by
  induction before generalizing tree with
  | nil =>
    have away : parent ∉ rest := by
      rw [List.nil_append, List.nodup_cons, List.nodup_cons] at unique
      exact unique.2.1
    unfold known
    rw [List.nil_append, tell, frame_tell_of_notMem _ away, frame_modify_self _ room]
    dsimp only
    rw [lookup_insertPair, if_pos rfl]
  | cons first before ih =>
    have shorter : (before ++ child :: parent :: rest).Nodup := (List.nodup_cons.mp unique).2
    cases before with
    | nil => exact ih _ shorter (by rwa [length_modify])
    | cons second before => exact ih _ shorter (by rwa [length_modify])

/-- What a frame knows, it knew before or it was told of the state. -/
theorem known_tell_cases {child : FrameId} (tree : FrameTree)
    (h : (tell state tree path).known f other = some child) :
    tree.known f other = some child ∨
      other = state ∧ ∃ before rest, path = before ++ child :: f :: rest := by
  induction path generalizing tree with
  | nil => exact .inl h
  | cons first path ih =>
    cases path with
    | nil => exact .inl h
    | cons parent rest =>
      rcases ih _ h with earlier | ⟨same, before, later, split⟩
      · by_cases here : f = parent
        · subst here
          unfold known at earlier
          rcases Nat.lt_or_ge f.index tree.frames.length with room | small
          · rw [frame_modify_self _ room] at earlier
            dsimp only at earlier
            rw [lookup_insertPair] at earlier
            split at earlier
            next same =>
              cases earlier
              exact .inr ⟨same, [], rest, rfl⟩
            next => exact .inl earlier
          · rw [frame_modify_of_le _ small] at earlier
            exact .inl earlier
        · unfold known at earlier
          rw [frame_modify_of_ne _ here] at earlier
          exact .inl earlier
      · exact .inr ⟨same, first :: before, later, by rw [split]; rfl⟩

theorem nodup_tell (tree : FrameTree) (h : ((tree.frame f).knownStates.map (·.1)).Nodup) :
    (((tell state tree path).frame f).knownStates.map (·.1)).Nodup := by
  induction path generalizing tree with
  | nil => exact h
  | cons first path ih =>
    cases path with
    | nil => exact h
    | cons parent rest =>
      refine ih _ ?_
      by_cases here : f = parent
      · subst here
        rcases Nat.lt_or_ge f.index tree.frames.length with room | small
        · rw [frame_modify_self _ room]
          exact nodup_insertPair h
        · rwa [frame_modify_of_le _ small]
      · rwa [frame_modify_of_ne _ here]

end

/-- The frame at a path, whose innermost frame comes first; frames after the root are numbered from
zero. -/
def frameOf (path : List Nat) : FrameId := path.head?.elim root fun g => ⟨g + 1⟩

/-- The frame at a path and the frames around it. -/
def framesOf (path : List Nat) : List FrameId := path.map (fun g => ⟨g + 1⟩) ++ [root]

theorem frameOf_cons (g : Nat) (path : List Nat) : frameOf (g :: path) = ⟨g + 1⟩ := rfl

theorem framesOf_eq_cons (path : List Nat) : ∃ rest, framesOf path = frameOf path :: rest := by
  cases path with
  | nil => exact ⟨[], rfl⟩
  | cons g path => exact ⟨framesOf path, rfl⟩

/-- The frames of a path lie one in the other. -/
inductive Lies (tree : FrameTree) : List Nat → Prop
  | root (outermost : (tree.frame root).ancestors = []) (room : 0 < tree.frames.length) :
    Lies tree []
  | frame {g : Nat} {path : List Nat} (around : Lies tree path)
    (inner : (tree.frame ⟨g + 1⟩).ancestors = framesOf path) (room : g + 1 < tree.frames.length)
    (later : ∀ g' ∈ path, g' < g) : Lies tree (g :: path)

namespace Lies

variable {tree' : FrameTree} {path : List Nat}

theorem chain (h : Lies tree path) :
    frameOf path :: (tree.frame (frameOf path)).ancestors = framesOf path := by
  cases h with
  | root outermost => exact congrArg (FrameTree.root :: ·) outermost
  | frame around inner => exact congrArg (_ :: ·) inner

theorem ancestors (h : Lies tree path) :
    (tree.frame (frameOf path)).ancestors = (framesOf path).tail :=
  congrArg List.tail h.chain

theorem isEmpty (h : Lies tree path) :
    (tree.frame (frameOf path)).ancestors.isEmpty = path.isEmpty := by
  rw [h.ancestors]
  cases path with
  | nil => rfl
  | cons g path =>
    obtain ⟨rest, split⟩ := framesOf_eq_cons path
    change (framesOf path).isEmpty = false
    rw [split]
    rfl

theorem drop {inner outer : List Nat} (h : Lies tree (inner ++ outer)) : Lies tree outer := by
  induction inner with
  | nil => exact h
  | cons g inner ih =>
    cases h with
    | frame around => exact ih around

theorem room (h : Lies tree path) : (frameOf path).index < tree.frames.length := by
  cases h with
  | root _ room => exact room
  | frame _ _ room => exact room

theorem nodup (h : Lies tree path) : (framesOf path).Nodup := by
  induction h with
  | root => exact List.nodup_singleton _
  | frame around inner room later ih =>
    refine List.nodup_cons.mpr ⟨fun mem => ?_, ih⟩
    rcases List.mem_append.mp mem with mem | mem
    · obtain ⟨g', hg', same⟩ := List.mem_map.mp mem
      have less := later g' hg'
      cases same
      exact absurd less (Nat.lt_irrefl _)
    · cases List.mem_singleton.mp mem

theorem mono (h : Lies tree path) (length : tree.frames.length ≤ tree'.frames.length)
    (same : ∀ f : FrameId, f.index < tree.frames.length →
      (tree'.frame f).ancestors = (tree.frame f).ancestors) : Lies tree' path := by
  induction h with
  | root outermost room => exact .root ((same FrameTree.root room).trans outermost) (by omega)
  | frame around inner room later ih => exact .frame ih ((same _ room).trans inner) (by omega) later

theorem mem_room (h : Lies tree path) : ∀ g ∈ path, g + 1 < tree.frames.length := by
  induction h with
  | root => exact fun _ hg => absurd hg List.not_mem_nil
  | frame around inner room later ih =>
    intro g hg
    rcases List.mem_cons.mp hg with rfl | hg
    · exact room
    · exact ih g hg

/-- A frame is at one path only. -/
theorem unique {path' : List Nat} (h : Lies tree path) (h' : Lies tree path')
    (same : frameOf path = frameOf path') : path = path' := by
  have chains : framesOf path = framesOf path' := by rw [← h.chain, ← h'.chain, same]
  have maps := List.append_cancel_right chains
  exact List.map_injective_iff.mpr (fun a b hab => by cases hab; rfl) maps

end Lies

theorem framesOf_split {path : List Nat} {before rest : List FrameId} {child parent : FrameId}
    (h : framesOf path = before ++ child :: parent :: rest) :
    ∃ inner g outer, path = inner ++ g :: outer ∧ child = ⟨g + 1⟩ ∧ parent = frameOf outer := by
  induction path generalizing before with
  | nil =>
    have lengths := congrArg List.length h
    simp [framesOf] at lengths
    omega
  | cons g path ih =>
    cases before with
    | nil =>
      obtain ⟨after, split⟩ := framesOf_eq_cons path
      have whole : (⟨g + 1⟩ : FrameId) :: framesOf path = child :: parent :: rest := h
      rw [split] at whole
      cases whole
      exact ⟨[], g, path, rfl, rfl, rfl⟩
    | cons first before =>
      have shorter : framesOf path = before ++ child :: parent :: rest := List.tail_eq_of_cons_eq h
      obtain ⟨inner, g', outer, split, hc, hp⟩ := ih shorter
      exact ⟨g :: inner, g', outer, by rw [split]; rfl, hc, hp⟩

/-- From `f`, the known states lead along the frames of a path to a state, the outermost of them
first. -/
def Leads (tree : FrameTree) (state : Int) : FrameId → List Nat → Prop
  | f, [] => tree.known f state = none
  | f, g :: inner => tree.known f state = some ⟨g + 1⟩ ∧ tree.Leads state ⟨g + 1⟩ inner

/-- From the root, the known states lead along a path to a state. -/
def Covers (tree : FrameTree) (state : Int) (path : List Nat) : Prop :=
  tree.Leads state root path.reverse

theorem Leads.congr {tree' : FrameTree} {path : List Nat} (h : tree.Leads state f path)
    (same : ∀ f, tree'.known f state = tree.known f state) : tree'.Leads state f path := by
  induction path generalizing f with
  | nil => exact (same f).trans h
  | cons g path ih => exact ⟨(same f).trans h.1, ih h.2⟩

/-- A state that the frames along a path are told of lies under that path. -/
theorem covers_tell {path : List Nat} (lies : tree.Lies path)
    (new : ∀ f, tree.known f state = none) : (tree.tell state (framesOf path)).Covers state path := by
  have unique := lies.nodup
  have leads : ∀ (above : List Nat) {inner outer : List Nat}, above = inner.reverse →
      path = inner ++ outer →
      (tree.tell state (framesOf path)).Leads state (frameOf outer) above := by
    intro above
    induction above with
    | nil =>
      intro inner outer none split
      obtain rfl : inner = [] := by simpa using none.symm
      obtain rfl : path = outer := split
      obtain ⟨rest, chain⟩ := framesOf_eq_cons path
      have away : frameOf path ∉ (framesOf path).tail := by
        rw [chain] at unique ⊢
        exact (List.nodup_cons.mp unique).1
      exact (congrArg (fun frame => frame.knownStates.lookup state)
        (frame_tell_of_notMem tree away)).trans (new _)
    | cons g above ih =>
      intro inner outer turned split
      obtain rfl : inner = above.reverse ++ [g] := by
        rw [← List.reverse_cons, turned, List.reverse_reverse]
      rw [List.append_assoc, List.singleton_append] at split
      refine ⟨?_, ih (List.reverse_reverse _).symm split⟩
      obtain ⟨rest, chain⟩ := framesOf_eq_cons outer
      have whole : framesOf path =
          above.reverse.map (fun g => ⟨g + 1⟩) ++ ⟨g + 1⟩ :: frameOf outer :: rest := by
        rw [split, ← chain]
        unfold framesOf
        rw [List.map_append, List.append_assoc]
        rfl
      have room : (frameOf outer).index < tree.frames.length := by
        have inside : tree.Lies ((above.reverse ++ [g]) ++ outer) := by
          rw [List.append_assoc, List.singleton_append, ← split]
          exact lies
        exact inside.drop.room
      rw [whole] at unique ⊢
      exact known_tell tree unique room
  exact leads path.reverse rfl (List.append_nil path).symm

/-- Frames that nest, and know the states below them among those that are in use. -/
structure Nested (used : Int → Prop) (tree : FrameTree) : Prop where
  root : (tree.frame root).fixed = {}
  paths : ∀ f : FrameId, f.index < tree.frames.length → ∃ path, f = frameOf path ∧ tree.Lies path
  known : ∀ f state child, tree.known f state = some child →
    used state ∧ ∃ g path, child = ⟨g + 1⟩ ∧ f = frameOf path ∧ tree.Lies (g :: path)
  unique : ∀ f, ((tree.frame f).knownStates.map (·.1)).Nodup

namespace Nested

variable {used used' : Int → Prop} {path : List Nat}

/-- A change of other things in the frames. -/
theorem of_same {tree' : FrameTree} (h : Nested used tree)
    (length : tree'.frames.length = tree.frames.length)
    (fixed : ∀ f, (tree'.frame f).fixed = (tree.frame f).fixed)
    (states : ∀ f, (tree'.frame f).knownStates = (tree.frame f).knownStates)
    (more : ∀ s, used s → used' s) : Nested used' tree' where
  root := (fixed _).trans h.root
  paths f room := by
    obtain ⟨path, same, lies⟩ := h.paths f (length ▸ room)
    exact ⟨path, same, lies.mono (Nat.le_of_eq length.symm) fun f _ =>
      Frame.ancestors_eq (fixed f)⟩
  known f state child found := by
    unfold FrameTree.known at found
    rw [states] at found
    obtain ⟨u, g, path, hc, hf, lies⟩ := h.known f state child found
    exact ⟨more _ u, g, path, hc, hf, lies.mono (Nat.le_of_eq length.symm) fun f _ =>
      Frame.ancestors_eq (fixed f)⟩
  unique f := by
    rw [states]
    exact h.unique f

theorem fixed_tell (tree : FrameTree) (path : List FrameId) :
    ((tell state tree path).frame f).fixed = (tree.frame f).fixed :=
  frame_tell_keeps Frame.fixed (fun _ _ => rfl) tree path

theorem lies_tell {inner : List Nat} {path : List FrameId} (h : tree.Lies inner) :
    (tell state tree path).Lies inner :=
  h.mono (Nat.le_of_eq (length_tell _ _).symm) fun _ _ =>
    Frame.ancestors_eq (fixed_tell _ _)

theorem tells (h : Nested used tree) (lies : tree.Lies path) (more : ∀ s, used s → used' s)
    (now : used' state) : Nested used' (tell state tree (framesOf path)) where
  root := (fixed_tell _ _).trans h.root
  paths f room := by
    rw [length_tell] at room
    obtain ⟨path', same, lies'⟩ := h.paths f room
    exact ⟨path', same, lies_tell lies'⟩
  known f other child found := by
    rcases known_tell_cases tree found with before | ⟨rfl, before, rest, split⟩
    · obtain ⟨u, g, path', hc, hf, lies'⟩ := h.known f other child before
      exact ⟨more _ u, g, path', hc, hf, lies_tell lies'⟩
    · obtain ⟨inner, g, outer, rfl, hc, hf⟩ := framesOf_split split
      exact ⟨now, g, outer, hc, hf, lies_tell lies.drop⟩
  unique f := nodup_tell tree (h.unique f)

end Nested

/-! New frames. -/

def append (tree : FrameTree) (frame : Frame) : FrameTree := { frames := tree.frames ++ [frame] }

variable {frame : Frame}

theorem frame_of_le (small : tree.frames.length ≤ f.index) : tree.frame f = default := by
  unfold FrameTree.frame
  rw [List.getD_eq_getElem?_getD, List.getElem?_eq_none small]
  rfl

theorem frame_append_self : (tree.append frame).frame ⟨tree.frames.length⟩ = frame := by
  unfold append FrameTree.frame
  rw [List.getD_eq_getElem?_getD, List.getElem?_concat_length]
  rfl

theorem frame_append_of_eq (last : f.index = tree.frames.length) :
    (tree.append frame).frame f = frame := by
  obtain rfl : f = ⟨tree.frames.length⟩ := by
    cases f
    exact congrArg FrameId.mk last
  exact frame_append_self

theorem frame_append_of_ne (other : f.index ≠ tree.frames.length) :
    (tree.append frame).frame f = tree.frame f := by
  rcases Nat.lt_or_gt_of_ne other with room | beyond
  · unfold append FrameTree.frame
    dsimp only
    rw [List.getD_eq_getElem?_getD, List.getD_eq_getElem?_getD, List.getElem?_append_left room]
  · rw [frame_of_le (Nat.le_of_lt beyond), frame_of_le]
    change (tree.frames ++ [frame]).length ≤ _
    rw [List.length_append]
    exact beyond

/-- A frame that was added without known states changes nothing in what is known. -/
theorem known_append (new : frame.knownStates = []) (state : Int) :
    (tree.append frame).known f state = tree.known f state := by
  unfold known
  by_cases last : f.index = tree.frames.length
  · rw [frame_append_of_eq last, new, frame_of_le (Nat.le_of_eq last.symm)]
    rfl
  · rw [frame_append_of_ne last]

section

variable {used : Int → Prop} {path : List Nat} {g : Nat}

theorem Lies.of_append (h : tree.Lies path) : (tree.append frame).Lies path := by
  refine h.mono ?_ fun f room => congrArg Frame.ancestors (frame_append_of_ne (Nat.ne_of_lt room))
  change _ ≤ (tree.frames ++ [frame]).length
  rw [List.length_append]
  exact Nat.le_add_right _ _

theorem Lies.append (h : tree.Lies path) (count : tree.frames.length = g + 1)
    (inner : frame.ancestors = framesOf path) : (tree.append frame).Lies (g :: path) := by
  refine .frame h.of_append ?_ ?_ fun g' hg' => ?_
  · rw [frame_append_of_eq count.symm, inner]
  · change _ < (tree.frames ++ [frame]).length
    rw [List.length_append, count]
    exact Nat.lt_succ_self _
  · have room := h.mem_room g' hg'
    omega

theorem Nested.append (h : Nested used tree) (lies : tree.Lies path)
    (count : tree.frames.length = g + 1) (inner : frame.ancestors = framesOf path)
    (new : frame.knownStates = []) : Nested used (tree.append frame) where
  root := by
    rw [frame_append_of_ne (by change 0 ≠ _; omega)]
    exact h.root
  paths f room := by
    change f.index < (tree.frames ++ [frame]).length at room
    rw [List.length_append] at room
    by_cases last : f.index = tree.frames.length
    · refine ⟨g :: path, ?_, lies.append count inner⟩
      cases f
      exact congrArg FrameId.mk (last.trans count)
    · obtain ⟨path', same, lies'⟩ := h.paths f (by simp only [List.length_singleton] at room; omega)
      exact ⟨path', same, lies'.of_append⟩
  known f s child found := by
    rw [known_append new] at found
    obtain ⟨u, g', path', hc, hf, lies'⟩ := h.known f s child found
    exact ⟨u, g', path', hc, hf, lies'.of_append⟩
  unique f := by
    by_cases last : f.index = tree.frames.length
    · rw [frame_append_of_eq last, new]
      exact List.nodup_nil
    · rw [frame_append_of_ne last]
      exact h.unique f

end

end FrameTree

end ManagedCode
