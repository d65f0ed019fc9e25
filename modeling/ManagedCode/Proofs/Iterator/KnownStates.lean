import Mathlib.Data.List.Nodup
import Mathlib.Logic.Relation
import ManagedCode.Proofs.Iterator.BuiltFrames
import ManagedCode.Proofs.Iterator.DisposeCode

namespace ManagedCode

namespace FrameTree

/-! The states that a frame knows are those of the frames beneath it. -/

variable {tree : FrameTree} {states : List (Int × FrameId)} {path : List Nat} {f c : FrameId}
  {s : Int}

/-- The frame that a frame lies directly in; the root lies in none. -/
def parent? (tree : FrameTree) (f : FrameId) : Option FrameId := (tree.frame f).ancestors.head?

/-- The second frame lies directly in the first one. -/
def IsChild (tree : FrameTree) (f c : FrameId) : Prop := tree.parent? c = some f

/-- The second frame is the first one or lies in it at any depth. -/
def IsAround (tree : FrameTree) : FrameId → FrameId → Prop := Relation.ReflTransGen tree.IsChild

/-- The second frame lies in the first one at any depth. -/
def IsAncestor (tree : FrameTree) : FrameId → FrameId → Prop := Relation.TransGen tree.IsChild

theorem Lies.parent?_root (lies : tree.Lies []) : tree.parent? FrameTree.root = none := by
  have none : (tree.frame FrameTree.root).ancestors = [] := lies.ancestors
  unfold parent?
  rw [none]
  rfl

theorem Lies.parent?_cons {g : Nat} (lies : tree.Lies (g :: path)) :
    tree.parent? ⟨g + 1⟩ = some (frameOf path) := by
  cases lies with
  | frame around inner =>
    obtain ⟨rest, chain⟩ := framesOf_eq_cons path
    unfold parent?
    rw [inner, chain]
    rfl

/-- A child is one frame further along a path. -/
theorem Nested.isChild_iff {used : Int → Prop} (nested : tree.Nested used) :
    tree.IsChild f c ↔ ∃ g path, c = ⟨g + 1⟩ ∧ f = frameOf path ∧ tree.Lies (g :: path) := by
  constructor
  · intro h
    rcases Nat.lt_or_ge c.index tree.frames.length with room | beyond
    · obtain ⟨path, rfl, lies⟩ := nested.paths c room
      cases path with
      | nil =>
        have none := lies.parent?_root
        have some : tree.parent? FrameTree.root = some f := h
        rw [none] at some
        cases some
      | cons g path =>
        have found : tree.parent? ⟨g + 1⟩ = some f := h
        rw [lies.parent?_cons] at found
        cases found
        exact ⟨g, path, rfl, rfl, lies⟩
    · have none : tree.parent? c = none := by
        unfold parent?
        rw [frame_of_le beyond]
        rfl
      have some : tree.parent? c = some f := h
      rw [none] at some
      cases some
  · rintro ⟨g, path, rfl, rfl, lies⟩
    exact lies.parent?_cons

/-- The frames around a frame are those at the ends of its path. -/
theorem Lies.isAround_iff (lies : tree.Lies path) :
    tree.IsAround f (frameOf path) ↔ ∃ inner outer, path = inner ++ outer ∧ f = frameOf outer := by
  induction path with
  | nil =>
    constructor
    · intro h
      rcases Relation.ReflTransGen.cases_tail h with same | ⟨b, -, last⟩
      · exact ⟨[], [], rfl, same.symm⟩
      · have some : tree.parent? FrameTree.root = some b := last
        rw [lies.parent?_root] at some
        cases some
    · rintro ⟨inner, outer, split, rfl⟩
      obtain ⟨-, rfl⟩ := List.append_eq_nil_iff.mp split.symm
      exact .refl
  | cons g path ih =>
    have around : tree.Lies path := by
      cases lies with
      | frame around => exact around
    constructor
    · intro h
      rcases Relation.ReflTransGen.cases_tail h with same | ⟨b, before, last⟩
      · exact ⟨[], g :: path, rfl, same.symm⟩
      · have found : tree.parent? ⟨g + 1⟩ = some b := last
        rw [lies.parent?_cons] at found
        cases found
        obtain ⟨inner, outer, rfl, rfl⟩ := (ih around).mp before
        exact ⟨g :: inner, outer, rfl, rfl⟩
    · rintro ⟨inner, outer, split, rfl⟩
      cases inner with
      | nil =>
        obtain rfl : g :: path = outer := split
        exact .refl
      | cons g' inner =>
        obtain ⟨rfl, rfl⟩ := List.cons_eq_cons.mp split
        have before := (ih around).mpr ⟨inner, outer, rfl, rfl⟩
        exact before.tail lies.parent?_cons

/-- From the root a state leads through every frame of its path. -/
theorem Leads.known {outer above rest : List Nat} {g : Nat}
    (h : tree.Leads s (frameOf outer) (above ++ g :: rest)) :
    tree.known (frameOf (above.reverse ++ outer)) s = some ⟨g + 1⟩ := by
  induction above generalizing outer with
  | nil => exact h.1
  | cons a above ih =>
    have next : tree.known (frameOf (above.reverse ++ a :: outer)) s = some ⟨g + 1⟩ := ih h.2
    rw [List.reverse_cons, List.append_assoc]
    exact next

theorem Covers.known {inner outer : List Nat} {g : Nat}
    (h : tree.Covers s (inner ++ g :: outer)) : tree.known (frameOf outer) s = some ⟨g + 1⟩ := by
  unfold Covers at h
  rw [List.reverse_append, List.reverse_cons, List.append_assoc] at h
  have start : tree.Leads s (frameOf []) (outer.reverse ++ g :: inner.reverse) := h
  have found := start.known
  rwa [List.reverse_reverse, List.append_nil] at found

/-- What the frames along a path know comes from a frame at the end of the path. -/
def Learned (states : List (Int × FrameId)) (tree : FrameTree) : Prop :=
  ∀ f s c, tree.known f s = some c → ∃ inner g outer, f = frameOf outer ∧ c = ⟨g + 1⟩ ∧
    tree.Lies (inner ++ g :: outer) ∧ (s, frameOf (inner ++ g :: outer)) ∈ states

theorem Learned.tells (h : Learned states tree) (lies : tree.Lies path) :
    Learned ((s, frameOf path) :: states) (tree.tell s (framesOf path)) := by
  intro f s' c found
  rcases known_tell_cases tree found with before | ⟨rfl, before, rest, split⟩
  · obtain ⟨inner, g, outer, hf, hc, lies', mem⟩ := h f s' c before
    exact ⟨inner, g, outer, hf, hc, Nested.lies_tell lies', List.mem_cons_of_mem _ mem⟩
  · obtain ⟨inner, g, outer, whole, hc, hf⟩ := framesOf_split split
    rw [whole] at lies ⊢
    exact ⟨inner, g, outer, hf, hc, Nested.lies_tell lies, List.mem_cons_self⟩

theorem Learned.append (h : Learned states tree) {frame : Frame} (new : frame.knownStates = []) :
    Learned states (tree.append frame) := by
  intro f s c found
  rw [known_append new] at found
  obtain ⟨inner, g, outer, hf, hc, lies, mem⟩ := h f s c found
  exact ⟨inner, g, outer, hf, hc, lies.of_append, mem⟩

namespace Built

theorem exists_path (built : Built states tree) (room : f.index < tree.frames.length) :
    ∃ path g, f = frameOf path ∧ tree.Lies path ∧ tree.frames.length = g + 1 := by
  obtain ⟨path, same, lies⟩ := built.housed.nested.paths f room
  have some : tree.frames.length = tree.frames.length - 1 + 1 := by omega
  exact ⟨path, _, same, lies, some⟩

theorem learned (built : Built states tree) : Learned states tree := by
  induction built with
  | root =>
    intro f s c found
    obtain ⟨i⟩ := f
    cases i <;> cases found
  | push built inside new handler definedLabels ih =>
    obtain ⟨path, g, rfl, lies, count⟩ := built.exists_path inside
    rw [push_eq lies count]
    exact (ih.append rfl).tells (lies.append count rfl)
  | addState built inside new ih =>
    obtain ⟨path, -, rfl, lies, -⟩ := built.exists_path inside
    rw [Lowering.addState_eq_tell lies]
    exact ih.tells lies

/-- Every frame but the root has made its finalize state known. -/
theorem announced (built : Built states tree) (below : 0 < f.index)
    (room : f.index < tree.frames.length) : ((tree.frame f).finalizeState, f) ∈ states := by
  induction built with
  | root => exact absurd room (Nat.not_lt.mpr below)
  | @push states tree parent state built inside new handler definedLabels ih =>
    obtain ⟨path, g, rfl, lies, count⟩ := built.exists_path inside
    rw [push_eq lies count] at room ⊢
    rw [length_tell] at room
    rw [Frame.finalizeState_eq (Nested.fixed_tell _ _)]
    by_cases last : f.index = tree.frames.length
    · rw [frame_append_of_eq last]
      obtain rfl : f = ⟨_ + 1⟩ := congrArg FrameId.mk (last.trans count)
      exact List.mem_cons_self
    · rw [frame_append_of_ne last]
      change f.index < (tree.frames ++ [_]).length at room
      rw [List.length_append, List.length_singleton] at room
      exact List.mem_cons_of_mem _ (ih (by omega))
  | addState built inside new ih =>
    obtain ⟨path, -, rfl, lies, -⟩ := built.exists_path inside
    rw [Lowering.addState_eq_tell lies] at room ⊢
    rw [length_tell] at room
    rw [Frame.finalizeState_eq (Nested.fixed_tell _ _)]
    exact List.mem_cons_of_mem _ (ih room)

theorem distinct (built : Built states tree) : (states.map (·.1)).Nodup := by
  induction built with
  | root => exact List.nodup_nil
  | push built inside new handler definedLabels ih => exact List.nodup_cons.mpr ⟨new, ih⟩
  | addState built inside new ih => exact List.nodup_cons.mpr ⟨new, ih⟩

theorem frame_unique {g g' : FrameId} (built : Built states tree) (h : (s, g) ∈ states)
    (h' : (s, g') ∈ states) : g = g' :=
  congrArg Prod.snd (List.inj_on_of_nodup_map built.distinct h h' rfl)

/-- A state of a frame beneath another one is known there. -/
theorem known_of_mem {g : FrameId} (built : Built states tree) (child : tree.IsChild f c)
    (around : tree.IsAround c g) (mem : (s, g) ∈ states) : tree.known f s = some c := by
  obtain ⟨path, rfl, lies, covers⟩ := built.housed.home s g mem
  obtain ⟨inner, outer, rfl, rfl⟩ := lies.isAround_iff.mp around
  obtain ⟨k, path', same, rfl, lies'⟩ := built.housed.nested.isChild_iff.mp child
  obtain rfl : outer = k :: path' := lies.drop.unique lies' same
  rw [same]
  exact covers.known

/-- The finalize state of a frame that lies in another one. -/
theorem finalizes {g : FrameId} (built : Built states tree) (inside : tree.IsAncestor f g) :
    ((tree.frame g).finalizeState, g) ∈ states := by
  obtain ⟨b, -, last⟩ := Relation.TransGen.tail'_iff.mp inside
  obtain ⟨k, path, rfl, -, lies⟩ := built.housed.nested.isChild_iff.mp last
  exact built.announced (Nat.succ_pos k) lies.room

theorem known_iff (built : Built states tree) : tree.known f s = some c ↔
    tree.IsChild f c ∧ ∃ g, tree.IsAround c g ∧
      (s = (tree.frame g).finalizeState ∨ (s, g) ∈ states) := by
  constructor
  · intro found
    obtain ⟨inner, k, outer, rfl, rfl, lies, mem⟩ := built.learned f s c found
    have child : tree.IsChild (frameOf outer) ⟨k + 1⟩ := lies.drop.parent?_cons
    exact ⟨child, _, lies.isAround_iff.mpr ⟨inner, k :: outer, rfl, rfl⟩, .inr mem⟩
  · rintro ⟨child, g, around, rfl | mem⟩
    · exact built.known_of_mem child around (built.finalizes (.head' child around))
    · exact built.known_of_mem child around mem

/-- A state is known to the frames that its own frame lies in. -/
theorem knows_iff {g : FrameId} (built : Built states tree) (mem : (s, g) ∈ states) :
    (∃ c, tree.known f s = some c) ↔ tree.IsAncestor f g := by
  constructor
  · rintro ⟨c, found⟩
    obtain ⟨inner, k, outer, rfl, rfl, lies, mem'⟩ := built.learned f s c found
    rw [built.frame_unique mem mem']
    have child : tree.IsChild (frameOf outer) ⟨k + 1⟩ := lies.drop.parent?_cons
    exact .head' child (lies.isAround_iff.mpr ⟨inner, k :: outer, rfl, rfl⟩)
  · intro inside
    obtain ⟨c, child, around⟩ := Relation.TransGen.head'_iff.mp inside
    exact ⟨c, built.known_of_mem child around mem⟩

end Built

/-! The children of a frame, each with the states under it. -/

theorem perm_insertPair {α : Type} [DecidableEq α] (a : α) (s : Int)
    (groups : List (α × List Int)) :
    ((insertPair a ((groups.lookup a).getD [] ++ [s]) groups).flatMap (·.2)).Perm
      (groups.flatMap (·.2) ++ [s]) := by
  induction groups with
  | nil => exact .refl _
  | cons group groups ih =>
    obtain ⟨k, states⟩ := group
    by_cases here : k = a
    · subst here
      have found : ((k, states) :: groups).lookup k = some states := by simp
      rw [found, insertPair, if_pos rfl]
      simp only [Option.getD_some, List.flatMap_cons, List.append_assoc]
      exact List.perm_append_comm.append_left states
    · have later : ((k, states) :: groups).lookup a = groups.lookup a := by
        rw [List.lookup_cons, beq_false_of_ne (Ne.symm here)]
      rw [later, insertPair, if_neg here, List.flatMap_cons, List.flatMap_cons, List.append_assoc]
      exact ih.append_left states

/-- Sorting states into groups neither drops nor adds one. -/
theorem perm_groups {α : Type} [DecidableEq α] (pairs : List (Int × α))
    (groups : List (α × List Int)) :
    let sorted := pairs.foldl (fun groups (state, child) =>
      insertPair child ((groups.lookup child).getD [] ++ [state]) groups) groups
    (sorted.flatMap (·.2)).Perm (groups.flatMap (·.2) ++ pairs.map (·.1)) := by
  induction pairs generalizing groups with
  | nil =>
    rw [List.map_nil, List.append_nil]
    exact .refl _
  | cons pair pairs ih =>
    obtain ⟨s, a⟩ := pair
    rw [List.map_cons, List.append_cons]
    exact (ih _).trans ((perm_insertPair a s groups).append_right _)

/-- The groups are the children of a frame, each with the known states that lie under it. -/
structure ListsChildren (tree : FrameTree) (f : FrameId) (groups : List (FrameId × List Int)) :
    Prop where
  once : (groups.map (·.1)).Nodup
  children : ∀ c, c ∈ groups.map (·.1) ↔ tree.IsChild f c
  some : ∀ group ∈ groups, group.2 ≠ []
  apart : groups.Pairwise fun group other => group.2.Disjoint other.2
  under : ∀ group ∈ groups, ∀ s, s ∈ group.2 ↔ tree.known f s = Option.some group.1
  all : (groups.flatMap (·.2)).Perm ((tree.frame f).knownStates.map (·.1))

theorem mem_knownStates_iff {used : Int → Prop} (nested : tree.Nested used) :
    (s, c) ∈ (tree.frame f).knownStates ↔ tree.known f s = some c :=
  ⟨lookup_eq_some_of_mem (nested.unique f), mem_of_lookup⟩

theorem Built.listsChildren (built : Built states tree) (f : FrameId) :
    tree.ListsChildren f (tree.childrenByState f) := by
  have nested := built.housed.nested
  have groups := groups_childrenByState tree f
  have all : ((tree.childrenByState f).flatMap (·.2)).Perm ((tree.frame f).knownStates.map (·.1)) :=
    perm_groups (tree.frame f).knownStates []
  have unique := all.nodup_iff.mpr (nested.unique f)
  have under : ∀ group ∈ tree.childrenByState f, ∀ s,
      s ∈ group.2 ↔ tree.known f s = some group.1 := by
    intro group hg s
    rw [← mem_knownStates_iff nested, groups.mem]
    constructor
    · exact fun hs => ⟨group.2, hg, hs⟩
    · rintro ⟨states', hg', hs⟩
      have same := (lookup_eq_some_of_mem groups.distinct hg).symm.trans
        (lookup_eq_some_of_mem groups.distinct hg')
      rwa [Option.some.inj same]
  refine ⟨groups.distinct, fun c => ?_, groups.some, (List.nodup_flatMap.mp unique).2, under, all⟩
  constructor
  · intro hc
    obtain ⟨group, hg, rfl⟩ := List.mem_map.mp hc
    obtain ⟨s, hs⟩ := List.exists_mem_of_ne_nil _ (groups.some group hg)
    exact (built.known_iff.mp ((under group hg s).mp hs)).1
  · -- The finalize state of a child is one of those under it.
    intro child
    have found := built.known_iff.mpr ⟨child, c, .refl, .inl rfl⟩
    obtain ⟨states', hg, -⟩ := (groups.mem _ _).mp ((mem_knownStates_iff nested).mpr found)
    exact List.mem_map.mpr ⟨_, hg, rfl⟩

/-- A frame knows the states of the frames beneath it, under the child each lies in or at. A state
is known to the frames around its own frame and to no others, and the children of a frame share out
what the frame knows. -/
theorem frames_know_states_beneath (built : Built states tree) :
    (∀ f s c, (tree.frame f).knownStates.lookup s = some c ↔
      tree.IsChild f c ∧ ∃ g, tree.IsAround c g ∧
        (s = (tree.frame g).finalizeState ∨ (s, g) ∈ states)) ∧
    (∀ f, ((tree.frame f).knownStates.map (·.1)).Nodup) ∧
    (∀ g : FrameId, 0 < g.index → g.index < tree.frames.length →
      ((tree.frame g).finalizeState, g) ∈ states) ∧
    (∀ s g, (s, g) ∈ states → ∀ f,
      s ∈ (tree.frame f).knownStates.map (·.1) ↔ tree.IsAncestor f g) ∧
    ∀ f, tree.ListsChildren f (tree.childrenByState f) := by
  refine ⟨fun f s c => built.known_iff, built.housed.nested.unique,
    fun g below room => built.announced below room, fun s g mem f => ?_, built.listsChildren⟩
  rw [← built.knows_iff mem]
  constructor
  · intro hs
    obtain ⟨⟨s, c⟩, hc, rfl⟩ := List.mem_map.mp hs
    exact ⟨c, (mem_knownStates_iff built.housed.nested).mp hc⟩
  · rintro ⟨c, found⟩
    exact List.mem_map.mpr ⟨(s, c), mem_of_lookup found, rfl⟩

/-- A frame in a frame, with a state in the inner one and one at the root. -/
def nestedFrames : FrameTree :=
  (((FrameTree.push {} ⟨0⟩ (-3) ⟨2⟩ []).2.push ⟨1⟩ (-4) ⟨3⟩ []).2.addState ⟨2⟩ 1).addState ⟨0⟩ 0

theorem nestedFrames_know_states_beneath :
    nestedFrames.Built [(0, ⟨0⟩), (1, ⟨2⟩), (-4, ⟨2⟩), (-3, ⟨1⟩)] ∧
    nestedFrames.childrenByState ⟨0⟩ = [(⟨1⟩, [-3, -4, 1])] ∧
    nestedFrames.ListsChildren ⟨0⟩ [(⟨1⟩, [-3, -4, 1])] ∧
    nestedFrames.IsAncestor ⟨0⟩ ⟨2⟩ ∧ ¬nestedFrames.IsAncestor ⟨2⟩ ⟨2⟩ := by
  have outer : FrameTree.Built [(-3, ⟨1⟩)] (FrameTree.push {} ⟨0⟩ (-3) ⟨2⟩ []).2 :=
    .push .root (by decide) (by decide) ⟨2⟩ []
  have inner : FrameTree.Built [(-4, ⟨2⟩), (-3, ⟨1⟩)]
      ((FrameTree.push {} ⟨0⟩ (-3) ⟨2⟩ []).2.push ⟨1⟩ (-4) ⟨3⟩ []).2 :=
    .push outer (by decide) (by decide) ⟨3⟩ []
  have built : nestedFrames.Built [(0, ⟨0⟩), (1, ⟨2⟩), (-4, ⟨2⟩), (-3, ⟨1⟩)] :=
    .addState (.addState inner (by decide) (by decide)) (by decide) (by decide)
  obtain ⟨-, -, -, ancestors, lists⟩ := frames_know_states_beneath built
  have home : ((1 : Int), (⟨2⟩ : FrameId)) ∈
      [((0 : Int), (⟨0⟩ : FrameId)), (1, ⟨2⟩), (-4, ⟨2⟩), (-3, ⟨1⟩)] := by decide
  have grouped : nestedFrames.childrenByState ⟨0⟩ = [(⟨1⟩, [-3, -4, 1])] := by decide
  refine ⟨built, grouped, grouped ▸ lists ⟨0⟩, ?_, ?_⟩
  · exact (ancestors 1 ⟨2⟩ home ⟨0⟩).mp (by decide)
  · exact fun inside => absurd ((ancestors 1 ⟨2⟩ home ⟨2⟩).mpr inside) (by decide)

end FrameTree

end ManagedCode
