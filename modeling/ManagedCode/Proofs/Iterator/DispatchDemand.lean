import Mathlib.Algebra.BigOperators.Group.Finset.Basic
import Mathlib.Algebra.Order.BigOperators.Group.Finset
import Mathlib.Data.Finset.Card
import ManagedCode.Proofs.Iterator.DisposeCode

namespace ManagedCode

/-! A dispose method can be written as long as there are two labels and a try id for each frame. -/

namespace FrameTree

variable {tree : FrameTree} {path : List Nat} {f child : FrameId} {used : Int → Prop}

/-- The numbers of the frames that lie in a frame, at whatever depth. -/
def inside (tree : FrameTree) (f : FrameId) : Finset Nat :=
  (Finset.range tree.frames.length).filter fun i => f ∈ (tree.frame ⟨i⟩).ancestors

/-- How many frames lie in a frame. -/
def below (tree : FrameTree) (f : FrameId) : Nat := (tree.inside f).card

theorem mem_inside {i : Nat} :
    i ∈ tree.inside f ↔ i < tree.frames.length ∧ f ∈ (tree.frame ⟨i⟩).ancestors := by
  unfold inside
  rw [Finset.mem_filter, Finset.mem_range]

/-- Every frame but the root itself may lie in the root. -/
theorem below_root_lt (outermost : (tree.frame root).ancestors = [])
    (room : 0 < tree.frames.length) : tree.below root < tree.frames.length := by
  have away : 0 ∉ tree.inside root := fun mem => by
    have around := (mem_inside.mp mem).2
    change root ∈ (tree.frame root).ancestors at around
    rw [outermost] at around
    cases around
  have fewer : tree.inside root ⊂ Finset.range tree.frames.length :=
    Finset.ssubset_iff_of_subset (Finset.filter_subset _ _) |>.mpr
      ⟨0, Finset.mem_range.mpr room, away⟩
  have less := Finset.card_lt_card fewer
  rwa [Finset.card_range] at less

/-- A frame and those that lie in it. -/
def subtree (tree : FrameTree) (f : FrameId) : Finset Nat := insert f.index (tree.inside f)

theorem mem_framesOf_append (inner : List Nat) (path : List Nat) :
    frameOf path ∈ framesOf (inner ++ path) := by
  obtain ⟨rest, chain⟩ := framesOf_eq_cons path
  unfold framesOf at chain ⊢
  rw [List.map_append, List.append_assoc, chain]
  exact List.mem_append_right _ List.mem_cons_self

/-- What lies in a child lies on a path through it. -/
theorem path_of_mem_subtree (nested : tree.Nested used) {g i : Nat} (lies : tree.Lies (g :: path))
    (mem : i ∈ tree.subtree ⟨g + 1⟩) :
    ∃ inner, (⟨i⟩ : FrameId) = frameOf (inner ++ g :: path) ∧ tree.Lies (inner ++ g :: path) := by
  rcases Finset.mem_insert.mp mem with rfl | mem
  · exact ⟨[], rfl, lies⟩
  obtain ⟨room, around⟩ := mem_inside.mp mem
  obtain ⟨path', same, lies'⟩ := nested.paths ⟨i⟩ room
  have onPath : (⟨g + 1⟩ : FrameId) ∈ framesOf path' := by
    rw [← lies'.chain, ← same]
    exact List.mem_cons_of_mem _ around
  obtain ⟨inner, g', outer, rfl, hg⟩ : ∃ inner g' outer, path' = inner ++ g' :: outer ∧
      (⟨g + 1⟩ : FrameId) = ⟨g' + 1⟩ := by
    rcases List.mem_append.mp onPath with mem | mem
    · obtain ⟨g', hg', hg⟩ := List.mem_map.mp mem
      obtain ⟨inner, outer, split⟩ := List.append_of_mem hg'
      exact ⟨inner, g', outer, split, hg.symm⟩
    · cases List.mem_singleton.mp mem
  obtain same' := lies.unique lies'.drop hg
  exact ⟨inner, by rw [same, same'], by rwa [same']⟩

theorem subtree_subset (nested : tree.Nested used) {g : Nat} (lies : tree.Lies (g :: path)) :
    tree.subtree ⟨g + 1⟩ ⊆ tree.inside (frameOf path) := by
  intro i mem
  obtain ⟨inner, same, lies'⟩ := path_of_mem_subtree nested lies mem
  have room := lies'.room
  rw [← same] at room
  refine mem_inside.mpr ⟨room, ?_⟩
  have onPath := mem_framesOf_append (inner ++ [g]) path
  rw [List.append_assoc, List.singleton_append, ← lies'.chain, ← same] at onPath
  rcases List.mem_cons.mp onPath with here | around
  · -- A frame is not its own parent.
    have around : tree.Lies ([g] ++ path) := lies'.drop
    have longer := lies'.unique around.drop (same.symm.trans here.symm)
    have lengths := congrArg List.length longer
    simp only [List.length_append, List.length_cons] at lengths
    omega
  · exact around

theorem disjoint_subtree (nested : tree.Nested used) {g g' : Nat} (lies : tree.Lies (g :: path))
    (lies' : tree.Lies (g' :: path)) (other : g ≠ g') :
    Disjoint (tree.subtree ⟨g + 1⟩) (tree.subtree ⟨g' + 1⟩) := by
  rw [Finset.disjoint_left]
  intro i mem mem'
  obtain ⟨inner, same, on⟩ := path_of_mem_subtree nested lies mem
  obtain ⟨inner', same', on'⟩ := path_of_mem_subtree nested lies' mem'
  have paths := on.unique on' (same.symm.trans same')
  rw [List.append_cons, List.append_cons inner'] at paths
  have firsts := List.append_cancel_right paths
  exact other (List.head_eq_of_cons_eq (List.append_inj' firsts rfl).2)

theorem card_subtree (lies : tree.Lies path) :
    (tree.subtree (frameOf path)).card = tree.below (frameOf path) + 1 := by
  refine Finset.card_insert_of_notMem fun mem => ?_
  have around := (mem_inside.mp mem).2
  have distinct := lies.nodup
  rw [← lies.chain] at distinct
  exact (List.nodup_cons.mp distinct).1 around

/-- Different children of a frame have different frames in them. -/
theorem sum_below_le (nested : tree.Nested used) {children : List FrameId}
    (distinct : children.Nodup)
    (lie : ∀ c ∈ children, ∃ g, c = ⟨g + 1⟩ ∧ tree.Lies (g :: path)) :
    (children.map fun c => tree.below c + 1).sum ≤ tree.below (frameOf path) := by
  have sizes : (children.map fun c => tree.below c + 1).sum =
      (children.toFinset.biUnion tree.subtree).card := by
    rw [Finset.card_biUnion, List.sum_toFinset _ distinct]
    · refine congrArg List.sum (List.map_congr_left fun c hc => ?_)
      obtain ⟨g, rfl, lies⟩ := lie c hc
      exact (card_subtree lies).symm
    · intro c hc c' hc' other
      obtain ⟨g, rfl, lies⟩ := lie c (List.mem_toFinset.mp hc)
      obtain ⟨g', rfl, lies'⟩ := lie c' (List.mem_toFinset.mp hc')
      exact disjoint_subtree nested lies lies' fun same => other (by rw [same])
  rw [sizes]
  refine Finset.card_le_card (Finset.biUnion_subset.mpr fun c hc => ?_)
  obtain ⟨g, rfl, lies⟩ := lie c (List.mem_toFinset.mp hc)
  exact subtree_subset nested lies

end FrameTree

namespace Dispose

variable {frames : FrameTree} {cached : LocalId} {used : Int → Prop} {path : List Nat}

theorem bind_of_some {α β : Type} {step : DisposeM α} {next : α → DisposeM β} {ids ids₁ : FreshIds}
    {a : α} (h : step ids = some (a, ids₁)) : (step >>= next) ids = next a ids₁ := by
  change (step ids >>= fun (a, middle) => next a middle) = _
  rw [h]
  rfl

/-- So many labels and try ids are drawn at most. -/
structure Draws (labels tries : Nat) (ids ids' : FreshIds) : Prop where
  labels : ids'.labelCount ≤ ids.labelCount + labels
  tries : ids'.tryCount ≤ ids.tryCount + tries

/-- So many labels and try ids can be drawn. -/
structure Room (labels tries : Nat) (ids : FreshIds) : Prop where
  labels : ids.labelCount + labels < idLimit
  tries : ids.tryCount + tries < idLimit

theorem exists_freshLabel (ids : FreshIds) (room : ids.labelCount + 1 < idLimit) :
    ∃ l ids', freshLabel ids = some (l, ids') ∧ Draws 1 0 ids ids' :=
  ⟨⟨ids.labelCount⟩, _, if_pos room, Nat.le_refl _, Nat.le_refl _⟩

theorem exists_withHandler (handler? : Option SynthMethodId) (inner : List Stmt) (ids : FreshIds)
    (room : ids.tryCount + handler?.toList.length < idLimit) :
    ∃ out ids', withHandler handler? inner ids = some (out, ids') ∧
      Draws 0 handler?.toList.length ids ids' := by
  cases handler? with
  | none => exact ⟨inner, ids, rfl, Nat.le_refl _, Nat.le_refl _⟩
  | some handler =>
    have drawn : freshTry ids =
        some (⟨ids.tryCount⟩, { ids with tryCount := ids.tryCount + 1 }) := if_pos room
    refine ⟨[.tryCatch ⟨ids.tryCount⟩ inner [] (some [.expr (.callSynthesized handler)])],
      { ids with tryCount := ids.tryCount + 1 }, ?_, Nat.le_refl _, Nat.le_refl _⟩
    unfold withHandler
    dsimp only
    rw [bind_of_some drawn]
    rfl

/-- How many frames the groups of children stand for, with those that lie in them. -/
def coverage (frames : FrameTree) (children : List (FrameId × List Int)) : Nat :=
  (children.map fun child => frames.below child.1 + 1).sum

theorem length_le_coverage (frames : FrameTree) (children : List (FrameId × List Int)) :
    children.length ≤ coverage frames children := by
  have each : ∀ n ∈ children.map (fun child => frames.below child.1 + 1), 1 ≤ n := by
    intro n hn
    obtain ⟨child, -, rfl⟩ := List.mem_map.mp hn
    exact Nat.succ_pos _
  have fewer := List.length_le_sum_of_one_le _ each
  rwa [List.length_map] at fewer

/-- How many handlers a frame has. -/
def handlerCount (frames : FrameTree) (f : FrameId) : Nat := (frames.frame f).handler?.toList.length

theorem handlerCount_le_one (frames : FrameTree) (f : FrameId) : handlerCount frames f ≤ 1 := by
  unfold handlerCount
  cases (frames.frame f).handler? <;> simp

/-- The code of a frame can be written if there are two labels for each frame in it, and a try id
for each handler. -/
def Writable (frames : FrameTree) (cached : LocalId) (depth : Nat) (f : FrameId) : Prop :=
  ∀ ids, Room (2 * frames.below f) (frames.below f + handlerCount frames f) ids →
    ∃ out ids', frameDispatch frames cached depth f ids = some (out, ids') ∧
      Draws (2 * frames.below f) (frames.below f + handlerCount frames f) ids ids'

/-- The sections of all children can be written if each of them can. -/
theorem exists_sections {depth : Nat} (done : LabelId) (children : List (FrameId × List Int))
    (each : ∀ child ∈ children, Writable frames cached depth child.1) (ids : FreshIds)
    (room : Room (2 * coverage frames children - children.length) (coverage frames children) ids) :
    ∃ sections ids', children.mapM (sectionFor frames cached depth done) ids =
        some (sections, ids') ∧
      Draws (2 * coverage frames children - children.length) (coverage frames children) ids
        ids' := by
  induction children generalizing ids with
  | nil => exact ⟨[], ids, rfl, Nat.le_add_right _ _, Nat.le_add_right _ _⟩
  | cons child rest ih =>
    obtain ⟨frame, states⟩ := child
    have sum : coverage frames ((frame, states) :: rest) =
        frames.below frame + 1 + coverage frames rest := List.sum_cons
    have few := handlerCount_le_one frames frame
    have fewer := length_le_coverage frames rest
    obtain ⟨labels, tries⟩ := room
    rw [sum] at labels tries ⊢
    rw [List.length_cons] at labels ⊢
    obtain ⟨l, ids₁, hl, drawnLabels, drawnTries⟩ := exists_freshLabel ids (by omega)
    obtain ⟨inner, ids₂, hi, firstLabels, firstTries⟩ := each _ List.mem_cons_self ids₁
      ⟨by dsimp only; omega, by dsimp only; omega⟩
    dsimp only at firstLabels firstTries
    obtain ⟨sections, ids', hs, otherLabels, otherTries⟩ := ih
      (fun child hc => each child (List.mem_cons_of_mem _ hc)) ids₂ ⟨by omega, by omega⟩
    let first : List (Int64 × LabelId) × List Stmt :=
      (states.map fun state => (Int64.ofInt state, l), .label l :: inner ++ [.goto done])
    have written :
        sectionFor frames cached depth done (frame, states) ids = some (first, ids₂) := by
      unfold sectionFor
      dsimp only
      rw [bind_of_some hl, bind_of_some hi]
      rfl
    refine ⟨first :: sections, ids', ?_, ?_, by omega⟩
    · rw [List.mapM_cons, bind_of_some written, bind_of_some hs]
      rfl
    · omega

theorem writable_of_lies (nested : frames.Nested used) (depth : Nat) (lies : frames.Lies path) :
    Writable frames cached depth (FrameTree.frameOf path) := by
  induction depth generalizing path with
  | zero => exact fun ids _ => ⟨[], ids, rfl, Nat.le_add_right _ _, Nat.le_add_right _ _⟩
  | succ depth ih =>
    intro ids room
    let f := FrameTree.frameOf path
    have groups := FrameTree.groups_childrenByState frames f
    have lie : ∀ c ∈ (frames.childrenByState f).map (·.1),
        ∃ g, c = ⟨g + 1⟩ ∧ frames.Lies (g :: path) := by
      intro c hc
      obtain ⟨group, hg, rfl⟩ := List.mem_map.mp hc
      exact lies_of_child nested lies hg
    have covered : coverage frames (frames.childrenByState f) ≤ frames.below f := by
      have fits := FrameTree.sum_below_le nested groups.distinct lie
      rwa [List.map_map] at fits
    have labels : ids.labelCount + 2 * frames.below f < idLimit := room.labels
    have tries : ids.tryCount + (frames.below f + (frames.frame f).handler?.toList.length) <
        idLimit := room.tries
    unfold frameDispatch
    dsimp only
    by_cases empty : (frames.childrenByState f).isEmpty = true
    · obtain ⟨out, ids', h, drawnLabels, drawnTries⟩ :=
        exists_withHandler (frames.frame f).handler? [] ids (by omega)
      rw [if_pos empty]
      refine ⟨out, ids', h, Nat.le_trans drawnLabels (by omega), Nat.le_trans drawnTries ?_⟩
      exact Nat.add_le_add_left (Nat.le_add_left _ _) _
    · have some : 0 < (frames.childrenByState f).length :=
        List.length_pos_iff.mpr fun none => empty (List.isEmpty_iff.mpr none)
      have fewer := length_le_coverage frames (frames.childrenByState f)
      obtain ⟨done, ids₁, hd, drawnLabels, drawnTries⟩ := exists_freshLabel ids (by omega)
      have each : ∀ child ∈ frames.childrenByState f, Writable frames cached depth child.1 := by
        intro child hc
        obtain ⟨g, same, inner⟩ := lie _ (List.mem_map_of_mem hc)
        rw [same]
        exact ih inner
      obtain ⟨sections, ids₂, hs, belowLabels, belowTries⟩ :=
        exists_sections done (frames.childrenByState f) each ids₁ ⟨by omega, by omega⟩
      obtain ⟨out, ids', h, handledLabels, handledTries⟩ := exists_withHandler
        (frames.frame f).handler? (.switch (.local cached) (sections.flatMap (·.1)) none ::
          .goto done :: sections.flatMap (·.2) ++ [.label done]) ids₂ (by omega)
      rw [if_neg empty, bind_of_some hd]
      refine ⟨out, ids', (bind_of_some hs).trans h, ?_, ?_⟩
      · change ids'.labelCount ≤ ids.labelCount + 2 * frames.below f
        omega
      · change ids'.tryCount ≤
          ids.tryCount + (frames.below f + (frames.frame f).handler?.toList.length)
        omega

/-- A dispose method can be written if there are two labels and a try id for each frame below the
root. -/
theorem exists_build (nested : frames.Nested used) (lies : frames.Lies []) (ids : FreshIds)
    (labels : ids.labelCount + 2 * (frames.frames.length - 1) < idLimit)
    (tries : ids.tryCount + (frames.frames.length - 1) < idLimit) :
    ∃ body ids', build frames ids = some (body, ids') := by
  have outermost : (frames.frame FrameTree.root).ancestors = [] := congrArg List.tail lies.chain
  have fewer := FrameTree.below_root_lt outermost lies.room
  have unguarded : handlerCount frames FrameTree.root = 0 := by
    have unhandled : (frames.frame FrameTree.root).handler? = none :=
      congrArg Frame.handler? nested.root
    unfold handlerCount
    rw [unhandled]
    rfl
  have writable : Writable frames ⟨0⟩ frames.frames.length FrameTree.root :=
    writable_of_lies nested _ lies
  obtain ⟨out, ids', h, -⟩ := writable ids ⟨by omega, by omega⟩
  refine ⟨{
    locals := [{ name := none, ty := .int32 }]
    root := .assign (.local ⟨0⟩) (.machineField stateField) :: out ++
      [setState finishedState, .ret none] }, ids', ?_⟩
  unfold build
  rw [bind_of_some h]
  rfl

end Dispose

end ManagedCode
