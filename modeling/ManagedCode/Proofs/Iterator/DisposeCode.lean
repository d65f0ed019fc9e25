import ManagedCode.Iterator.Dispose
import ManagedCode.Proofs.Iterator.Dispatch
import ManagedCode.Proofs.Iterator.Weigh

namespace ManagedCode

/-! The code of a dispose method. -/

namespace FrameTree

/-- The states of a list of pairs, by what they are paired with. -/
structure Groups {α : Type} (pairs : List (Int × α)) (groups : List (α × List Int)) : Prop where
  distinct : (groups.map (·.1)).Nodup
  some : ∀ group ∈ groups, group.2 ≠ []
  mem : ∀ s a, (s, a) ∈ pairs ↔ ∃ states, (a, states) ∈ groups ∧ s ∈ states

section

variable {α β : Type} [DecidableEq α] {key a : α} {value b : β} {pairs : List (α × β)}

theorem mem_insertPair (distinct : (pairs.map (·.1)).Nodup) :
    (a, b) ∈ insertPair key value pairs ↔
      a = key ∧ b = value ∨ a ≠ key ∧ (a, b) ∈ pairs := by
  induction pairs with
  | nil => simp [insertPair]
  | cons pair rest ih =>
    obtain ⟨k, v⟩ := pair
    rw [List.map_cons, List.nodup_cons] at distinct
    rw [insertPair]
    split
    next same =>
      subst same
      have absent : (k, b) ∉ rest := fun mem =>
        distinct.1 (List.mem_map.mpr ⟨(k, b), mem, rfl⟩)
      by_cases here : a = k
      · subst here
        simp [absent]
      · simp [here]
    next other =>
      rw [List.mem_cons, ih distinct.2, List.mem_cons]
      by_cases here : a = k
      · subst here
        simp [other]
      · by_cases there : a = key
        · subst there
          simp [here]
        · simp [here, there]

theorem lookup_eq_some_of_mem (distinct : (pairs.map (·.1)).Nodup) (h : (a, b) ∈ pairs) :
    pairs.lookup a = some b := by
  induction pairs with
  | nil => cases h
  | cons pair rest ih =>
    obtain ⟨k, v⟩ := pair
    rw [List.map_cons, List.nodup_cons] at distinct
    rw [List.lookup_cons]
    rcases List.mem_cons.mp h with same | later
    · cases same
      simp
    · have other : a ≠ k := by
        rintro rfl
        exact distinct.1 (List.mem_map.mpr ⟨(a, b), later, rfl⟩)
      rw [beq_false_of_ne other]
      exact ih distinct.2 later

theorem mem_of_lookup {pairs : List (α × β)} (h : pairs.lookup a = some b) : (a, b) ∈ pairs := by
  obtain ⟨before, after, rfl, -⟩ := List.lookup_eq_some_iff.mp h
  exact List.mem_append_right _ List.mem_cons_self

end

theorem groups_fold {α : Type} [DecidableEq α] (pairs done : List (Int × α))
    {groups : List (α × List Int)} (h : Groups done groups) :
    Groups (done ++ pairs) (pairs.foldl (fun groups (state, child) =>
      insertPair child ((groups.lookup child).getD [] ++ [state]) groups) groups) := by
  induction pairs generalizing done groups with
  | nil => rwa [List.append_nil]
  | cons pair pairs ih =>
    obtain ⟨s, child⟩ := pair
    rw [List.append_cons, List.foldl_cons]
    refine ih _ ⟨nodup_insertPair h.distinct, fun group hg => ?_, fun s' a => ?_⟩
    · obtain ⟨a, states⟩ := group
      rcases (mem_insertPair h.distinct).mp hg with ⟨-, rfl⟩ | ⟨-, old⟩
      · simp
      · exact h.some _ old
    · rw [List.mem_append, List.mem_singleton, Prod.mk.injEq, h.mem]
      simp only [mem_insertPair h.distinct]
      by_cases same : a = child
      · subst same
        have known : s' ∈ (groups.lookup a).getD [] ↔ ∃ states, (a, states) ∈ groups ∧ s' ∈ states := by
          cases found : groups.lookup a with
          | none =>
            have absent : ∀ states, (a, states) ∉ groups := fun states mem => by
              rw [lookup_eq_some_of_mem h.distinct mem] at found
              cases found
            simp [absent]
          | some states =>
            refine ⟨fun mem => ⟨states, mem_of_lookup found, mem⟩, fun ⟨states', mem, hs⟩ => ?_⟩
            have same := found.symm.trans (lookup_eq_some_of_mem h.distinct mem)
            cases same
            exact hs
        rw [← known]
        simp
      · simp [same]

theorem groups_childrenByState (tree : FrameTree) (f : FrameId) :
    Groups (tree.frame f).knownStates (tree.childrenByState f) :=
  groups_fold _ [] ⟨List.nodup_nil, nofun, by simp⟩

end FrameTree

namespace Dispose

open Lowering

theorem bind_eq_some {α β : Type} {step : DisposeM α} {next : α → DisposeM β} {ids later : FreshIds}
    {b : β} : (step >>= next) ids = some (b, later) ↔
      ∃ a middle, step ids = some (a, middle) ∧ next a middle = some (b, later) := by
  change (step ids).bind (fun (a, middle) => next a middle) = _ ↔ _
  cases step ids with
  | none => simp
  | some result =>
    obtain ⟨a, middle⟩ := result
    simp

theorem freshLabel_eq_some {ids later : FreshIds} {l : LabelId}
    (h : freshLabel ids = some (l, later)) :
    l = ⟨ids.labelCount⟩ ∧ later = { ids with labelCount := ids.labelCount + 1 } := by
  change FreshIds.label? ids = _ at h
  unfold FreshIds.label? at h
  split at h
  next =>
    cases h
    exact ⟨rfl, rfl⟩
  next => cases h

theorem freshTry_eq_some {ids later : FreshIds} {id : TryId}
    (h : freshTry ids = some (id, later)) :
    id = ⟨ids.tryCount⟩ ∧ ids.tryCount + 1 < idLimit ∧
      later = { ids with tryCount := ids.tryCount + 1 } := by
  change FreshIds.tryId? ids = _ at h
  unfold FreshIds.tryId? at h
  split at h
  next room =>
    cases h
    exact ⟨rfl, room, rfl⟩
  next => cases h

mutual

/-- What a dispose method executes for a frame before it calls its handler, with the ids that are
left. -/
inductive Due (frames : FrameTree) (handler : Nat → SynthMethodId) (cached : LocalId) :
    FrameId → FreshIds → List Stmt → FreshIds → Prop
  | nothing {f : FrameId} {ids : FreshIds} (none : frames.childrenByState f = []) :
    Due frames handler cached f ids [] ids
  | children {f : FrameId} {ids ids₁ ids' : FreshIds} {done : LabelId}
    {cases : List (Int64 × LabelId)} {sections : List Stmt}
    (h : freshLabel ids = some (done, ids₁))
    (all : DueBelow frames handler cached (frames.childrenByState f) done ids₁ cases sections
      ids') : Due frames handler cached f ids
      (.switch (.local cached) cases none :: .goto done :: sections ++ [.label done]) ids'

/-- The sections for the children of a frame, each with the states under it. -/
inductive DueBelow (frames : FrameTree) (handler : Nat → SynthMethodId) (cached : LocalId) :
    List (FrameId × List Int) → LabelId → FreshIds → List (Int64 × LabelId) → List Stmt →
      FreshIds → Prop
  | nil {done : LabelId} {ids : FreshIds} : DueBelow frames handler cached [] done ids [] [] ids
  | cons {done : LabelId} {g : Nat} {states : List Int} {rest : List (FrameId × List Int)}
    {ids ids₁ ids₂ ids₃ ids' : FreshIds} {l : LabelId} {number : TryId} {inner : List Stmt}
    {cases : List (Int64 × LabelId)} {sections : List Stmt}
    (hl : freshLabel ids = some (l, ids₁)) (hi : Due frames handler cached ⟨g + 1⟩ ids₁ inner ids₂)
    (ht : freshTry ids₂ = some (number, ids₃))
    (more : DueBelow frames handler cached rest done ids₃ cases sections ids') :
    DueBelow frames handler cached ((⟨g + 1⟩, states) :: rest) done ids
      (states.map (fun state => (Int64.ofInt state, l)) ++ cases)
      (.label l :: .tryCatch number inner [] (some [.expr (.callSynthesized (handler g))]) ::
        .goto done :: sections) ids'

end

section

variable {frames : FrameTree} {handler : Nat → SynthMethodId} {cached : LocalId} {used : Int → Prop}

theorem length_lt {path : List Nat} (lies : frames.Lies path) : path.length < frames.frames.length := by
  have below : ∀ {path : List Nat}, frames.Lies path → ∀ g, (∀ g' ∈ path, g' < g) → path.length ≤ g := by
    intro path lies
    induction lies with
    | root => exact fun g _ => Nat.zero_le g
    | frame around inner room later ih =>
      intro g before
      have first := before _ List.mem_cons_self
      have rest := ih _ later
      rw [List.length_cons]
      omega
  cases lies with
  | root _ room => exact room
  | frame around inner room later =>
    have rest := below around _ later
    rw [List.length_cons]
    omega

theorem withHandler_eq_some {handler? : Option SynthMethodId} {g : Nat}
    (known : handler? = some (handler g)) {inner out : List Stmt} {ids ids' : FreshIds}
    (h : withHandler handler? inner ids = some (out, ids')) :
    ∃ number, freshTry ids = some (number, ids') ∧
      out = [.tryCatch number inner [] (some [.expr (.callSynthesized (handler g))])] := by
  subst known
  unfold withHandler at h
  rw [bind_eq_some] at h
  obtain ⟨number, _, ht, h⟩ := h
  cases h
  exact ⟨number, ht, rfl⟩

/-- Each child lies in its frame. -/
theorem lies_of_child (nested : frames.Nested used) {path : List Nat} (lies : frames.Lies path)
    {group : FrameId × List Int}
    (h : group ∈ frames.childrenByState (FrameTree.frameOf path)) :
    ∃ g, group.1 = ⟨g + 1⟩ ∧ frames.Lies (g :: path) := by
  have groups := FrameTree.groups_childrenByState frames (FrameTree.frameOf path)
  obtain ⟨child, states⟩ := group
  obtain ⟨s, hs⟩ := List.exists_mem_of_ne_nil _ (groups.some _ h)
  have pair := (groups.mem s child).mpr ⟨states, h, hs⟩
  have found := FrameTree.lookup_eq_some_of_mem (nested.unique _) pair
  obtain ⟨-, g, path', hc, hf, inner⟩ := nested.known _ s child found
  cases inner with
  | frame around below room later =>
    obtain rfl := lies.unique around hf
    exact ⟨g, hc, .frame around below room later⟩

/-- The code of one child of a frame. -/
def sectionFor (frames : FrameTree) (cached : LocalId) (depth : Nat) (done : LabelId) :
    FrameId × List Int → DisposeM (List (Int64 × LabelId) × List Stmt) :=
  fun (child, states) => do
    let label ← freshLabel
    let inner ← frameDispatch frames cached depth child
    return (states.map fun state => (Int64.ofInt state, label),
      .label label :: inner ++ [.goto done])

theorem dueBelow_of_mapM {depth : Nat} (path : List Nat)
    (handlers : ∀ g path, frames.Lies (g :: path) →
      (frames.frame ⟨g + 1⟩).handler? = some (handler g))
    (deeper : ∀ {g : Nat} {ids ids' : FreshIds} {out : List Stmt}, frames.Lies (g :: path) →
      frameDispatch frames cached depth ⟨g + 1⟩ ids = some (out, ids') →
      ∃ inner ids₁, Due frames handler cached ⟨g + 1⟩ ids inner ids₁ ∧
        withHandler (frames.frame ⟨g + 1⟩).handler? inner ids₁ = some (out, ids'))
    {children : List (FrameId × List Int)}
    (inside : ∀ group ∈ children, ∃ g, group.1 = ⟨g + 1⟩ ∧ frames.Lies (g :: path)) {done : LabelId}
    {ids ids' : FreshIds} {sections : List (List (Int64 × LabelId) × List Stmt)}
    (h : children.mapM (sectionFor frames cached depth done) ids = some (sections, ids')) :
    DueBelow frames handler cached children done ids (sections.flatMap (·.1)) (sections.flatMap (·.2))
      ids' := by
  induction children generalizing ids sections with
  | nil =>
    cases h
    exact .nil
  | cons group rest ih =>
    obtain ⟨child, states⟩ := group
    rw [List.mapM_cons, bind_eq_some] at h
    obtain ⟨first, _, hf, h⟩ := h
    unfold sectionFor at hf
    rw [bind_eq_some] at hf
    obtain ⟨l, _, hl, hf⟩ := hf
    rw [bind_eq_some] at hf
    obtain ⟨code, _, hc, hf⟩ := hf
    cases hf
    rw [bind_eq_some] at h
    obtain ⟨later, _, hr, h⟩ := h
    cases h
    obtain ⟨g, rfl, below⟩ := inside _ List.mem_cons_self
    obtain ⟨inner, _, due, handled⟩ := deeper below hc
    obtain ⟨number, ht, rfl⟩ := withHandler_eq_some (handlers g path below) handled
    exact .cons hl due ht (ih (fun group hg => inside group (List.mem_cons_of_mem _ hg)) hr)

/-- What is due under a frame is written before its handler is called. -/
theorem due_of_frameDispatch (nested : frames.Nested used)
    (handlers : ∀ g path, frames.Lies (g :: path) →
      (frames.frame ⟨g + 1⟩).handler? = some (handler g)) {depth : Nat} {path : List Nat}
    (lies : frames.Lies path) (deep : frames.frames.length ≤ depth + path.length)
    {ids ids' : FreshIds} {out : List Stmt}
    (h : frameDispatch frames cached depth (FrameTree.frameOf path) ids = some (out, ids')) :
    ∃ inner ids₁, Due frames handler cached (FrameTree.frameOf path) ids inner ids₁ ∧
      withHandler (frames.frame (FrameTree.frameOf path)).handler? inner ids₁ =
        some (out, ids') := by
  induction depth generalizing path ids ids' out with
  | zero =>
    have short := length_lt lies
    omega
  | succ depth ih =>
    unfold frameDispatch at h
    dsimp only at h
    split at h
    next empty => exact ⟨[], ids, .nothing (List.isEmpty_iff.mp empty), h⟩
    next =>
      rw [bind_eq_some] at h
      obtain ⟨done, ids₁, hd, h⟩ := h
      rw [bind_eq_some] at h
      obtain ⟨sections, ids₂, hm, h⟩ := h
      refine ⟨_, ids₂, .children hd (dueBelow_of_mapM path handlers ?_ ?_ hm), h⟩
      · exact fun below hc => ih below (by rw [List.length_cons]; omega) hc
      · exact fun group hg => lies_of_child nested lies hg

variable {t : Tally}

mutual

theorem Due.weight {f : FrameId} {ids ids' : FreshIds} {out : List Stmt}
    (h : Due frames handler cached f ids out ids') :
    t.stmts out + t.labels ids'.labelCount + t.tries ids'.tryCount ≤
      t.labels ids.labelCount + t.tries ids.tryCount := by
  match h with
  | .nothing _ =>
    rw [t.stmts_nil]
    omega
  | .children hd all =>
    rename_i ids₁ done cases sections
    have below := DueBelow.weight all
    have skip : t.stmts (.switch (.local cached) cases none :: .goto done :: sections ++
        [.label done]) = t.stmts (sections ++ [.label done]) := rfl
    rw [skip, t.stmts_append, t.stmts_cons, t.stmt_label, t.stmts_nil]
    obtain ⟨rfl, rfl⟩ := freshLabel_eq_some hd
    have drawn := t.drawLabel ids.labelCount
    dsimp only at below
    omega

theorem DueBelow.weight {children : List (FrameId × List Int)} {done : LabelId}
    {ids ids' : FreshIds} {cases : List (Int64 × LabelId)} {sections : List Stmt}
    (h : DueBelow frames handler cached children done ids cases sections ids') :
    t.stmts sections + t.labels ids'.labelCount + t.tries ids'.tryCount ≤
      t.labels ids.labelCount + t.tries ids.tryCount := by
  match h with
  | .nil =>
    rw [t.stmts_nil]
    omega
  | .cons hl hi ht more =>
    rename_i g states rest ids₁ ids₂ ids₃ l number inner cases sections
    have first := Due.weight hi
    have rest := DueBelow.weight more
    have call : t.stmts [.expr (.callSynthesized (handler g))] = 0 := rfl
    rw [t.stmts_cons, t.stmts_cons, t.stmts_goto, t.stmt_label, t.stmt_tryFinally, call,
      t.catches_nil]
    obtain ⟨rfl, rfl⟩ := freshLabel_eq_some hl
    obtain ⟨rfl, -, rfl⟩ := freshTry_eq_some ht
    have drawn := t.drawLabel ids.labelCount
    have drawn' := t.drawTry ids₂.tryCount
    dsimp only at first rest
    omega

end

/-! Jumps. -/

/-- The labels of the sections are drawn one after the other. -/
theorem DueBelow.labels {children : List (FrameId × List Int)} {done : LabelId}
    {ids ids' : FreshIds} {cases : List (Int64 × LabelId)} {sections : List Stmt}
    (h : DueBelow frames handler cached children done ids cases sections ids') :
    cases.map (·.2) ⊆ Stmt.plainLabelsAll sections := by
  match h with
  | .nil => exact List.nil_subset _
  | .cons hl hi ht more =>
    rename_i g states rest ids₁ ids₂ ids₃ l number inner cases sections
    have rest := DueBelow.labels more
    intro target ht
    rw [List.map_append, List.mem_append] at ht
    rcases ht with ht | ht
    · rw [List.map_map] at ht
      obtain ⟨state, -, rfl⟩ := List.mem_map.mp ht
      exact List.mem_cons_self
    · exact List.mem_cons_of_mem _ (rest ht)

mutual

/-- No jump leads out of what is due. -/
theorem Due.closed {f : FrameId} {ids ids' : FreshIds} {out : List Stmt}
    (h : Due frames handler cached f ids out ids') : Stmt.escapesAll out = [] := by
  match h with
  | .nothing _ => rfl
  | .children hd all =>
    rename_i ids₁ done cases sections
    have below := DueBelow.closed all
    have labels := all.labels
    rw [List.eq_nil_iff_forall_not_mem]
    intro l hl
    obtain ⟨target, missing⟩ := mem_unresolved.mp hl
    have plain : Stmt.plainLabelsAll (.switch (.local cached) cases none :: .goto done :: sections ++
        [.label done]) = Stmt.plainLabelsAll sections ++ [done] := by
      exact Stmt.plainLabelsAll_append sections [.label done]
    rw [plain, List.mem_append, List.mem_singleton, not_or] at missing
    rw [List.cons_append, List.cons_append, Stmt.targets, Stmt.targets, Stmt.targets_append] at target
    simp only [Stmt.escapes, List.mem_append, Option.toList, List.append_nil, List.mem_singleton,
      Stmt.targets] at target
    rcases target with target | target | target
    · exact missing.1 (labels target)
    · exact missing.2 target
    · exact missing.2 (below l target)

theorem DueBelow.closed {children : List (FrameId × List Int)} {done : LabelId}
    {ids ids' : FreshIds} {cases : List (Int64 × LabelId)} {sections : List Stmt}
    (h : DueBelow frames handler cached children done ids cases sections ids') :
    ∀ l ∈ Stmt.targets sections, l = done := by
  match h with
  | .nil => exact fun l hl => absurd hl List.not_mem_nil
  | .cons hl hi ht more =>
    rename_i g states rest ids₁ ids₂ ids₃ l number inner cases sections
    have first : unresolved inner (Stmt.targets inner) = [] := Due.closed hi
    have rest := DueBelow.closed more
    intro target ht
    change target ∈ unresolved inner (Stmt.targets inner) ++ [] ++ [] ++ done :: Stmt.targets sections
      at ht
    rw [first] at ht
    rcases List.mem_cons.mp ht with ht | ht
    · exact ht
    · exact rest target ht

end

/-- The labels of what is due are drawn for it. -/
theorem Due.nodup {f : FrameId} {ids ids' : FreshIds} {out : List Stmt}
    (h : Due frames handler cached f ids out ids') : (Stmt.labelsAll out).Nodup := by
  rw [List.nodup_iff_count_le_one]
  intro l
  rw [← Tally.stmts_ofLabel]
  have weight := h.weight (t := .ofLabel l)
  have tries : ∀ n, (Tally.ofLabel l).tries n = 0 := fun _ => rfl
  have labels : (Tally.ofLabel l).labels ids.labelCount ≤ 1 := by
    change (if _ then 1 else 0) ≤ 1
    split <;> omega
  rw [tries, tries] at weight
  omega

theorem lookup_section (states : List Int) (l : LabelId) (value : Int64) :
    (states.map fun state => (Int64.ofInt state, l)).lookup value =
      if ∃ s ∈ states, Int64.ofInt s = value then some l else none := by
  induction states with
  | nil => simp
  | cons s states ih =>
    rw [List.map_cons, List.lookup_cons, ih]
    by_cases here : Int64.ofInt s = value
    · simp [here]
    · simp [here, beq_false_of_ne (Ne.symm here)]

theorem DueBelow.lookup_eq_none {children : List (FrameId × List Int)} {done : LabelId}
    {ids ids' : FreshIds} {cases : List (Int64 × LabelId)} {sections : List Stmt} {value : Int64}
    (h : DueBelow frames handler cached children done ids cases sections ids')
    (other : ∀ child ∈ children, ∀ s ∈ child.2, Int64.ofInt s ≠ value) :
    cases.lookup value = none := by
  match h with
  | .nil => rfl
  | .cons hl hi ht more =>
    rename_i g states rest ids₁ ids₂ ids₃ l number inner cases sections
    have later := DueBelow.lookup_eq_none more fun child hc =>
      other child (List.mem_cons_of_mem _ hc)
    rw [List.lookup_append, later, Option.or_none, lookup_section, if_neg]
    rintro ⟨s, hs, same⟩
    exact other _ List.mem_cons_self s hs same

end

/-- The states of different children have different numbers. -/
def Separate (children : List (FrameId × List Int)) : Prop :=
  children.Pairwise fun a b => ∀ s ∈ a.2, ∀ s' ∈ b.2, Int64.ofInt s ≠ Int64.ofInt s'

section

variable {frames : FrameTree} {handler : Nat → SynthMethodId} {cached : LocalId} {used : Int → Prop}

theorem ofInt_inj {s s' : Int} (fits : Fits s) (fits' : Fits s')
    (h : Int64.ofInt s = Int64.ofInt s') : s = s' := by
  rw [← fits, ← fits', h]

theorem known_iff (nested : frames.Nested used) {f child : FrameId} {s : Int} :
    frames.known f s = some child ↔
      ∃ states, (child, states) ∈ frames.childrenByState f ∧ s ∈ states := by
  rw [← (FrameTree.groups_childrenByState frames f).mem]
  exact ⟨FrameTree.mem_of_lookup, FrameTree.lookup_eq_some_of_mem (nested.unique f)⟩

theorem separate (nested : frames.Nested used) (fits : ∀ s, used s → Fits s) (f : FrameId) :
    Separate (frames.childrenByState f) := by
  have distinct := (FrameTree.groups_childrenByState frames f).distinct
  rw [List.Nodup, List.pairwise_map] at distinct
  refine distinct.imp_of_mem fun {a b} ha hb other s hs s' hs' same => other ?_
  have here := (known_iff nested).mpr ⟨_, ha, hs⟩
  have there := (known_iff nested).mpr ⟨_, hb, hs'⟩
  obtain rfl := ofInt_inj (fits s (nested.known _ _ _ here).1) (fits s' (nested.known _ _ _ there).1)
    same
  exact Option.some.inj (here.symm.trans there)

mutual

/-- What is due under a frame is chosen by the state. -/
theorem Due.dueIn (nested : frames.Nested used) (fits : ∀ s, used s → Fits s) {f : FrameId}
    {ids ids' : FreshIds} {out : List Stmt} (h : Due frames handler cached f ids out ids') :
    DueIn frames handler cached f out := by
  match h with
  | .nothing childless =>
    refine .nothing fun s => Option.eq_none_iff_forall_ne_some.mpr fun child found => ?_
    obtain ⟨states, mem, -⟩ := (known_iff nested).mp found
    rw [childless] at mem
    cases mem
  | .children hd all =>
    rename_i ids₁ done cases sections
    have below := DueBelow.dueIn nested fits all (separate nested fits f)
    have chosen : ∀ g, ∃ (l : LabelId) (number : TryId) (inner : List Stmt),
        ∀ s, frames.known f s = some ⟨g + 1⟩ →
          cases.lookup (Int64.ofInt s) = some l ∧ (∃ rest,
            .label l :: .tryCatch number inner [] (some [.expr (.callSynthesized (handler g))]) ::
              .goto done :: rest <:+ sections) ∧ DueIn frames handler cached ⟨g + 1⟩ inner := by
      intro g
      by_cases child : ∃ states, (⟨g + 1⟩, states) ∈ frames.childrenByState f
      · obtain ⟨states, mem⟩ := child
        obtain ⟨l, number, inner, found, code, deeper⟩ := below g states mem
        refine ⟨l, number, inner, fun s known => ⟨found s ?_, code, deeper⟩⟩
        obtain ⟨states', mem', hs⟩ := (known_iff nested).mp known
        have distinct := (FrameTree.groups_childrenByState frames f).distinct
        have same := (FrameTree.lookup_eq_some_of_mem distinct mem).symm.trans
          (FrameTree.lookup_eq_some_of_mem distinct mem')
        cases same
        exact hs
      · refine ⟨default, default, [], fun s known => absurd ?_ child⟩
        obtain ⟨states, mem, -⟩ := (known_iff nested).mp known
        exact ⟨states, mem⟩
    choose label number inner each using chosen
    refine .children label number inner (fun s g known => (each g s known).1) (fun s fit none => ?_)
      (fun s g known => (each g s known).2.1) (fun s g known => (each g s known).2.2) ?_
    · refine all.lookup_eq_none fun child hc s' hs' same => ?_
      have known := (known_iff nested).mpr ⟨child.2, hc, hs'⟩
      obtain rfl := ofInt_inj (fits s' (nested.known _ _ _ known).1) fit same
      rw [none] at known
      cases known
    · have distinct := (Due.children hd all).nodup
      have plain : Stmt.plainLabelsAll (.switch (.local cached) cases none :: .goto done ::
          sections ++ [.label done]) = Stmt.plainLabelsAll sections ++ [done] :=
        Stmt.plainLabelsAll_append sections [.label done]
      exact plain ▸ distinct.sublist (Stmt.plainLabelsAll_sublist _)

theorem DueBelow.dueIn (nested : frames.Nested used) (fits : ∀ s, used s → Fits s)
    {children : List (FrameId × List Int)} {done : LabelId} {ids ids' : FreshIds}
    {cases : List (Int64 × LabelId)} {sections : List Stmt}
    (h : DueBelow frames handler cached children done ids cases sections ids')
    (separate : Separate children) :
    ∀ g states, (⟨g + 1⟩, states) ∈ children → ∃ (l : LabelId) (number : TryId) (inner : List Stmt),
      (∀ s ∈ states, cases.lookup (Int64.ofInt s) = some l) ∧ (∃ rest,
        .label l :: .tryCatch number inner [] (some [.expr (.callSynthesized (handler g))]) ::
          .goto done :: rest <:+ sections) ∧ DueIn frames handler cached ⟨g + 1⟩ inner := by
  match h with
  | .nil => exact fun g states mem => absurd mem List.not_mem_nil
  | .cons hl hi ht more =>
    rename_i g states rest ids₁ ids₂ ids₃ l number inner cases sections
    have first := Due.dueIn nested fits hi
    obtain ⟨apart, separate⟩ := List.pairwise_cons.mp separate
    have later := DueBelow.dueIn nested fits more separate
    intro g' states' mem
    rcases List.mem_cons.mp mem with same | mem
    · cases same
      refine ⟨l, number, inner, fun s hs => ?_, ⟨sections, List.suffix_rfl⟩, first⟩
      rw [List.lookup_append, lookup_section, if_pos ⟨s, hs, rfl⟩, Option.some_or]
    · obtain ⟨l', number', inner', found, ⟨rest', code⟩, deeper⟩ := later g' states' mem
      refine ⟨l', number', inner', fun s hs => ?_, ⟨rest', code.trans ?_⟩, deeper⟩
      · rw [List.lookup_append, lookup_section, if_neg, found s hs, Option.none_or]
        rintro ⟨s', hs', same⟩
        exact apart _ mem s' hs' s hs same
      · exact ⟨[_, _, _], rfl⟩

end

end

end Dispose

end ManagedCode
