import ManagedCode.Run.Jump

namespace ManagedCode

mutual

/-- The labels that are defined in a statement, in whatever region. -/
def Stmt.labels : Stmt → List LabelId
  | .label l => [l]
  | .block stmts => Stmt.labelsAll stmts
  | .tryCatch _ body catches none => Stmt.labelsAll body ++ Catch.labelsAll catches
  | .tryCatch _ body catches (some cleanup) =>
    Stmt.labelsAll body ++ Catch.labelsAll catches ++ Stmt.labelsAll cleanup
  | .tryFault body fault => Stmt.labelsAll body ++ Stmt.labelsAll fault
  | _ => []

def Stmt.labelsAll : List Stmt → List LabelId
  | [] => []
  | s :: ss => s.labels ++ Stmt.labelsAll ss

def Catch.labelsAll : List Catch → List LabelId
  | [] => []
  | .mk _ _ body :: cs => Stmt.labelsAll body ++ Catch.labelsAll cs

end

mutual

/-- The labels of a statement that can be reached from outside it. -/
def Stmt.plainLabels : Stmt → List LabelId
  | .label l => [l]
  | .block stmts => Stmt.plainLabelsAll stmts
  | _ => []

def Stmt.plainLabelsAll : List Stmt → List LabelId
  | [] => []
  | s :: ss => s.plainLabels ++ Stmt.plainLabelsAll ss

end

/-- The targets that are not among the labels that a list offers to jumps. -/
def unresolved (stmts : List Stmt) (targets : List LabelId) : List LabelId :=
  targets.filter (· ∉ Stmt.plainLabelsAll stmts)

mutual

/-- The targets of the jumps that lead out of a statement. -/
def Stmt.escapes : Stmt → List LabelId
  | .goto target => [target]
  | .condGoto _ _ target => [target]
  | .switch _ cases default? => cases.map (·.2) ++ default?.toList
  | .block stmts => unresolved stmts (Stmt.targets stmts)
  | .tryCatch _ body catches none => unresolved body (Stmt.targets body) ++ Catch.escapesAll catches
  | .tryCatch _ body catches (some cleanup) =>
    unresolved body (Stmt.targets body) ++ Catch.escapesAll catches ++
      unresolved cleanup (Stmt.targets cleanup)
  | .tryFault body fault =>
    unresolved body (Stmt.targets body) ++ unresolved fault (Stmt.targets fault)
  | _ => []

/-- The targets of the jumps that lead out of the statements of a list. -/
def Stmt.targets : List Stmt → List LabelId
  | [] => []
  | s :: ss => s.escapes ++ Stmt.targets ss

def Catch.escapesAll : List Catch → List LabelId
  | [] => []
  | .mk _ _ body :: cs => unresolved body (Stmt.targets body) ++ Catch.escapesAll cs

end

/-- The targets of the jumps that lead out of a list. -/
def Stmt.escapesAll (stmts : List Stmt) : List LabelId :=
  unresolved stmts (Stmt.targets stmts)

mutual

/-- There is a yield break in a statement. -/
def Stmt.breaks : Stmt → Bool
  | .yieldBreak => true
  | .block stmts => Stmt.anyBreaks stmts
  | .tryCatch _ body catches none => Stmt.anyBreaks body || Catch.anyBreaks catches
  | .tryCatch _ body catches (some cleanup) =>
    Stmt.anyBreaks body || Catch.anyBreaks catches || Stmt.anyBreaks cleanup
  | .tryFault body fault => Stmt.anyBreaks body || Stmt.anyBreaks fault
  | _ => false

def Stmt.anyBreaks : List Stmt → Bool
  | [] => false
  | s :: ss => s.breaks || Stmt.anyBreaks ss

def Catch.anyBreaks : List Catch → Bool
  | [] => false
  | .mk _ _ body :: cs => Stmt.anyBreaks body || Catch.anyBreaks cs

end

/-! Where a jump goes. -/

namespace Point

mutual

theorem isSome_find? (label : LabelId) (stmts rest : List Stmt) :
    (find? label stmts rest).isSome = true ↔ label ∈ Stmt.plainLabelsAll rest := by
  cases rest with
  | nil => simp [find?, Stmt.plainLabelsAll]
  | cons s rest =>
    have here := isSome_findIn? label stmts rest s
    have later := isSome_find? label stmts rest
    rw [find?, Stmt.plainLabelsAll, List.mem_append, ← here, ← later]
    cases findIn? label stmts rest s <;> simp

theorem isSome_findIn? (label : LabelId) (stmts rest : List Stmt) (s : Stmt) :
    (findIn? label stmts rest s).isSome = true ↔ label ∈ s.plainLabels := by
  cases s with
  | label l =>
    by_cases h : l = label
    · simp [findIn?, Stmt.plainLabels, h]
    · simp [findIn?, Stmt.plainLabels, h, Ne.symm h]
  | block inner =>
    rw [findIn?, Option.isSome_map, Stmt.plainLabels]
    exact isSome_find? label inner inner
  | _ => simp [findIn?, Stmt.plainLabels]

end

theorem find?_eq_none {label : LabelId} {stmts rest : List Stmt} :
    find? label stmts rest = none ↔ label ∉ Stmt.plainLabelsAll rest := by
  rw [← isSome_find? label stmts rest]
  cases find? label stmts rest <;> simp

theorem find?_append {label : LabelId} {stmts before rest : List Stmt}
    (h : label ∉ Stmt.plainLabelsAll before) :
    find? label stmts (before ++ rest) = find? label stmts rest := by
  induction before with
  | nil => rfl
  | cons s before ih =>
    rw [Stmt.plainLabelsAll, List.mem_append, not_or] at h
    have nowhere : findIn? label stmts (before ++ rest) s = none := by
      rw [← isSome_findIn? label stmts (before ++ rest) s] at h
      simpa using h.1
    rw [List.cons_append, find?, nowhere]
    exact ih h.2

end Point

theorem Stmt.plainLabelsAll_append (ss ts : List Stmt) :
    Stmt.plainLabelsAll (ss ++ ts) = Stmt.plainLabelsAll ss ++ Stmt.plainLabelsAll ts := by
  induction ss with
  | nil => rfl
  | cons s ss ih => rw [List.cons_append, plainLabelsAll, plainLabelsAll, ih, List.append_assoc]

theorem Stmt.mem_targets {ss : List Stmt} {s : Stmt} {label : LabelId} (hs : s ∈ ss)
    (h : label ∈ s.escapes) : label ∈ Stmt.targets ss := by
  induction ss with
  | nil => cases hs
  | cons t ss ih =>
    rw [Stmt.targets, List.mem_append]
    rcases List.mem_cons.mp hs with rfl | hs
    · exact .inl h
    · exact .inr (ih hs)

/-- A point in a list and the blocks in it. -/
inductive At (top : List Stmt) : Point → Prop
  | base {rest : List Stmt} (h : rest <:+ top) : At top [⟨top, rest⟩]
  | block {list inner rest after : List Stmt} {outer : Point} (ho : At top (⟨list, after⟩ :: outer))
    (hl : .block inner :: after <:+ list) (hi : rest <:+ inner) :
    At top (⟨inner, rest⟩ :: ⟨list, after⟩ :: outer)

/-- A list that is a block just before the point `outer`, or else all of it. -/
def Rooted (top : List Stmt) (list : List Stmt) (outer : Point) : Prop :=
  ∀ rest, rest <:+ list → At top (⟨list, rest⟩ :: outer)

namespace At

variable {top : List Stmt} {p q : Point} {label : LabelId}

theorem suffix {list rest : List Stmt} {outer : Point} (h : At top (⟨list, rest⟩ :: outer)) :
    rest <:+ list := by
  cases h with
  | base h => exact h
  | block _ _ hi => exact hi

/-- Statements that are done leave the point at home. -/
theorem later {list rest rest' : List Stmt} {outer : Point} (h : At top (⟨list, rest⟩ :: outer))
    (le : rest' <:+ rest) : At top (⟨list, rest'⟩ :: outer) := by
  cases h with
  | base h => exact .base (le.trans h)
  | block ho hl hi => exact .block ho hl (le.trans hi)

/-- A block that is due is rooted at the point after it. -/
theorem rooted {list inner rest : List Stmt} {outer : Point}
    (h : At top (⟨list, .block inner :: rest⟩ :: outer)) : Rooted top inner (⟨list, rest⟩ :: outer) :=
  fun _ le => .block (h.later (List.suffix_cons _ _)) h.suffix le

/-- What is due at a point is a statement of the list that it is in. -/
theorem next (h : At top p) {s : Stmt} {after : Point} (due : p.next? = some (s, after)) :
    ∃ list rest outer, after = ⟨list, rest⟩ :: outer ∧ At top (⟨list, s :: rest⟩ :: outer) := by
  induction h with
  | @base rest h =>
    cases rest with
    | nil => cases due
    | cons t rest =>
      cases due
      exact ⟨top, rest, [], rfl, .base h⟩
  | @block list inner rest after outer ho hl hi ih =>
    cases rest with
    | nil => exact ih due
    | cons t rest =>
      cases due
      exact ⟨inner, rest, ⟨list, after⟩ :: outer, rfl, .block ho hl hi⟩

/-- What blocks have from the lists that they are in, the list at a point has from the whole. -/
theorem inherits {P : List Stmt → Prop} (h : At top p)
    (down : ∀ {list inner}, P list → .block inner ∈ list → P inner) (whole : P top)
    {list rest : List Stmt} {outer : Point} (hp : p = ⟨list, rest⟩ :: outer) : P list := by
  induction h generalizing list rest outer with
  | base h =>
    cases hp
    exact whole
  | block ho hl hi ih =>
    cases hp
    exact down (ih rfl) (hl.mem List.mem_cons_self)

mutual

/-- Where a label is found the execution is at home. -/
theorem of_find? (list rest : List Stmt) {outer q : Point} (rooted : Rooted top list outer)
    (le : rest <:+ list) (found : Point.find? label list rest = some q) : At top (q ++ outer) := by
  cases rest with
  | nil => cases found
  | cons s rest =>
    rw [Point.find?] at found
    split at found
    next q' here =>
      cases found
      exact of_findIn? list rest s rooted le here
    next => exact of_find? list rest rooted ((List.suffix_cons s rest).trans le) found

theorem of_findIn? (list rest : List Stmt) (s : Stmt) {outer q : Point}
    (rooted : Rooted top list outer) (le : s :: rest <:+ list)
    (found : Point.findIn? label list rest s = some q) : At top (q ++ outer) := by
  cases s with
  | label l =>
    rw [Point.findIn?] at found
    split at found
    next =>
      cases found
      exact rooted _ le
    next => cases found
  | block inner =>
    rw [Point.findIn?] at found
    obtain ⟨q', within, rfl⟩ := Option.map_eq_some_iff.mp found
    rw [List.append_assoc]
    exact of_find? inner inner (rooted _ le).rooted List.suffix_rfl within
  | _ => cases found

end

/-- So it is after a jump. -/
theorem jump (h : At top p) (found : Point.jump? label p = some q) : At top q := by
  induction h with
  | base h =>
    rw [Point.jump?] at found
    split at found
    next q' here =>
      cases found
      exact of_find? top top (fun _ le => .base le) List.suffix_rfl here
    next => cases found
  | block ho hl hi ih =>
    rw [Point.jump?] at found
    split at found
    next q' here =>
      cases found
      exact of_find? _ _ (fun _ le => .block ho hl le) List.suffix_rfl here
    next => exact ih found

/-- A jump that leads nowhere leads out of the list. -/
theorem mem_escapesAll (h : At top p) {list rest : List Stmt} {outer : Point} {s : Stmt}
    (hp : p = ⟨list, rest⟩ :: outer) (hs : s ∈ list) (target : label ∈ s.escapes)
    (nowhere : Point.jump? label p = none) : label ∈ Stmt.escapesAll top := by
  have unresolved : ∀ {list : List Stmt} {s : Stmt}, s ∈ list → label ∈ s.escapes →
      Point.find? label list list = none → label ∈ Stmt.escapesAll list := by
    intro list s hs target missing
    exact List.mem_filter.mpr
      ⟨Stmt.mem_targets hs target, decide_eq_true (Point.find?_eq_none.mp missing)⟩
  induction h generalizing list rest outer s with
  | base h =>
    cases hp
    rw [Point.jump?] at nowhere
    split at nowhere
    next => cases nowhere
    next here => exact unresolved hs target here
  | block ho hl hi ih =>
    cases hp
    rw [Point.jump?] at nowhere
    split at nowhere
    next => cases nowhere
    next here =>
      exact ih rfl (hl.mem List.mem_cons_self)
        (show label ∈ Stmt.escapes (.block _) from unresolved hs target here) nowhere

theorem nodup (h : At top p) (unique : (Stmt.plainLabelsAll top).Nodup) {list rest : List Stmt}
    {outer : Point} (hp : p = ⟨list, rest⟩ :: outer) : (Stmt.plainLabelsAll list).Nodup := by
  induction h generalizing list rest outer with
  | base _ =>
    cases hp
    exact unique
  | block ho hl hi ih =>
    cases hp
    have around := ih rfl
    obtain ⟨first, rfl⟩ := hl
    rw [Stmt.plainLabelsAll_append, List.nodup_append, Stmt.plainLabelsAll, Stmt.plainLabels,
      List.nodup_append] at around
    exact around.2.1.1

/-- What a list leads to, the whole list leads to. -/
theorem find?_top (h : At top p) (unique : (Stmt.plainLabelsAll top).Nodup)
    {list rest : List Stmt} {outer : Point} (hp : p = ⟨list, rest⟩ :: outer) {q : Point}
    (found : Point.find? label list list = some q) :
    Point.find? label top top = some (q ++ outer) := by
  induction h generalizing list rest outer q with
  | base _ =>
    cases hp
    rw [found, List.append_nil]
  | block ho hl hi ih =>
    rename_i list' inner _ after outer'
    cases hp
    have distinct := ho.nodup unique rfl
    have mem : label ∈ Stmt.plainLabelsAll inner := by
      rw [← Point.isSome_find? label inner inner, found]
      rfl
    have around : Point.find? label list' list' = some (q ++ [⟨list', after⟩]) := by
      obtain ⟨first, hl⟩ := hl
      rw [← hl, Stmt.plainLabelsAll_append, List.nodup_append, Stmt.plainLabelsAll,
        Stmt.plainLabels] at distinct
      have absent : label ∉ Stmt.plainLabelsAll first := fun hm =>
        distinct.2.2 label hm label (List.mem_append_left _ mem) rfl
      have split : Point.find? label list' list' =
          Point.find? label list' (first ++ .block inner :: after) := by rw [hl]
      rw [split, Point.find?_append absent, Point.find?, Point.findIn?, found]
      rfl
    have := ih rfl around
    rwa [List.append_assoc] at this

/-- A jump from anywhere in a list goes where the whole list leads. -/
theorem jump?_eq (h : At top p) (unique : (Stmt.plainLabelsAll top).Nodup) :
    Point.jump? label p = Point.find? label top top := by
  induction h with
  | base _ =>
    rw [Point.jump?]
    cases Point.find? label top top with
    | none => rfl
    | some q => simp
  | block ho hl hi ih =>
    rename_i list' inner rest after outer'
    rw [Point.jump?]
    cases found : Point.find? label inner inner with
    | none => exact ih
    | some q => exact ((At.block ho hl hi).find?_top unique rfl found).symm

/-- The whole list leads to each point at which a label is due. -/
theorem find?_eq {list rest : List Stmt} {outer : Point}
    (h : At top (⟨list, .label label :: rest⟩ :: outer))
    (unique : (Stmt.plainLabelsAll top).Nodup) :
    Point.find? label top top = some (⟨list, .label label :: rest⟩ :: outer) := by
  have distinct := h.nodup unique rfl
  obtain ⟨first, hl⟩ := h.suffix
  have here : Point.find? label list list = some [⟨list, .label label :: rest⟩] := by
    have step : Point.find? label list list =
        Point.find? label list (first ++ .label label :: rest) := by rw [hl]
    have absent : label ∉ Stmt.plainLabelsAll first := by
      rw [← hl, Stmt.plainLabelsAll_append, List.nodup_append, Stmt.plainLabelsAll,
        Stmt.plainLabels] at distinct
      exact fun hm => distinct.2.2 label hm label (by simp) rfl
    rw [step, Point.find?_append absent, Point.find?, Point.findIn?, if_pos rfl]
  exact h.find?_top unique rfl here

end At

end ManagedCode
