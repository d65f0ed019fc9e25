import Mathlib.Data.Set.Insert
import ManagedCode.Proofs.Body.WellFormed

namespace ManagedCode

/-! Definite assignment: code that reads a local only where it was assigned before. -/

/-- Any code that reads only some of the locals. -/
def Vocabulary.reading (known : Set LocalId) : Vocabulary :=
  { Vocabulary.any with locals := (· ∈ known) }

/-- Assigning to a place reads what is known. A local is not read. -/
def Place.Reads (known : Set LocalId) : Place → Prop
  | .local _ => True
  | place => place.Uses (.reading known)

mutual

/-- The locals that are assigned after a statement that began with some. After a label they are
those that every jump to it arrives with. -/
def Stmt.after (arrives : LabelId → Set LocalId) : Stmt → Set LocalId → Set LocalId
  | .assign (.local id) _, known => insert id known
  | .label l, _ => arrives l
  | .block stmts, known => Stmt.afterAll arrives stmts known
  | .goto _, _ | .ret _, _ | .throw _, _ => Set.univ
  | _, known => known

def Stmt.afterAll (arrives : LabelId → Set LocalId) : List Stmt → Set LocalId → Set LocalId
  | [], known => known
  | s :: ss, known => Stmt.afterAll arrives ss (s.after arrives known)

end

mutual

/-- A statement that begins with some locals assigned reads no others, and its jumps arrive with
what they must. An exception may leave a region at any time, so that its clauses begin with no more.
-/
def Stmt.Assigned (arrives : LabelId → Set LocalId) (known : Set LocalId) : Stmt → Prop
  | .block stmts => Stmt.AssignedAll arrives known stmts
  | .expr value | .throw value | .yield value => value.Uses (.reading known)
  | .assign place value => place.Reads known ∧ value.Uses (.reading known)
  | .label l | .goto l => arrives l ⊆ known
  | .condGoto cond _ target => cond.Uses (.reading known) ∧ arrives target ⊆ known
  | .switch scrutinee cases default? =>
    scrutinee.Uses (.reading known) ∧
      ∀ l ∈ cases.map (·.2) ++ default?.toList, arrives l ⊆ known
  | .ret none | .yieldBreak | .nop => True
  | .ret (some value) => value.Uses (.reading known)
  | .tryCatch _ body catches none =>
    Stmt.AssignedAll arrives known body ∧ Catch.AssignedAll arrives known catches
  | .tryCatch _ body catches (some cleanup) =>
    Stmt.AssignedAll arrives known body ∧ Catch.AssignedAll arrives known catches ∧
      Stmt.AssignedAll arrives known cleanup
  | .tryFault body fault =>
    Stmt.AssignedAll arrives known body ∧ Stmt.AssignedAll arrives known fault

def Stmt.AssignedAll (arrives : LabelId → Set LocalId) (known : Set LocalId) : List Stmt → Prop
  | [] => True
  | s :: ss => s.Assigned arrives known ∧ Stmt.AssignedAll arrives (s.after arrives known) ss

/-- A clause begins with the local that it catches the exception in. -/
def Catch.AssignedAll (arrives : LabelId → Set LocalId) (known : Set LocalId) : List Catch → Prop
  | [] => True
  | .mk _ none body :: cs =>
    Stmt.AssignedAll arrives known body ∧ Catch.AssignedAll arrives known cs
  | .mk _ (some caught) body :: cs =>
    Stmt.AssignedAll arrives (insert caught known) body ∧ Catch.AssignedAll arrives known cs

end

variable {arrives : LabelId → Set LocalId} {known : Set LocalId}

theorem Stmt.assignedAll_append {ss ts : List Stmt} :
    Stmt.AssignedAll arrives known (ss ++ ts) ↔
      Stmt.AssignedAll arrives known ss ∧
        Stmt.AssignedAll arrives (Stmt.afterAll arrives ss known) ts := by
  induction ss generalizing known with
  | nil => exact (and_iff_right trivial).symm
  | cons s ss ih => rw [List.cons_append, AssignedAll, AssignedAll, ih, and_assoc, Stmt.afterAll]

/-! Code that reads only locals that stay assigned. -/

section

variable {base : Set LocalId}

theorem Vocabulary.reading_within (more : base ⊆ known) :
    (Vocabulary.reading base).Within (.reading known) where
  locals h := more h
  params h := h
  slots h := h
  methods h := h
  suspends h := h
  returns h := h

theorem Place.reads_of_uses (more : base ⊆ known) {place : Place} (h : place.Uses (.reading base)) :
    place.Reads known := by
  cases place with
  | «local» id => trivial
  | _ => exact Place.Uses.mono (Vocabulary.reading_within more) _ h

mutual

/-- Where every jump arrives with some locals, code may read these from wherever they are assigned.
-/
theorem Stmt.assigned_of_uses (s : Stmt) (h : s.Uses (.reading base)) {known : Set LocalId}
    (more : base ⊆ known) :
    s.Assigned (fun _ => base) known ∧ base ⊆ s.after (fun _ => base) known := by
  have reads : ∀ {e : Expr}, e.Uses (.reading base) → e.Uses (.reading known) := fun {e} =>
    Expr.Uses.mono (Vocabulary.reading_within more) e
  cases s with
  | block stmts => exact Stmt.assignedAll_of_usesAll stmts h more
  | expr value => exact ⟨reads h, more⟩
  | throw value => exact ⟨reads h, Set.subset_univ _⟩
  | assign place value =>
    refine ⟨⟨Place.reads_of_uses more h.1, reads h.2⟩, ?_⟩
    cases place with
    | «local» id => exact more.trans (Set.subset_insert _ _)
    | _ => exact more
  | label l => exact ⟨more, subset_rfl⟩
  | goto target => exact ⟨more, Set.subset_univ _⟩
  | condGoto cond jumpIf target => exact ⟨⟨reads h, more⟩, more⟩
  | switch scrutinee cases default? => exact ⟨⟨reads h, fun _ _ => more⟩, more⟩
  | ret value =>
    cases value with
    | none => exact ⟨trivial, Set.subset_univ _⟩
    | some value => exact ⟨reads h.2, Set.subset_univ _⟩
  | yield value => exact ⟨reads h.2, more⟩
  | yieldBreak | nop => exact ⟨trivial, more⟩
  | tryCatch id body catches cleanup =>
    cases cleanup with
    | none =>
      exact ⟨⟨(Stmt.assignedAll_of_usesAll body h.1 more).1,
        Catch.assignedAll_of_usesAll catches h.2 more⟩, more⟩
    | some cleanup =>
      exact ⟨⟨(Stmt.assignedAll_of_usesAll body h.1 more).1,
        Catch.assignedAll_of_usesAll catches h.2.1 more,
        (Stmt.assignedAll_of_usesAll cleanup h.2.2 more).1⟩, more⟩
  | tryFault body fault =>
    exact ⟨⟨(Stmt.assignedAll_of_usesAll body h.1 more).1,
      (Stmt.assignedAll_of_usesAll fault h.2 more).1⟩, more⟩

theorem Stmt.assignedAll_of_usesAll (ss : List Stmt) (h : Stmt.UsesAll (.reading base) ss)
    {known : Set LocalId} (more : base ⊆ known) :
    Stmt.AssignedAll (fun _ => base) known ss ∧ base ⊆ Stmt.afterAll (fun _ => base) ss known := by
  cases ss with
  | nil => exact ⟨trivial, more⟩
  | cons s ss =>
    obtain ⟨first, later⟩ := Stmt.assigned_of_uses s h.1 more
    obtain ⟨rest, last⟩ := Stmt.assignedAll_of_usesAll ss h.2 later
    exact ⟨⟨first, rest⟩, last⟩

theorem Catch.assignedAll_of_usesAll (cs : List Catch) (h : Catch.UsesAll (.reading base) cs)
    {known : Set LocalId} (more : base ⊆ known) : Catch.AssignedAll (fun _ => base) known cs := by
  cases cs with
  | nil => trivial
  | cons c cs =>
    obtain ⟨ty, caught, body⟩ := c
    have rest := Catch.assignedAll_of_usesAll cs h.2.2 more
    cases caught with
    | none => exact ⟨(Stmt.assignedAll_of_usesAll body h.2.1 more).1, rest⟩
    | some caught =>
      have inside : base ⊆ insert caught known := more.trans (Set.subset_insert _ _)
      exact ⟨(Stmt.assignedAll_of_usesAll body h.2.1 inside).1, rest⟩

end

end

namespace Point

/-- The statements at a point, and those after the blocks around it, go on with some locals
assigned; a jump back into one of these lists goes on likewise. -/
def Assigned (arrives : LabelId → Set LocalId) : Set LocalId → Point → Prop
  | _, [] => True
  | known, ⟨stmts, rest⟩ :: outer =>
    Stmt.AssignedAll arrives known rest ∧
      (∃ start, Stmt.AssignedAll arrives start stmts ∧
        Stmt.afterAll arrives stmts start = Stmt.afterAll arrives rest known) ∧
      Assigned arrives (Stmt.afterAll arrives rest known) outer

theorem Assigned.base {stmts : List Stmt} (h : Stmt.AssignedAll arrives known stmts) :
    Assigned arrives known (.start stmts) :=
  ⟨h, ⟨known, h, rfl⟩, trivial⟩

/-- A block that is due is entered with what is known before it. -/
theorem Assigned.block {list inner rest : List Stmt} {outer : Point}
    (h : Assigned arrives known (⟨list, .block inner :: rest⟩ :: outer)) :
    Assigned arrives known (⟨inner, inner⟩ :: ⟨list, rest⟩ :: outer) :=
  ⟨h.1.1, ⟨known, h.1.1, rfl⟩, h.1.2, h.2.1, h.2.2⟩

/-- What is due is a statement that reads what is known, and the rest goes on after it. -/
theorem Assigned.next {p after : Point} {s : Stmt} (h : Assigned arrives known p)
    (due : p.next? = some (s, after)) :
    ∃ list rest outer, after = ⟨list, rest⟩ :: outer ∧
      Assigned arrives known (⟨list, s :: rest⟩ :: outer) := by
  induction p with
  | nil => cases due
  | cons scope outer ih =>
    obtain ⟨list, rest⟩ := scope
    cases rest with
    | nil => exact ih h.2.2 due
    | cons t rest =>
      cases due
      exact ⟨list, rest, outer, rfl, h⟩

theorem Assigned.later {list rest : List Stmt} {outer : Point} {s : Stmt}
    (h : Assigned arrives known (⟨list, s :: rest⟩ :: outer)) :
    Assigned arrives (s.after arrives known) (⟨list, rest⟩ :: outer) :=
  ⟨h.1.2, h.2.1, h.2.2⟩

mutual

/-- A label that is found in a list is a point to go on from with what every jump arrives with. -/
theorem Assigned.of_find? {label : LabelId} {list : List Stmt} {start : Set LocalId}
    (whole : Stmt.AssignedAll arrives start list)
    (rest : List Stmt) {known : Set LocalId} (here : Stmt.AssignedAll arrives known rest)
    (same : Stmt.afterAll arrives list start = Stmt.afterAll arrives rest known) {outer q : Point}
    (around : Assigned arrives (Stmt.afterAll arrives rest known) outer)
    (found : Point.find? label list rest = some q) :
    Assigned arrives (arrives label) (q ++ outer) := by
  cases rest with
  | nil => cases found
  | cons s rest =>
    rw [Point.find?] at found
    split at found
    next q' within =>
      cases found
      exact Assigned.of_findIn? whole s here.1 here.2 same around within
    next => exact Assigned.of_find? whole rest here.2 same around found

theorem Assigned.of_findIn? {label : LabelId} {list : List Stmt} {start : Set LocalId}
    (whole : Stmt.AssignedAll arrives start list) (s : Stmt) {rest : List Stmt}
    {known : Set LocalId} (here : s.Assigned arrives known)
    (later : Stmt.AssignedAll arrives (s.after arrives known) rest)
    (same : Stmt.afterAll arrives list start = Stmt.afterAll arrives (s :: rest) known)
    {outer q : Point} (around : Assigned arrives (Stmt.afterAll arrives (s :: rest) known) outer)
    (found : Point.findIn? label list rest s = some q) :
    Assigned arrives (arrives label) (q ++ outer) := by
  cases s with
  | label l =>
    rw [Point.findIn?] at found
    split at found
    next is =>
      cases found
      subst is
      exact ⟨⟨subset_rfl, later⟩, ⟨start, whole, same⟩, around⟩
    next => cases found
  | block inner =>
    rw [Point.findIn?] at found
    obtain ⟨q', within, rfl⟩ := Option.map_eq_some_iff.mp found
    rw [List.append_assoc]
    exact Assigned.of_find? here inner here rfl ⟨later, ⟨start, whole, same⟩, around⟩ within
  | _ => cases found

end

/-- So it is with the point that a jump goes to. -/
theorem Assigned.jump {label : LabelId} {p q : Point} (h : Assigned arrives known p)
    (found : Point.jump? label p = some q) : Assigned arrives (arrives label) q := by
  induction p generalizing known with
  | nil => cases found
  | cons scope outer ih =>
    obtain ⟨list, rest⟩ := scope
    obtain ⟨-, ⟨start, whole, same⟩, around⟩ := h
    rw [Point.jump?] at found
    split at found
    next q' within =>
      cases found
      exact Assigned.of_find? whole list whole rfl (same ▸ around) within
    next => exact ih around found

end Point

end ManagedCode
