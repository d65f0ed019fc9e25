import ManagedCode.Proofs.Body.WellFormed

namespace ManagedCode

/-! The statements inside a statement, at any depth. -/

/-- The code of a catch clause. -/
def Catch.code : Catch → List Stmt
  | .mk _ _ code => code

namespace Stmt

/-- A region of a statement; one of a fault region has no try id. -/
abbrev RegionOf := Option TryId × Region

/-- The lists that a statement is made of, each with the region that it is in, if it is in one. -/
inductive Part : Stmt → Option RegionOf → List Stmt → Prop
  | block {ss : List Stmt} : Part (.block ss) none ss
  | body {id : TryId} {body : List Stmt} {catches : List Catch} {finally? : Option (List Stmt)} :
    Part (.tryCatch id body catches finally?) (some (some id, .body)) body
  | catch_ {id : TryId} {body : List Stmt} {catches : List Catch} {finally? : Option (List Stmt)}
    {clause : Catch} (among : clause ∈ catches) :
    Part (.tryCatch id body catches finally?) (some (some id, .catch_)) clause.code
  | finally_ {id : TryId} {body : List Stmt} {catches : List Catch} {cleanup : List Stmt} :
    Part (.tryCatch id body catches (some cleanup)) (some (some id, .finally_)) cleanup
  | faultBody {body fault : List Stmt} : Part (.tryFault body fault) (some (none, .body)) body
  | fault {body fault : List Stmt} : Part (.tryFault body fault) (some (none, .fault)) fault

/-- A statement is inside another one, with the regions between them, outermost first. -/
inductive Inside (n : Stmt) : YieldFacts.Enclosing → Stmt → Prop
  | self : Inside n [] n
  | part {s s' : Stmt} {region : Option RegionOf} {ss : List Stmt} {regions : YieldFacts.Enclosing}
    (part : s.Part region ss) (among : s' ∈ ss) (inner : Inside n regions s') :
    Inside n (region.toList ++ regions) s

/-- A statement is inside a list. -/
def InsideAll (n : Stmt) (regions : YieldFacts.Enclosing) (ss : List Stmt) : Prop :=
  ∃ s ∈ ss, n.Inside regions s

section

variable {ss body fault : List Stmt} {id : TryId} {catches : List Catch}
  {finally? : Option (List Stmt)} {p : Option RegionOf → List Stmt → Prop}

theorem exists_part_block : (∃ region part, (Stmt.block ss).Part region part ∧ p region part) ↔
    p none ss := by
  constructor
  · rintro ⟨_, _, ⟨⟩, h⟩
    exact h
  · exact fun h => ⟨_, _, .block, h⟩

theorem exists_part_try :
    (∃ region part, (Stmt.tryCatch id body catches finally?).Part region part ∧ p region part) ↔
      p (some (some id, .body)) body ∨ (∃ c ∈ catches, p (some (some id, .catch_)) c.code) ∨
        ∃ cleanup, finally? = some cleanup ∧ p (some (some id, .finally_)) cleanup := by
  constructor
  · rintro ⟨_, _, part, h⟩
    cases part with
    | body => exact .inl h
    | catch_ among => exact .inr (.inl ⟨_, among, h⟩)
    | finally_ => exact .inr (.inr ⟨_, rfl, h⟩)
  · rintro (h | ⟨c, among, h⟩ | ⟨cleanup, rfl, h⟩)
    · exact ⟨_, _, .body, h⟩
    · exact ⟨_, _, .catch_ among, h⟩
    · exact ⟨_, _, .finally_, h⟩

theorem exists_part_fault :
    (∃ region part, (Stmt.tryFault body fault).Part region part ∧ p region part) ↔
      p (some (none, .body)) body ∨ p (some (none, .fault)) fault := by
  constructor
  · rintro ⟨_, _, part, h⟩
    cases part with
    | faultBody => exact .inl h
    | fault => exact .inr h
  · rintro (h | h)
    · exact ⟨_, _, .faultBody, h⟩
    · exact ⟨_, _, .fault, h⟩

theorem forall_part_block : (∀ region part, (Stmt.block ss).Part region part → p region part) ↔
    p none ss := by
  constructor
  · exact fun h => h _ _ .block
  · rintro h _ _ ⟨⟩
    exact h

theorem forall_part_try :
    (∀ region part, (Stmt.tryCatch id body catches finally?).Part region part → p region part) ↔
      p (some (some id, .body)) body ∧ (∀ c ∈ catches, p (some (some id, .catch_)) c.code) ∧
        ∀ cleanup, finally? = some cleanup → p (some (some id, .finally_)) cleanup := by
  constructor
  · refine fun h => ⟨h _ _ .body, fun c among => h _ _ (.catch_ among), ?_⟩
    rintro cleanup rfl
    exact h _ _ .finally_
  · rintro ⟨inBody, inCatches, inCleanup⟩ _ _ part
    cases part with
    | body => exact inBody
    | catch_ among => exact inCatches _ among
    | finally_ => exact inCleanup _ rfl

theorem forall_part_fault :
    (∀ region part, (Stmt.tryFault body fault).Part region part → p region part) ↔
      p (some (none, .body)) body ∧ p (some (none, .fault)) fault := by
  constructor
  · exact fun h => ⟨h _ _ .faultBody, h _ _ .fault⟩
  · rintro ⟨inBody, inFault⟩ _ _ part
    cases part with
    | faultBody => exact inBody
    | fault => exact inFault

end

theorem sizeOf_lt_of_part {s s' : Stmt} {region : Option RegionOf} {ss : List Stmt}
    (part : s.Part region ss) (among : s' ∈ ss) : sizeOf s' < sizeOf s := by
  have small := List.sizeOf_lt_of_mem among
  cases part with
  | catch_ clause =>
    rename_i c
    obtain ⟨ty, caught, code⟩ := c
    have inside := List.sizeOf_lt_of_mem clause
    simp only [Catch.code, Catch.mk.sizeOf_spec, tryCatch.sizeOf_spec] at small inside ⊢
    omega
  | block | body | faultBody | fault => 
    simp
    omega
  | finally_ => 
    simp
    omega

/-- What holds of a statement if it holds of the statements in its parts holds of every
statement. -/
theorem induct_parts {motive : Stmt → Prop}
    (step : ∀ s, (∀ {region ss s'}, s.Part region ss → s' ∈ ss → motive s') → motive s)
    (s : Stmt) : motive s :=
  step s fun {_ _ s'} _ _ => induct_parts step s'
termination_by sizeOf s
decreasing_by exact sizeOf_lt_of_part ‹_› ‹_›

variable {P Q : Stmt → Prop}

/-- What a statement has if it, or a statement in one of its parts, is of a kind, it has exactly if
there is one of the kind inside it. -/
theorem iff_exists_inside
    (step : ∀ s, P s ↔ Q s ∨ ∃ region ss, s.Part region ss ∧ ∃ s' ∈ ss, P s') (s : Stmt) :
    P s ↔ ∃ regions n, n.Inside regions s ∧ Q n := by
  constructor
  · induction s using induct_parts with
    | step s ih =>
      intro h
      rcases (step s).mp h with here | ⟨region, ss, part, s', among, deeper⟩
      · exact ⟨[], s, .self, here⟩
      · obtain ⟨regions, n, inside, kind⟩ := ih part among deeper
        exact ⟨_, n, .part part among inside, kind⟩
  · rintro ⟨regions, n, inside, kind⟩
    induction inside with
    | self => exact (step n).mpr (.inl kind)
    | part part among inner ih => exact (step _).mpr (.inr ⟨_, _, part, _, among, ih⟩)

/-- What a statement is if it, and each statement in its parts, is right, it is exactly if each
statement inside it is right. -/
theorem iff_forall_inside
    (step : ∀ s, P s ↔ Q s ∧ ∀ region ss, s.Part region ss → ∀ s' ∈ ss, P s') (s : Stmt) :
    P s ↔ ∀ regions n, n.Inside regions s → Q n := by
  constructor
  · intro h regions n inside
    induction inside with
    | self => exact ((step n).mp h).1
    | part part among inner ih => exact ih (((step _).mp h).2 _ _ part _ among)
  · induction s using induct_parts with
    | step s ih =>
      intro h
      refine (step s).mpr ⟨h [] s .self, fun region ss part s' among => ?_⟩
      exact ih part among fun regions n inside => h _ n (.part part among inside)

/-- What is inside a statement inside another one is inside that one. -/
theorem Inside.trans {n m s : Stmt} {inner outer : YieldFacts.Enclosing}
    (h : n.Inside inner m) (h' : m.Inside outer s) : n.Inside (outer ++ inner) s := by
  induction h' with
  | self => exact h
  | part part among _ ih =>
    rw [List.append_assoc]
    exact .part part among ih

/-- A region around a statement is a part of a statement around it. -/
theorem Inside.exists_part {n s : Stmt} {regions : YieldFacts.Enclosing} {region : RegionOf}
    (h : n.Inside regions s) (among : region ∈ regions) :
    ∃ outer, ∃ m : Stmt, ∃ ss inner, m.Inside outer s ∧ m.Part (some region) ss ∧
      n.InsideAll inner ss := by
  induction h with
  | self => cases among
  | @part s s' first ss regions part member inner ih =>
    rcases List.mem_append.mp among with here | deeper
    · obtain rfl := Option.mem_toList.mp here
      exact ⟨[], s, ss, regions, .self, part, s', member, inner⟩
    · obtain ⟨outer, m, ss', inner', around, part', inside⟩ := ih deeper
      exact ⟨_, m, ss', inner', .part part member around, part', inside⟩

theorem exists_insideAll_iff (h : ∀ s, P s ↔ ∃ regions n, n.Inside regions s ∧ Q n)
    {ss : List Stmt} : (∃ s ∈ ss, P s) ↔ ∃ regions n, n.InsideAll regions ss ∧ Q n := by
  constructor
  · rintro ⟨s, among, holds⟩
    obtain ⟨regions, n, inside, kind⟩ := (h s).mp holds
    exact ⟨regions, n, ⟨s, among, inside⟩, kind⟩
  · rintro ⟨regions, n, ⟨s, among, inside⟩, kind⟩
    exact ⟨s, among, (h s).mpr ⟨regions, n, inside, kind⟩⟩

/-! Yields, yield breaks, labels and try statements. -/

section

variable {ss : List Stmt} {cs : List Catch} {l : LabelId} {t : TryFacts}

theorem anyYields_iff : anyYields ss = true ↔ ∃ s ∈ ss, s.yields = true := by
  induction ss with
  | nil => simp [anyYields]
  | cons s ss ih => simp [anyYields, ih]

theorem anyYields_catches_iff :
    Catch.anyYields cs = true ↔ ∃ c ∈ cs, anyYields c.code = true := by
  induction cs with
  | nil => simp [Catch.anyYields]
  | cons c cs ih =>
    obtain ⟨ty, caught, code⟩ := c
    simp [Catch.anyYields, Catch.code, ih]

theorem anyBreaks_iff : anyBreaks ss = true ↔ ∃ s ∈ ss, s.breaks = true := by
  induction ss with
  | nil => simp [anyBreaks]
  | cons s ss ih => simp [anyBreaks, ih]

theorem anyBreaks_catches_iff :
    Catch.anyBreaks cs = true ↔ ∃ c ∈ cs, anyBreaks c.code = true := by
  induction cs with
  | nil => simp [Catch.anyBreaks]
  | cons c cs ih =>
    obtain ⟨ty, caught, code⟩ := c
    simp [Catch.anyBreaks, Catch.code, ih]

theorem mem_labelsAll_iff : l ∈ labelsAll ss ↔ ∃ s ∈ ss, l ∈ s.labels := by
  induction ss with
  | nil => simp [labelsAll]
  | cons s ss ih => simp [labelsAll, ih]

end

/-- A statement yields if there is a yield inside it. -/
theorem yields_iff_inside (s : Stmt) : s.yields = true ↔
    ∃ regions, ∃ n : Stmt, n.Inside regions s ∧ ∃ value, n = .yield value := by
  refine iff_exists_inside (P := fun s => s.yields = true) (fun s => ?_) s
  cases s with
  | block ss => simp [exists_part_block, yields, anyYields_iff]
  | tryCatch id body catches finally? =>
    rw [exists_part_try]
    cases finally? with
    | none => simp [yields, anyYields_iff, anyYields_catches_iff]
    | some cleanup => simp [yields, anyYields_iff, anyYields_catches_iff, or_assoc]
  | tryFault body fault => simp [exists_part_fault, yields, anyYields_iff]
  | _ =>
    rw [or_iff_left (by rintro ⟨_, _, ⟨⟩, _⟩)]
    simp [yields]

theorem breaks_iff_inside (s : Stmt) : s.breaks = true ↔
    ∃ regions, ∃ n : Stmt, n.Inside regions s ∧ n = .yieldBreak := by
  refine iff_exists_inside (P := fun s => s.breaks = true) (fun s => ?_) s
  cases s with
  | block ss => simp [exists_part_block, breaks, anyBreaks_iff]
  | tryCatch id body catches finally? =>
    rw [exists_part_try]
    cases finally? with
    | none => simp [breaks, anyBreaks_iff, anyBreaks_catches_iff]
    | some cleanup => simp [breaks, anyBreaks_iff, anyBreaks_catches_iff, or_assoc]
  | tryFault body fault => simp [exists_part_fault, breaks, anyBreaks_iff]
  | _ =>
    rw [or_iff_left (by rintro ⟨_, _, ⟨⟩, _⟩)]
    simp [breaks]

end Stmt

end ManagedCode
