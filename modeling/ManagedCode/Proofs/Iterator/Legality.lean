import ManagedCode.Proofs.Body.Parts
import ManagedCode.Proofs.Iterator.Analysis

namespace ManagedCode

/-! Which bodies the analysis accepts, and that it finds out the truth about them. -/

/-- A yield, a yield break or a try statement with a yield in its body is where it may not be. -/
inductive Stmt.Misplaced (root : List Stmt) : Prop
  /-- A yield in a catch, finally or fault clause, or in the body of a fault region. -/
  | yield {value : Expr} {regions : YieldFacts.Enclosing} {region : Stmt.RegionOf}
    (inside : (Stmt.yield value).InsideAll regions root) (among : region ∈ regions)
    (closed : region.2 ≠ .body ∨ region.1 = none)
  | yieldBreak {regions : YieldFacts.Enclosing} {region : Stmt.RegionOf}
    (inside : Stmt.yieldBreak.InsideAll regions root) (among : region ∈ regions)
    (clause : region.2 = .finally_)
  /-- A try statement that suspends but has a catch clause or no finally clause. -/
  | suspendingTry {id : TryId} {body : List Stmt} {catches : List Catch}
    {finally? : Option (List Stmt)} {regions inner : YieldFacts.Enclosing} {value : Expr}
    (inside : (Stmt.tryCatch id body catches finally?).InsideAll regions root)
    (suspends : (Stmt.yield value).InsideAll inner body)
    (unplain : catches ≠ [] ∨ finally? = none)

namespace Stmt

/-- What the analysis wants of a statement apart from what it wants of the statements in it. -/
def SuspendsHere : Stmt → Prop
  | .tryCatch _ body catches finally? =>
    (anyYields body = true → catches = [] ∧ finally? ≠ none) ∧
      Catch.anyYields catches = false ∧
      ∀ cleanup, finally? = some cleanup → anyYields cleanup = false ∧ anyBreaks cleanup = false
  | .tryFault body fault => anyYields body = false ∧ anyYields fault = false
  | _ => True

theorem suspendableAll_iff {ss : List Stmt} : SuspendableAll ss ↔ ∀ s ∈ ss, s.Suspendable := by
  induction ss with
  | nil => simp [SuspendableAll]
  | cons s ss ih => simp [SuspendableAll, ih]

theorem suspendable_catches_iff {cs : List Catch} :
    Catch.SuspendableAll cs ↔ ∀ c ∈ cs, SuspendableAll c.code := by
  induction cs with
  | nil => simp [Catch.SuspendableAll]
  | cons c cs ih =>
    obtain ⟨ty, caught, code⟩ := c
    simp [Catch.SuspendableAll, Catch.code, ih]

/-- A statement suspends only where it may if each statement inside it is as it should be. -/
theorem suspendable_iff_inside (s : Stmt) :
    s.Suspendable ↔ ∀ regions, ∀ n : Stmt, n.Inside regions s → n.SuspendsHere := by
  refine iff_forall_inside (P := Stmt.Suspendable) (fun s => ?_) s
  cases s with
  | block ss => simp [forall_part_block, Suspendable, suspendableAll_iff, SuspendsHere]
  | tryCatch id body catches finally? =>
    rw [forall_part_try]
    cases finally? with
    | none =>
      simp [Suspendable, suspendableAll_iff, suspendable_catches_iff, SuspendsHere, and_assoc]
    | some cleanup =>
      simp [Suspendable, suspendableAll_iff, suspendable_catches_iff, SuspendsHere]
      tauto
  | tryFault body fault =>
    simp [forall_part_fault, Suspendable, suspendableAll_iff, SuspendsHere, and_assoc]
  | _ =>
    refine ⟨fun _ => ⟨trivial, ?_⟩, fun _ => trivial⟩
    rintro _ _ ⟨⟩

/-- A part of a statement is free of yields unless it is the body of a try statement. -/
theorem SuspendsHere.quiet {s : Stmt} {region : RegionOf} {ss : List Stmt} (h : s.SuspendsHere)
    (part : s.Part (some region) ss) (closed : region.2 ≠ .body ∨ region.1 = none) :
    anyYields ss = false := by
  cases part with
  | body => simp at closed
  | catch_ among =>
    refine Bool.eq_false_iff.mpr fun yields => ?_
    have some := anyYields_catches_iff.mpr ⟨_, among, yields⟩
    rw [h.2.1] at some
    cases some
  | finally_ => exact (h.2.2 ss rfl).1
  | faultBody => exact h.1
  | fault => exact h.2

theorem anyYields_iff_inside {ss : List Stmt} :
    anyYields ss = true ↔ ∃ value regions, (Stmt.yield value).InsideAll regions ss := by
  rw [anyYields_iff, exists_insideAll_iff yields_iff_inside]
  constructor
  · rintro ⟨regions, n, inside, value, rfl⟩
    exact ⟨value, regions, inside⟩
  · rintro ⟨value, regions, inside⟩
    exact ⟨regions, _, inside, value, rfl⟩

theorem anyBreaks_iff_inside {ss : List Stmt} :
    anyBreaks ss = true ↔ ∃ regions, Stmt.yieldBreak.InsideAll regions ss := by
  rw [anyBreaks_iff, exists_insideAll_iff breaks_iff_inside]
  simp

/-- Nothing is misplaced in a list exactly if all of it suspends only where it may. -/
theorem suspendableAll_iff_not_misplaced {root : List Stmt} :
    SuspendableAll root ↔ ¬Misplaced root := by
  have everywhere : SuspendableAll root ↔
      ∀ regions, ∀ n : Stmt, n.InsideAll regions root → n.SuspendsHere := by
    rw [suspendableAll_iff]
    constructor
    · rintro fine regions n ⟨s, among, inside⟩
      exact (suspendable_iff_inside s).mp (fine s among) regions n inside
    · intro fine s among
      exact (suspendable_iff_inside s).mpr fun regions n inside => fine regions n ⟨s, among, inside⟩
  rw [everywhere]
  constructor
  · intro fine bad
    cases bad with
    | @yield value regions region inside among closed =>
      obtain ⟨s, member, inside⟩ := inside
      obtain ⟨outer, m, ss, inner, around, part, deeper⟩ := inside.exists_part among
      have quiet := (fine outer m ⟨s, member, around⟩).quiet part closed
      rw [anyYields_iff_inside.mpr ⟨value, inner, deeper⟩] at quiet
      cases quiet
    | @yieldBreak regions region inside among clause =>
      obtain ⟨s, member, inside⟩ := inside
      obtain ⟨outer, m, ss, inner, around, part, deeper⟩ := inside.exists_part among
      have here := fine outer m ⟨s, member, around⟩
      cases part with
      | finally_ =>
        have quiet := (here.2.2 ss rfl).2
        rw [anyBreaks_iff_inside.mpr ⟨inner, deeper⟩] at quiet
        cases quiet
      | _ => cases clause
    | @suspendingTry id body catches finally? regions inner value inside suspends unplain =>
      have here := (fine regions _ inside).1 (anyYields_iff_inside.mpr ⟨value, inner, suspends⟩)
      exact unplain.elim (fun some => some here.1) here.2
  · rintro fine regions n ⟨s, member, inside⟩
    -- What is found in a part of `n` is found in the whole list, below the region of the part.
    have below : ∀ {m : Stmt} {region : RegionOf} {ss : List Stmt} {inner : YieldFacts.Enclosing},
        n.Part (some region) ss → m.InsideAll inner ss →
        m.InsideAll (regions ++ region :: inner) root := by
      rintro m region ss inner part ⟨s', among, deeper⟩
      exact ⟨s, member, (Inside.part part among deeper).trans inside⟩
    have quiet : ∀ {region : RegionOf} {ss : List Stmt}, n.Part (some region) ss →
        region.2 ≠ .body ∨ region.1 = none → anyYields ss = false := by
      intro region ss part closed
      refine Bool.eq_false_iff.mpr fun yields => ?_
      obtain ⟨value, inner, deeper⟩ := anyYields_iff_inside.mp yields
      exact fine (.yield (below part deeper) (List.mem_append_right _ List.mem_cons_self) closed)
    cases n with
    | tryCatch id body catches finally? =>
      refine ⟨fun yields => ?_, Bool.eq_false_iff.mpr fun yields => ?_, ?_⟩
      · obtain ⟨value, inner, deeper⟩ := anyYields_iff_inside.mp yields
        refine ⟨?_, fun missing => ?_⟩
        · by_contra some
          exact fine (.suspendingTry ⟨s, member, inside⟩ deeper (.inl some))
        · exact fine (.suspendingTry ⟨s, member, inside⟩ deeper (.inr missing))
      · obtain ⟨c, among, yields⟩ := anyYields_catches_iff.mp yields
        rw [quiet (.catch_ among) (.inl (by rintro ⟨⟩))] at yields
        cases yields
      · rintro cleanup rfl
        refine ⟨quiet .finally_ (.inl (by rintro ⟨⟩)), Bool.eq_false_iff.mpr fun breaks => ?_⟩
        obtain ⟨inner, deeper⟩ := anyBreaks_iff_inside.mp breaks
        exact fine (.yieldBreak (below .finally_ deeper)
          (List.mem_append_right _ List.mem_cons_self) rfl)
    | tryFault body fault =>
      exact ⟨quiet .faultBody (.inr rfl), quiet .fault (.inr rfl)⟩
    | _ => trivial

end Stmt

namespace YieldFacts

/-- The try statements of a part of a body are new: no fact of them is known yet, and none of them
is around the part. -/
structure New (enclosing : Enclosing) (facts : YieldFacts) (tries : List TryFacts) : Prop where
  distinct : (tries.map (·.id)).Nodup
  unknown : ∀ t ∈ tries, t.id ∉ facts.suspending
  outside : ∀ t ∈ tries, t.id ∉ tryIds enclosing

namespace New

variable {enclosing : Enclosing} {facts facts' : YieldFacts} {tries tries' : List TryFacts}
  {id : TryId} {yields : Bool} {labels : List LabelId}

theorem first (h : New enclosing facts (tries ++ tries')) : New enclosing facts tries where
  distinct := by
    have distinct := h.distinct
    rw [List.map_append] at distinct
    exact (List.nodup_append.mp distinct).1
  unknown t ht := h.unknown t (List.mem_append_left _ ht)
  outside t ht := h.outside t (List.mem_append_left _ ht)

/-- After one part, the try statements of the next are still new. -/
theorem second (h : New enclosing facts (tries ++ tries'))
    (found : Finds (tryIds enclosing) yields labels tries facts facts') :
    New enclosing facts' tries' := by
  have distinct := h.distinct
  rw [List.map_append, List.nodup_append] at distinct
  refine ⟨distinct.2.1, fun t ht known => ?_, fun t ht => h.outside t (List.mem_append_right _ ht)⟩
  rcases (found.suspending t.id).mp known with before | ⟨-, around⟩ | ⟨t', ht', same, -⟩
  · exact h.unknown t (List.mem_append_right _ ht) before
  · exact h.outside t (List.mem_append_right _ ht) around
  · exact distinct.2.2 _ (List.mem_map_of_mem ht') _ (List.mem_map_of_mem ht) same

/-- In a try statement, those inside are new. -/
theorem inTry {t : TryFacts} (h : New enclosing facts (t :: tries)) (region : Region) :
    New (enclosing ++ [(some t.id, region)]) facts tries where
  distinct := (List.nodup_cons.mp h.distinct).2
  unknown t' ht' := h.unknown t' (List.mem_cons_of_mem _ ht')
  outside t' ht' around := by
    rw [tryIds_append, List.mem_append, List.mem_singleton] at around
    rcases around with around | same
    · exact h.outside t' (List.mem_cons_of_mem _ ht') around
    · exact (List.nodup_cons.mp h.distinct).1 (List.mem_map.mpr ⟨t', ht', same⟩)

/-- A new try statement is known to suspend only if there is a yield inside it. -/
theorem yields_of_mem {t : TryFacts} (h : New enclosing facts (t :: tries))
    (found : Finds (tryIds enclosing ++ [t.id]) yields labels tries facts facts')
    (known : t.id ∈ facts'.suspending) : yields = true := by
  rcases (found.suspending t.id).mp known with before | ⟨some, -⟩ | ⟨t', ht', same, -⟩
  · exact absurd before (h.unknown t List.mem_cons_self)
  · exact some
  · exact absurd (List.mem_map.mpr ⟨t', ht', same⟩) (List.nodup_cons.mp h.distinct).1

theorem inFault (h : New enclosing facts tries) (region : Region) :
    New (enclosing ++ [(none, region)]) facts tries where
  distinct := h.distinct
  unknown := h.unknown
  outside t ht := by
    rw [tryIds_append_none]
    exact h.outside t ht

end New

namespace Allows

variable {enclosing : Enclosing} {yields yields' breaks breaks' : Bool}

theorem first (h : Allows enclosing (yields || yields') (breaks || breaks')) :
    Allows enclosing yields breaks where
  yields some := h.yields (by rw [some, Bool.true_or])
  breaks some := h.breaks (by rw [some, Bool.true_or])

theorem second (h : Allows enclosing (yields || yields') (breaks || breaks')) :
    Allows enclosing yields' breaks' where
  yields some := h.yields (by rw [some, Bool.or_true])
  breaks some := h.breaks (by rw [some, Bool.or_true])

/-- The body of a try statement allows what is allowed around it. -/
theorem inBody (h : Allows enclosing yields breaks) (id : TryId) :
    Allows (enclosing ++ [(some id, .body)]) yields breaks where
  yields some region hr := by
    rcases List.mem_append.mp hr with outer | here
    · exact h.yields some region outer
    · rw [List.mem_singleton.mp here]
      exact ⟨nofun, rfl⟩
  breaks some region hr := by
    rcases List.mem_append.mp hr with outer | here
    · exact h.breaks some region outer
    · rw [List.mem_singleton.mp here]
      exact nofun

/-- Where there are no yields, every region allows them; a finally clause allows no yield break. -/
theorem inRegion (h : Allows enclosing yields breaks) (none : yields = false)
    {region : Stmt.RegionOf} (open_ : breaks = true → region.2 ≠ .finally_) :
    Allows (enclosing ++ [region]) yields breaks where
  yields some := by
    rw [none] at some
    cases some
  breaks some r hr := by
    rcases List.mem_append.mp hr with outer | here
    · exact h.breaks some r outer
    · rw [List.mem_singleton.mp here]
      exact open_ some

end Allows

theorem checkTry_ok {facts : YieldFacts} {id : TryId} {plain : Bool}
    (h : id ∈ facts.suspending → plain = true) : checkTry facts id plain = .ok facts := by
  unfold checkTry containsYield
  by_cases known : id ∈ facts.suspending
  · simp [known, h known]
  · simp [known]

mutual

/-- The analysis accepts a statement that suspends only where it may, in regions that allow it. -/
theorem exists_ofStmt (s : Stmt) (fine : s.Suspendable) {enclosing : Enclosing}
    {facts : YieldFacts} (allows : Allows enclosing s.yields s.breaks)
    (new : New enclosing facts s.tries) : ∃ facts', ofStmt enclosing facts s = .ok facts' := by
  cases s with
  | block ss => exact exists_ofStmts ss fine allows new
  | yield value =>
    have body : forbidden? enclosing = none := by
      refine List.find?_eq_none.mpr fun region hr => ?_
      obtain ⟨around, among, rfl⟩ := List.mem_map.mp hr
      simpa using (allows.yields rfl around among).2
    have named : ¬enclosing.any (·.1.isNone) = true := by
      intro some
      obtain ⟨around, among, unnamed⟩ := List.any_eq_true.mp some
      exact (allows.yields rfl around among).1 (Option.isNone_iff_eq_none.mp unnamed)
    refine ⟨facts.markSuspending (tryIds enclosing), ?_⟩
    rw [ofStmt, body]
    exact if_neg named
  | yieldBreak =>
    have open_ : ¬enclosing.any (·.2 = .finally_) = true := by
      intro some
      obtain ⟨around, among, clause⟩ := List.any_eq_true.mp some
      exact allows.breaks rfl around among (of_decide_eq_true clause)
    exact ⟨facts, if_neg open_⟩
  | tryCatch id body catches finally? =>
    cases finally? with
    | none =>
      obtain ⟨quietBody, quietCatches, fineBody, fineCatches⟩ := fine
      have inner : New enclosing facts (_ :: (Stmt.triesAll body ++ Catch.triesAll catches)) := new
      obtain ⟨facts₁, hb⟩ := exists_ofStmts body fineBody (allows.first.inBody id)
        (inner.inTry .body).first
      have foundBody := (ofStmts_eq_ok body hb).1
      have newCatches := (inner.inTry .catch_).second (by rwa [tryIds_append] at foundBody ⊢)
      obtain ⟨facts₂, hc⟩ := exists_ofCatches catches fineCatches
        (allows.second.inRegion quietCatches fun _ => Region.noConfusion) newCatches
      have foundCatches := (ofCatches_eq_ok catches hc).1
      rw [tryIds_append] at foundBody foundCatches
      refine ⟨facts₂, ?_⟩
      rw [ofStmt, hb]
      change (ofCatches _ facts₁ catches >>= fun facts => checkTry facts id false) = _
      rw [hc]
      refine checkTry_ok fun known => ?_
      have yields := inner.yields_of_mem (foundBody.andThen foundCatches) known
      rw [quietBody, quietCatches] at yields
      exact yields
    | some cleanup =>
      obtain ⟨plain, quietCatches, quietCleanup, unbroken, fineBody, fineCatches,
        fineCleanup⟩ := fine
      have inner : New enclosing facts (_ :: (Stmt.triesAll body ++ Catch.triesAll catches ++
        Stmt.triesAll cleanup)) := new
      obtain ⟨facts₁, hb⟩ := exists_ofStmts body fineBody (allows.first.first.inBody id)
        (inner.inTry .body).first.first
      have foundBody := (ofStmts_eq_ok body hb).1
      have newCatches := (inner.inTry .catch_).first.second (by rwa [tryIds_append] at foundBody ⊢)
      obtain ⟨facts₂, hc⟩ := exists_ofCatches catches fineCatches
        (allows.first.second.inRegion quietCatches fun _ => Region.noConfusion) newCatches
      have foundCatches := (ofCatches_eq_ok catches hc).1
      rw [tryIds_append] at foundBody foundCatches
      have found := foundBody.andThen foundCatches
      have newCleanup := (inner.inTry .finally_).second (by rwa [tryIds_append])
      obtain ⟨facts₃, hf⟩ := exists_ofStmts cleanup fineCleanup
        (allows.second.inRegion quietCleanup fun some => by rw [unbroken] at some; cases some)
        newCleanup
      have foundCleanup := (ofStmts_eq_ok cleanup hf).1
      rw [tryIds_append] at foundCleanup
      refine ⟨facts₃, ?_⟩
      rw [ofStmt, hb]
      change (ofCatches _ facts₁ catches >>= fun facts => ofStmts _ facts cleanup >>= fun facts =>
        checkTry facts id catches.isEmpty) = _
      rw [hc]
      change (ofStmts _ facts₂ cleanup >>= fun facts => checkTry facts id catches.isEmpty) = _
      rw [hf]
      refine checkTry_ok fun known => List.isEmpty_iff.mpr (plain ?_)
      have yields := inner.yields_of_mem (found.andThen foundCleanup) known
      rwa [quietCatches, quietCleanup, Bool.or_false, Bool.or_false] at yields
  | tryFault body fault =>
    obtain ⟨quietBody, quietFault, fineBody, fineFault⟩ := fine
    have inner : New enclosing facts (Stmt.triesAll body ++ Stmt.triesAll fault) := new
    obtain ⟨facts₁, hb⟩ := exists_ofStmts body fineBody
      (allows.first.inRegion quietBody fun _ => Region.noConfusion) (inner.first.inFault .body)
    have found := (ofStmts_eq_ok body hb).1
    rw [tryIds_append_none] at found
    obtain ⟨facts₂, hf⟩ := exists_ofStmts fault fineFault
      (allows.second.inRegion quietFault fun _ => Region.noConfusion)
      ((inner.second found).inFault .fault)
    refine ⟨facts₂, ?_⟩
    rw [ofStmt, hb]
    exact hf
  | _ => exact ⟨_, rfl⟩

theorem exists_ofStmts (ss : List Stmt) (fine : Stmt.SuspendableAll ss) {enclosing : Enclosing}
    {facts : YieldFacts} (allows : Allows enclosing (Stmt.anyYields ss) (Stmt.anyBreaks ss))
    (new : New enclosing facts (Stmt.triesAll ss)) :
    ∃ facts', ofStmts enclosing facts ss = .ok facts' := by
  cases ss with
  | nil => exact ⟨facts, rfl⟩
  | cons s ss =>
    obtain ⟨facts₁, hs⟩ := exists_ofStmt s fine.1 allows.first new.first
    obtain ⟨facts₂, hss⟩ := exists_ofStmts ss fine.2 allows.second
      (new.second (ofStmt_eq_ok s hs).1)
    refine ⟨facts₂, ?_⟩
    rw [ofStmts, hs]
    exact hss

theorem exists_ofCatches (cs : List Catch) (fine : Catch.SuspendableAll cs) {enclosing : Enclosing}
    {facts : YieldFacts} (allows : Allows enclosing (Catch.anyYields cs) (Catch.anyBreaks cs))
    (new : New enclosing facts (Catch.triesAll cs)) :
    ∃ facts', ofCatches enclosing facts cs = .ok facts' := by
  cases cs with
  | nil => exact ⟨facts, rfl⟩
  | cons c cs =>
    obtain ⟨ty, caught, body⟩ := c
    obtain ⟨facts₁, hb⟩ := exists_ofStmts body fine.1 allows.first new.first
    obtain ⟨facts₂, hcs⟩ := exists_ofCatches cs fine.2 allows.second
      (new.second (ofStmts_eq_ok body hb).1)
    refine ⟨facts₂, ?_⟩
    rw [ofCatches, ofCatch, hb]
    exact hcs

end

/-- The analysis accepts exactly the bodies in which nothing is misplaced. -/
theorem exists_ofBody_iff {body : Body} (unique : (Stmt.tryIdsAll body.root).Nodup) :
    (∃ facts, ofBody body = .ok facts) ↔ ¬Stmt.Misplaced body.root := by
  rw [← Stmt.suspendableAll_iff_not_misplaced]
  constructor
  · rintro ⟨facts, h⟩
    exact suspendable_ofBody h
  · intro fine
    have allows : Allows [] (Stmt.anyYields body.root) (Stmt.anyBreaks body.root) :=
      ⟨fun _ => nofun, fun _ => nofun⟩
    exact exists_ofStmts body.root fine allows ⟨unique, fun _ _ => nofun, fun _ _ => nofun⟩

end YieldFacts

end ManagedCode
