import Mathlib.Data.List.Nodup
import Mathlib.Tactic.Tauto
import ManagedCode.Proofs.Body.WellFormed
import ManagedCode.Proofs.Step

namespace ManagedCode

/-! What the analysis of a body finds out. -/

mutual

/-- A statement suspends only where it may: a yield lies in no clause and under no fault region, a
try statement that suspends is a plain try/finally, and no finally clause leaves the body. -/
def Stmt.Suspendable : Stmt → Prop
  | .block stmts => Stmt.SuspendableAll stmts
  | .tryCatch _ body catches none =>
    Stmt.anyYields body = false ∧ Catch.anyYields catches = false ∧ Stmt.SuspendableAll body ∧
      Catch.SuspendableAll catches
  | .tryCatch _ body catches (some cleanup) =>
    (Stmt.anyYields body = true → catches = []) ∧ Catch.anyYields catches = false ∧
      Stmt.anyYields cleanup = false ∧ Stmt.anyBreaks cleanup = false ∧
      Stmt.SuspendableAll body ∧ Catch.SuspendableAll catches ∧ Stmt.SuspendableAll cleanup
  | .tryFault body fault =>
    Stmt.anyYields body = false ∧ Stmt.anyYields fault = false ∧ Stmt.SuspendableAll body ∧
      Stmt.SuspendableAll fault
  | _ => True

def Stmt.SuspendableAll : List Stmt → Prop
  | [] => True
  | s :: ss => s.Suspendable ∧ Stmt.SuspendableAll ss

def Catch.SuspendableAll : List Catch → Prop
  | [] => True
  | .mk _ _ body :: cs => Stmt.SuspendableAll body ∧ Catch.SuspendableAll cs

end

namespace YieldFacts

/-- How the facts grow with a part of a body, where `ids` are the try statements around it. -/
structure Finds (ids : List TryId) (yields : Bool) (labels : List LabelId) (tries : List TryFacts)
    (facts facts' : YieldFacts) : Prop where
  suspending : ∀ id, id ∈ facts'.suspending ↔ id ∈ facts.suspending ∨
    (yields = true ∧ id ∈ ids) ∨ ∃ t ∈ tries, t.id = id ∧ t.yields = true
  labelIn : ∀ id l, (id, l) ∈ facts'.labelIn ↔ (id, l) ∈ facts.labelIn ∨
    (l ∈ labels ∧ id ∈ ids) ∨ ∃ t ∈ tries, t.id = id ∧ l ∈ t.labels

/-- The regions around a part of a body allow the yields and yield breaks in it. -/
structure Allows (enclosing : Enclosing) (yields breaks : Bool) : Prop where
  yields : yields = true → ∀ region ∈ enclosing, region.1 ≠ none ∧ region.2 = .body
  breaks : breaks = true → ∀ region ∈ enclosing, region.2 ≠ .finally_

variable {enclosing : Enclosing} {facts facts' facts'' : YieldFacts} {id : TryId}

theorem mem_markSuspending (ids : List TryId) :
    id ∈ (facts.markSuspending ids).suspending ↔ id ∈ facts.suspending ∨ id ∈ ids := by
  unfold markSuspending
  dsimp only
  generalize facts.suspending = known
  induction ids generalizing known with
  | nil => simp
  | cons first ids ih =>
    rw [List.foldl_cons, ih, List.mem_insert_iff, List.mem_cons, or_comm (a := id = first),
      or_assoc]

theorem mem_addLabel (ids : List TryId) {l label : LabelId} :
    (id, l) ∈ (facts.addLabel ids label).labelIn ↔
      (id, l) ∈ facts.labelIn ∨ (l = label ∧ id ∈ ids) := by
  unfold addLabel
  dsimp only
  generalize facts.labelIn = known
  induction ids generalizing known with
  | nil => simp
  | cons first ids ih =>
    rw [List.foldl_cons, ih, List.mem_insert_iff, List.mem_cons, Prod.mk.injEq]
    tauto

theorem tryIds_append (id : TryId) (region : Region) :
    tryIds (enclosing ++ [(some id, region)]) = tryIds enclosing ++ [id] := by
  unfold tryIds
  rw [List.filterMap_append]
  rfl

theorem tryIds_append_none (region : Region) :
    tryIds (enclosing ++ [(none, region)]) = tryIds enclosing := by
  unfold tryIds
  rw [List.filterMap_append]
  exact List.append_nil _

namespace Finds

variable {ids : List TryId} {yields yields' : Bool} {labels labels' : List LabelId}
  {tries tries' : List TryFacts}

theorem nothing (ids : List TryId) (facts : YieldFacts) : Finds ids false [] [] facts facts where
  suspending id := by simp
  labelIn id l := by simp

theorem andThen (h : Finds ids yields labels tries facts facts')
    (h' : Finds ids yields' labels' tries' facts' facts'') :
    Finds ids (yields || yields') (labels ++ labels') (tries ++ tries') facts facts'' where
  suspending id := by
    rw [h'.suspending, h.suspending, Bool.or_eq_true, or_and_right]
    simp only [List.mem_append, or_and_right, exists_or]
    exact iff_of_eq (by ac_rfl)
  labelIn id l := by
    rw [h'.labelIn, h.labelIn]
    simp only [List.mem_append, or_and_right, exists_or]
    exact iff_of_eq (by ac_rfl)

/-- What is found in a try statement is found of it, too. -/
theorem inTry (h : Finds (ids ++ [id]) yields labels tries facts facts') :
    Finds ids yields labels (⟨id, yields, labels⟩ :: tries) facts facts' where
  suspending other := by
    rw [h.suspending]
    simp only [List.mem_append, List.mem_cons, or_and_right, exists_or,
      exists_eq_left, eq_comm (a := other)]
    tauto
  labelIn other l := by
    rw [h.labelIn]
    simp only [List.mem_append, List.mem_cons, or_and_right, exists_or,
      exists_eq_left, eq_comm (a := other)]
    tauto

/-- A try statement in which there is a yield suspends. -/
theorem mem_suspending (h : Finds (ids ++ [id]) yields labels tries facts facts')
    (some : yields = true) : id ∈ facts'.suspending :=
  (h.suspending id).mpr (.inr (.inl ⟨some, List.mem_append_right _ List.mem_cons_self⟩))

theorem mono (h : Finds ids yields labels tries facts facts') {id : TryId}
    (known : id ∈ facts.suspending) : id ∈ facts'.suspending :=
  (h.suspending id).mpr (.inl known)

end Finds

namespace Allows

variable {yields yields' breaks breaks' : Bool} {region : Option TryId × Region}

theorem nothing (enclosing : Enclosing) : Allows enclosing false false where
  yields h := by cases h
  breaks h := by cases h

theorem andThen (h : Allows enclosing yields breaks) (h' : Allows enclosing yields' breaks') :
    Allows enclosing (yields || yields') (breaks || breaks') where
  yields some := ((Bool.or_eq_true _ _).mp some).elim h.yields h'.yields
  breaks some := ((Bool.or_eq_true _ _).mp some).elim h.breaks h'.breaks

theorem outer (h : Allows (enclosing ++ [region]) yields breaks) :
    Allows enclosing yields breaks where
  yields some r hr := h.yields some r (List.mem_append_left _ hr)
  breaks some r hr := h.breaks some r (List.mem_append_left _ hr)

theorem no_yields (h : Allows (enclosing ++ [region]) yields breaks)
    (clause : region.1 = none ∨ region.2 ≠ .body) : yields = false := by
  refine Bool.eq_false_iff.mpr fun some => ?_
  obtain ⟨named, body⟩ := h.yields some region (List.mem_append_right _ List.mem_cons_self)
  exact clause.elim named fun other => other body

theorem no_breaks (h : Allows (enclosing ++ [region]) yields breaks)
    (clause : region.2 = .finally_) : breaks = false :=
  Bool.eq_false_iff.mpr fun some =>
    h.breaks some region (List.mem_append_right _ List.mem_cons_self) clause

end Allows

theorem checkTry_eq_ok {plain : Bool} (h : checkTry facts id plain = .ok facts') :
    facts' = facts ∧ (id ∈ facts.suspending → plain = true) := by
  unfold checkTry containsYield at h
  split at h
  next => cases h
  next fine =>
    cases h
    refine ⟨rfl, fun known => ?_⟩
    simpa [known] using fine

mutual

theorem ofStmt_eq_ok (s : Stmt) {enclosing : Enclosing} {facts facts' : YieldFacts}
    (h : ofStmt enclosing facts s = .ok facts') :
    Finds (tryIds enclosing) s.yields s.labels s.tries facts facts' ∧
      Allows enclosing s.yields s.breaks ∧ s.Suspendable := by
  cases s with
  | block stmts => exact ofStmts_eq_ok stmts h
  | label l =>
    cases h
    refine ⟨⟨fun id => by simp [addLabel, Stmt.yields, Stmt.tries], fun id label => ?_⟩,
      .nothing _, trivial⟩
    rw [mem_addLabel]
    simp [Stmt.labels, Stmt.tries]
  | yield value =>
    rw [ofStmt] at h
    split at h
    next => cases h
    next allowed =>
      split at h
      next => cases h
      next named =>
        cases h
        refine ⟨⟨fun id => ?_, fun id l => by simp [markSuspending, Stmt.labels, Stmt.tries]⟩,
          ⟨fun _ region hr => ⟨fun unnamed => ?_, ?_⟩, nofun⟩, trivial⟩
        · rw [mem_markSuspending]
          simp [Stmt.yields, Stmt.tries]
        · exact named (List.any_eq_true.mpr ⟨region, hr, by rw [unnamed]; rfl⟩)
        · have body := List.find?_eq_none.mp allowed region.2 (List.mem_map_of_mem hr)
          simpa using body
  | yieldBreak =>
    rw [ofStmt] at h
    split at h
    next => cases h
    next allowed =>
      cases h
      refine ⟨.nothing _ _, ⟨nofun, fun _ region hr clause => ?_⟩, trivial⟩
      exact allowed (List.any_eq_true.mpr ⟨region, hr, decide_eq_true clause⟩)
  | tryCatch id body catches cleanup =>
    cases cleanup with
    | none =>
      rw [ofStmt, except_bind_eq_ok] at h
      obtain ⟨facts₁, hb, h⟩ := h
      rw [except_bind_eq_ok] at h
      obtain ⟨facts₂, hc, h⟩ := h
      obtain ⟨rfl, plain⟩ := checkTry_eq_ok h
      obtain ⟨foundBody, allowsBody, fineBody⟩ := ofStmts_eq_ok body hb
      obtain ⟨foundCatches, allowsCatches, fineCatches⟩ := ofCatches_eq_ok catches hc
      rw [tryIds_append] at foundBody foundCatches
      have native : Stmt.anyYields body = false := by
        refine Bool.eq_false_iff.mpr fun some => ?_
        cases plain (foundCatches.mono (foundBody.mem_suspending some))
      exact ⟨(foundBody.andThen foundCatches).inTry, allowsBody.outer.andThen allowsCatches.outer,
        native, allowsCatches.no_yields (.inr nofun), fineBody, fineCatches⟩
    | some cleanup =>
      rw [ofStmt, except_bind_eq_ok] at h
      obtain ⟨facts₁, hb, h⟩ := h
      rw [except_bind_eq_ok] at h
      obtain ⟨facts₂, hc, h⟩ := h
      rw [except_bind_eq_ok] at h
      obtain ⟨facts₃, hf, h⟩ := h
      obtain ⟨rfl, plain⟩ := checkTry_eq_ok h
      obtain ⟨foundBody, allowsBody, fineBody⟩ := ofStmts_eq_ok body hb
      obtain ⟨foundCatches, allowsCatches, fineCatches⟩ := ofCatches_eq_ok catches hc
      obtain ⟨foundCleanup, allowsCleanup, fineCleanup⟩ := ofStmts_eq_ok cleanup hf
      rw [tryIds_append] at foundBody foundCatches foundCleanup
      have suspending : Stmt.anyYields body = true → catches = [] := fun some =>
        List.isEmpty_iff.mp
          (plain (foundCleanup.mono (foundCatches.mono (foundBody.mem_suspending some))))
      exact ⟨((foundBody.andThen foundCatches).andThen foundCleanup).inTry,
        (allowsBody.outer.andThen allowsCatches.outer).andThen allowsCleanup.outer, suspending,
        allowsCatches.no_yields (.inr nofun), allowsCleanup.no_yields (.inr nofun),
        allowsCleanup.no_breaks rfl, fineBody, fineCatches, fineCleanup⟩
  | tryFault body fault =>
    rw [ofStmt, except_bind_eq_ok] at h
    obtain ⟨facts₁, hb, hf⟩ := h
    obtain ⟨foundBody, allowsBody, fineBody⟩ := ofStmts_eq_ok body hb
    obtain ⟨foundFault, allowsFault, fineFault⟩ := ofStmts_eq_ok fault hf
    rw [tryIds_append_none] at foundBody foundFault
    exact ⟨foundBody.andThen foundFault, allowsBody.outer.andThen allowsFault.outer,
      allowsBody.no_yields (.inl rfl), allowsFault.no_yields (.inl rfl), fineBody, fineFault⟩
  | _ =>
    cases h
    exact ⟨.nothing _ _, .nothing _, trivial⟩

theorem ofStmts_eq_ok (ss : List Stmt) {enclosing : Enclosing} {facts facts' : YieldFacts}
    (h : ofStmts enclosing facts ss = .ok facts') :
    Finds (tryIds enclosing) (Stmt.anyYields ss) (Stmt.labelsAll ss) (Stmt.triesAll ss) facts
        facts' ∧
      Allows enclosing (Stmt.anyYields ss) (Stmt.anyBreaks ss) ∧ Stmt.SuspendableAll ss := by
  cases ss with
  | nil =>
    cases h
    exact ⟨.nothing _ _, .nothing _, trivial⟩
  | cons s ss =>
    rw [ofStmts, except_bind_eq_ok] at h
    obtain ⟨facts₁, hs, h⟩ := h
    obtain ⟨found, allows, fine⟩ := ofStmt_eq_ok s hs
    obtain ⟨found', allows', fine'⟩ := ofStmts_eq_ok ss h
    exact ⟨found.andThen found', allows.andThen allows', fine, fine'⟩

theorem ofCatches_eq_ok (cs : List Catch) {enclosing : Enclosing} {facts facts' : YieldFacts}
    (h : ofCatches enclosing facts cs = .ok facts') :
    Finds (tryIds enclosing) (Catch.anyYields cs) (Catch.labelsAll cs) (Catch.triesAll cs) facts
        facts' ∧
      Allows enclosing (Catch.anyYields cs) (Catch.anyBreaks cs) ∧ Catch.SuspendableAll cs := by
  cases cs with
  | nil =>
    cases h
    exact ⟨.nothing _ _, .nothing _, trivial⟩
  | cons c cs =>
    obtain ⟨ty, caught, body⟩ := c
    rw [ofCatches, except_bind_eq_ok] at h
    obtain ⟨facts₁, hc, h⟩ := h
    rw [ofCatch] at hc
    obtain ⟨found, allows, fine⟩ := ofStmts_eq_ok body hc
    obtain ⟨found', allows', fine'⟩ := ofCatches_eq_ok cs h
    exact ⟨found.andThen found', allows.andThen allows', fine, fine'⟩

end

end YieldFacts

/-- The facts say of each try statement what is true of it. -/
structure YieldFacts.Describe (facts : YieldFacts) (t : TryFacts) : Prop where
  yields : facts.containsYield t.id = t.yields
  labels : ∀ l, l ∈ facts.labels t.id ↔ l ∈ t.labels

namespace YieldFacts

theorem mem_labels {facts : YieldFacts} {id : TryId} {l : LabelId} :
    l ∈ facts.labels id ↔ (id, l) ∈ facts.labelIn := by
  unfold labels
  rw [List.mem_filterMap]
  constructor
  · rintro ⟨⟨other, label⟩, hm, he⟩
    dsimp only at he
    split at he
    next same =>
      cases he
      exact same ▸ hm
    next => cases he
  · exact fun hm => ⟨(id, l), hm, if_pos rfl⟩

/-- The facts of a body describe its try statements, if no two of them have the same id. -/
theorem describe_ofBody {body : Body} {facts : YieldFacts}
    (unique : (Stmt.tryIdsAll body.root).Nodup) (h : ofBody body = .ok facts) :
    ∀ t ∈ Stmt.triesAll body.root, facts.Describe t := by
  intro t ht
  obtain ⟨found, -, -⟩ := ofStmts_eq_ok body.root h
  have only : ∀ t' ∈ Stmt.triesAll body.root, t'.id = t.id → t' = t := fun t' ht' same =>
    List.inj_on_of_nodup_map unique ht' ht same
  constructor
  · refine Bool.eq_iff_iff.mpr ?_
    unfold containsYield
    rw [decide_eq_true_iff, found.suspending]
    constructor
    · rintro (known | ⟨-, known⟩ | ⟨t', ht', same, yields⟩)
      · cases known
      · cases known
      · exact only t' ht' same ▸ yields
    · exact fun yields => .inr (.inr ⟨t, ht, rfl, yields⟩)
  · intro l
    rw [mem_labels, found.labelIn]
    constructor
    · rintro (known | ⟨-, known⟩ | ⟨t', ht', same, defined⟩)
      · cases known
      · cases known
      · exact only t' ht' same ▸ defined
    · exact fun defined => .inr (.inr ⟨t, ht, rfl, defined⟩)

theorem suspendable_ofBody {body : Body} {facts : YieldFacts} (h : ofBody body = .ok facts) :
    Stmt.SuspendableAll body.root :=
  (ofStmts_eq_ok body.root h).2.2

end YieldFacts

end ManagedCode
