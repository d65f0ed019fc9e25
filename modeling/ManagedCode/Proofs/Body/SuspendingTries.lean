import ManagedCode.Proofs.Iterator.Analysis

namespace ManagedCode

/-! The try statements of a body that suspend, with their finally clauses. -/

/-- A try statement that has a yield in its body. -/
structure SuspendingTry where
  id : TryId
  /-- The nearest try statement around it that suspends. -/
  outer? : Option TryId
  /-- Its finally clause, which is empty if it has none. -/
  cleanup : List Stmt

namespace SuspendingTry

/-- A try statement itself, if it suspends. -/
def here (outer? : Option TryId) (id : TryId) (body cleanup : List Stmt) : List SuspendingTry :=
  if Stmt.anyYields body then [⟨id, outer?, cleanup⟩] else []

/-- The nearest try statement around the body of one that suspends. -/
def inside (outer? : Option TryId) (id : TryId) (body : List Stmt) : Option TryId :=
  if Stmt.anyYields body then some id else outer?

end SuspendingTry

mutual

/-- The try statements that suspend, each before those inside it and otherwise in the order of the
source. -/
def Stmt.suspendingTries (outer? : Option TryId) : Stmt → List SuspendingTry
  | .block stmts => Stmt.suspendingTriesAll outer? stmts
  | .tryCatch id body catches none =>
    SuspendingTry.here outer? id body [] ++
      (Stmt.suspendingTriesAll (SuspendingTry.inside outer? id body) body ++
        Catch.suspendingTriesAll outer? catches)
  | .tryCatch id body catches (some cleanup) =>
    SuspendingTry.here outer? id body cleanup ++
      (Stmt.suspendingTriesAll (SuspendingTry.inside outer? id body) body ++
        (Catch.suspendingTriesAll outer? catches ++ Stmt.suspendingTriesAll outer? cleanup))
  | .tryFault body fault =>
    Stmt.suspendingTriesAll outer? body ++ Stmt.suspendingTriesAll outer? fault
  | _ => []

def Stmt.suspendingTriesAll (outer? : Option TryId) : List Stmt → List SuspendingTry
  | [] => []
  | s :: ss => s.suspendingTries outer? ++ Stmt.suspendingTriesAll outer? ss

def Catch.suspendingTriesAll (outer? : Option TryId) : List Catch → List SuspendingTry
  | [] => []
  | .mk _ _ body :: cs => Stmt.suspendingTriesAll outer? body ++ Catch.suspendingTriesAll outer? cs

end

def Body.suspendingTries (body : Body) : List SuspendingTry :=
  Stmt.suspendingTriesAll none body.root

mutual

/-- A statement without the finally clauses of the try statements in it that suspend. -/
def Stmt.withoutCleanups : Stmt → Stmt
  | .block stmts => .block (Stmt.withoutCleanupsAll stmts)
  | .tryCatch id body catches none =>
    .tryCatch id (Stmt.withoutCleanupsAll body) (Catch.withoutCleanupsAll catches) none
  | .tryCatch id body catches (some cleanup) =>
    .tryCatch id (Stmt.withoutCleanupsAll body) (Catch.withoutCleanupsAll catches)
      (if Stmt.anyYields body then none else some (Stmt.withoutCleanupsAll cleanup))
  | .tryFault body fault =>
    .tryFault (Stmt.withoutCleanupsAll body) (Stmt.withoutCleanupsAll fault)
  | s => s

def Stmt.withoutCleanupsAll : List Stmt → List Stmt
  | [] => []
  | s :: ss => s.withoutCleanups :: Stmt.withoutCleanupsAll ss

def Catch.withoutCleanupsAll : List Catch → List Catch
  | [] => []
  | .mk ty caught body :: cs =>
    .mk ty caught (Stmt.withoutCleanupsAll body) :: Catch.withoutCleanupsAll cs

end

/-! Nothing suspends without a yield. -/

mutual

theorem Stmt.suspendingTries_eq_nil (outer? : Option TryId) (s : Stmt) (none : s.yields = false) :
    s.suspendingTries outer? = [] := by
  cases s with
  | block stmts => exact Stmt.suspendingTriesAll_eq_nil outer? stmts none
  | tryCatch id body catches finally? =>
    cases finally? with
    | none =>
      obtain ⟨hb, hc⟩ := Bool.or_eq_false_iff.mp none
      simp [Stmt.suspendingTries, SuspendingTry.here, hb, Stmt.suspendingTriesAll_eq_nil _ body hb,
        Catch.suspendingTriesAll_eq_nil outer? catches hc]
    | some cleanup =>
      obtain ⟨hbc, hf⟩ := Bool.or_eq_false_iff.mp none
      obtain ⟨hb, hc⟩ := Bool.or_eq_false_iff.mp hbc
      simp [Stmt.suspendingTries, SuspendingTry.here, hb, Stmt.suspendingTriesAll_eq_nil _ body hb,
        Catch.suspendingTriesAll_eq_nil outer? catches hc,
        Stmt.suspendingTriesAll_eq_nil outer? cleanup hf]
  | tryFault body fault =>
    obtain ⟨hb, hf⟩ := Bool.or_eq_false_iff.mp none
    rw [Stmt.suspendingTries, Stmt.suspendingTriesAll_eq_nil outer? body hb,
      Stmt.suspendingTriesAll_eq_nil outer? fault hf]
    rfl
  | _ => rfl

theorem Stmt.suspendingTriesAll_eq_nil (outer? : Option TryId) (ss : List Stmt)
    (none : Stmt.anyYields ss = false) : Stmt.suspendingTriesAll outer? ss = [] := by
  cases ss with
  | nil => rfl
  | cons s ss =>
    obtain ⟨first, rest⟩ := Bool.or_eq_false_iff.mp none
    rw [Stmt.suspendingTriesAll, Stmt.suspendingTries_eq_nil outer? s first,
      Stmt.suspendingTriesAll_eq_nil outer? ss rest]
    rfl

theorem Catch.suspendingTriesAll_eq_nil (outer? : Option TryId) (cs : List Catch)
    (none : Catch.anyYields cs = false) : Catch.suspendingTriesAll outer? cs = [] := by
  cases cs with
  | nil => rfl
  | cons c cs =>
    obtain ⟨ty, caught, body⟩ := c
    obtain ⟨first, rest⟩ := Bool.or_eq_false_iff.mp none
    rw [Catch.suspendingTriesAll, Stmt.suspendingTriesAll_eq_nil outer? body first,
      Catch.suspendingTriesAll_eq_nil outer? cs rest]
    rfl

end

mutual

theorem Stmt.withoutCleanups_eq_self (s : Stmt) (none : s.yields = false) :
    s.withoutCleanups = s := by
  cases s with
  | block stmts => rw [Stmt.withoutCleanups, Stmt.withoutCleanupsAll_eq_self stmts none]
  | tryCatch id body catches finally? =>
    cases finally? with
    | none =>
      obtain ⟨hb, hc⟩ := Bool.or_eq_false_iff.mp none
      rw [Stmt.withoutCleanups, Stmt.withoutCleanupsAll_eq_self body hb,
        Catch.withoutCleanupsAll_eq_self catches hc]
    | some cleanup =>
      obtain ⟨hbc, hf⟩ := Bool.or_eq_false_iff.mp none
      obtain ⟨hb, hc⟩ := Bool.or_eq_false_iff.mp hbc
      rw [Stmt.withoutCleanups, Stmt.withoutCleanupsAll_eq_self body hb,
        Catch.withoutCleanupsAll_eq_self catches hc, Stmt.withoutCleanupsAll_eq_self cleanup hf,
        if_neg (Bool.eq_false_iff.mp hb)]
  | tryFault body fault =>
    obtain ⟨hb, hf⟩ := Bool.or_eq_false_iff.mp none
    rw [Stmt.withoutCleanups, Stmt.withoutCleanupsAll_eq_self body hb,
      Stmt.withoutCleanupsAll_eq_self fault hf]
  | _ => rfl

theorem Stmt.withoutCleanupsAll_eq_self (ss : List Stmt) (none : Stmt.anyYields ss = false) :
    Stmt.withoutCleanupsAll ss = ss := by
  cases ss with
  | nil => rfl
  | cons s ss =>
    obtain ⟨first, rest⟩ := Bool.or_eq_false_iff.mp none
    rw [Stmt.withoutCleanupsAll, Stmt.withoutCleanups_eq_self s first,
      Stmt.withoutCleanupsAll_eq_self ss rest]

theorem Catch.withoutCleanupsAll_eq_self (cs : List Catch) (none : Catch.anyYields cs = false) :
    Catch.withoutCleanupsAll cs = cs := by
  cases cs with
  | nil => rfl
  | cons c cs =>
    obtain ⟨ty, caught, body⟩ := c
    obtain ⟨first, rest⟩ := Bool.or_eq_false_iff.mp none
    rw [Catch.withoutCleanupsAll, Stmt.withoutCleanupsAll_eq_self body first,
      Catch.withoutCleanupsAll_eq_self cs rest]

end

/-! What the analysis of a body found out about a part of it. -/

structure Stmt.Analysed (facts : YieldFacts) (s : Stmt) : Prop where
  suspendable : s.Suspendable
  described : ∀ t ∈ s.tries, facts.Describe t

structure Stmt.AnalysedAll (facts : YieldFacts) (ss : List Stmt) : Prop where
  suspendable : Stmt.SuspendableAll ss
  described : ∀ t ∈ Stmt.triesAll ss, facts.Describe t

structure Catch.AnalysedAll (facts : YieldFacts) (cs : List Catch) : Prop where
  suspendable : Catch.SuspendableAll cs
  described : ∀ t ∈ Catch.triesAll cs, facts.Describe t

variable {facts : YieldFacts}

/-- An accepted body with one try statement to an id was analysed. -/
theorem YieldFacts.analysed_ofBody {body : Body} (unique : (Stmt.tryIdsAll body.root).Nodup)
    (h : YieldFacts.ofBody body = .ok facts) : Stmt.AnalysedAll facts body.root :=
  ⟨suspendable_ofBody h, describe_ofBody unique h⟩

theorem Stmt.AnalysedAll.head {s : Stmt} {ss : List Stmt} (h : AnalysedAll facts (s :: ss)) :
    s.Analysed facts :=
  ⟨h.suspendable.1, fun t ht => h.described t (List.mem_append_left _ ht)⟩

theorem Stmt.AnalysedAll.tail {s : Stmt} {ss : List Stmt} (h : AnalysedAll facts (s :: ss)) :
    AnalysedAll facts ss :=
  ⟨h.suspendable.2, fun t ht => h.described t (List.mem_append_right _ ht)⟩

theorem Catch.AnalysedAll.head {ty : Option Ty} {caught : Option LocalId} {body : List Stmt}
    {cs : List Catch} (h : AnalysedAll facts (.mk ty caught body :: cs)) :
    Stmt.AnalysedAll facts body :=
  ⟨h.suspendable.1, fun t ht => h.described t (List.mem_append_left _ ht)⟩

theorem Catch.AnalysedAll.tail {ty : Option Ty} {caught : Option LocalId} {body : List Stmt}
    {cs : List Catch} (h : AnalysedAll facts (.mk ty caught body :: cs)) : AnalysedAll facts cs :=
  ⟨h.suspendable.2, fun t ht => h.described t (List.mem_append_right _ ht)⟩

namespace Stmt.Analysed

variable {id : TryId} {body cleanup fault : List Stmt} {catches : List Catch}
  {finally? : Option (List Stmt)}

theorem block {ss : List Stmt} (h : (Stmt.block ss).Analysed facts) : AnalysedAll facts ss :=
  ⟨h.suspendable, h.described⟩

theorem inBody (h : (Stmt.tryCatch id body catches finally?).Analysed facts) :
    AnalysedAll facts body := by
  cases finally? with
  | none =>
    exact ⟨h.suspendable.2.2.1, fun t ht =>
      h.described t (List.mem_cons_of_mem _ (List.mem_append_left _ ht))⟩
  | some cleanup =>
    exact ⟨h.suspendable.2.2.2.2.1, fun t ht =>
      h.described t (List.mem_cons_of_mem _ (List.mem_append_left _ (List.mem_append_left _ ht)))⟩

theorem inCatches (h : (Stmt.tryCatch id body catches finally?).Analysed facts) :
    Catch.AnalysedAll facts catches := by
  cases finally? with
  | none =>
    exact ⟨h.suspendable.2.2.2, fun t ht =>
      h.described t (List.mem_cons_of_mem _ (List.mem_append_right _ ht))⟩
  | some cleanup =>
    exact ⟨h.suspendable.2.2.2.2.2.1, fun t ht =>
      h.described t (List.mem_cons_of_mem _ (List.mem_append_left _ (List.mem_append_right _ ht)))⟩

theorem inCleanup (h : (Stmt.tryCatch id body catches (some cleanup)).Analysed facts) :
    AnalysedAll facts cleanup :=
  ⟨h.suspendable.2.2.2.2.2.2, fun t ht =>
    h.described t (List.mem_cons_of_mem _ (List.mem_append_right _ ht))⟩

theorem inFaultBody (h : (Stmt.tryFault body fault).Analysed facts) : AnalysedAll facts body :=
  ⟨h.suspendable.2.2.1, fun t ht => h.described t (List.mem_append_left _ ht)⟩

theorem inFault (h : (Stmt.tryFault body fault).Analysed facts) : AnalysedAll facts fault :=
  ⟨h.suspendable.2.2.2, fun t ht => h.described t (List.mem_append_right _ ht)⟩

/-- A try statement with a finally clause is known to suspend exactly if its body has a yield. -/
theorem containsYield (h : (Stmt.tryCatch id body catches (some cleanup)).Analysed facts) :
    facts.containsYield id = Stmt.anyYields body := by
  obtain ⟨-, none, none', -⟩ := h.suspendable
  refine (h.described _ List.mem_cons_self).yields.trans ?_
  change (Stmt.anyYields body || Catch.anyYields catches || Stmt.anyYields cleanup) = _
  rw [none, none', Bool.or_false, Bool.or_false]

end Stmt.Analysed

end ManagedCode
