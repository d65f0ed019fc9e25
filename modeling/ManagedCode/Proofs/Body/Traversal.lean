import ManagedCode.Body.Walk
import ManagedCode.Proofs.Body.Subtrees

namespace ManagedCode

namespace Visitor

section

variable {m : Type → Type} (visitor : Visitor m)

/-- The hook of a visitor for a node. -/
def call : Subtree → m Unit → m Unit
  | .stmt s => visitor.stmt s
  | .tryCatch tryStmt => visitor.tryCatch tryStmt
  | .catch_ clause => visitor.catch_ clause
  | .expr e => visitor.expr e
  | .place p => visitor.place p

variable [Monad m]

def visit : Subtree → m Unit
  | .stmt s => visitor.visitStmt s
  | .tryCatch tryStmt =>
    visitor.tryCatch tryStmt do
      visitor.visitStmts tryStmt.body
      visitor.visitCatches tryStmt.catches
      visitor.visitStmts (tryStmt.finally?.getD [])
  | .catch_ c => visitor.visitCatch c
  | .expr e => visitor.visitExpr e
  | .place p => visitor.visitPlace p

def visitAll (ts : List Subtree) : m Unit := ts.forM visitor.visit

theorem visitAll_nil : visitor.visitAll [] = pure () := rfl

theorem visitAll_cons (t : Subtree) (ts : List Subtree) :
    visitor.visitAll (t :: ts) = (do visitor.visit t; visitor.visitAll ts) := rfl

theorem visitExprs_eq (es : List Expr) :
    visitor.visitExprs es = visitor.visitAll (es.map .expr) := by
  induction es with
  | nil => rfl
  | cons e es ih => rw [Visitor.visitExprs, ih, List.map_cons, visitAll_cons]; rfl

theorem visitStmts_eq (ss : List Stmt) :
    visitor.visitStmts ss = visitor.visitAll (ss.map .stmt) := by
  induction ss with
  | nil => rfl
  | cons s ss ih => rw [Visitor.visitStmts, ih, List.map_cons, visitAll_cons]; rfl

theorem visitCatches_eq (cs : List Catch) :
    visitor.visitCatches cs = visitor.visitAll (cs.map .catch_) := by
  induction cs with
  | nil => rfl
  | cons c cs ih => rw [Visitor.visitCatches, ih, List.map_cons, visitAll_cons]; rfl

variable [LawfulMonad m]

theorem visitAll_append (ts ts' : List Subtree) :
    visitor.visitAll (ts ++ ts') = (do visitor.visitAll ts; visitor.visitAll ts') :=
  List.forM_append

theorem visitAll_singleton (t : Subtree) : visitor.visitAll [t] = visitor.visit t := by
  rw [visitAll_cons, visitAll_nil]
  exact bind_pure_unit

/-- A visitor calls the hook of a node with the walk over what lies directly under it. -/
theorem visit_eq (t : Subtree) :
    visitor.visit t = visitor.call t (visitor.visitAll t.children) := by
  cases t with
  | stmt s =>
    rw [visit, Visitor.visitStmt.eq_def]
    refine congrArg (visitor.stmt s) ?_
    cases s with
    | block stmts => exact visitor.visitStmts_eq stmts
    | expr e | yield e | throw e => exact (visitor.visitAll_singleton (.expr e)).symm
    | assign p value =>
      rw [Subtree.children, visitAll_cons, visitAll_singleton]
      rfl
    | condGoto cond => exact (visitor.visitAll_singleton (.expr cond)).symm
    | switch scrutinee => exact (visitor.visitAll_singleton (.expr scrutinee)).symm
    | ret value? =>
      cases value? with
      | none => rfl
      | some value => exact (visitor.visitAll_singleton (.expr value)).symm
    | tryCatch id body catches finally? =>
      rw [Subtree.children, visitAll_singleton, visit]
      cases finally? with
      | none =>
        have last : visitor.visitStmts (none.getD []) = pure () := rfl
        rw [last, bind_pure_unit]
      | some cleanup => rfl
    | tryFault body fault =>
      rw [Subtree.children, visitAll_append, ← visitStmts_eq, ← visitStmts_eq]
    | label | goto | yieldBreak | nop => rfl
  | tryCatch tryStmt =>
    refine congrArg (visitor.tryCatch tryStmt) ?_
    rw [Subtree.children, visitAll_append, visitAll_append, ← visitStmts_eq, ← visitStmts_eq,
      ← visitCatches_eq, bind_assoc]
  | catch_ c =>
    cases c with
    | mk exceptionTy caught code =>
      exact congrArg (visitor.catch_ (.mk exceptionTy caught code)) (visitor.visitStmts_eq code)
  | expr e =>
    rw [visit, Visitor.visitExpr.eq_def]
    refine congrArg (visitor.expr e) ?_
    cases e with
    | const | «local» | param | machineField | typeToken => rfl
    | field receiver? member =>
      cases receiver? with
      | none => rfl
      | some receiver => exact (visitor.visitAll_singleton (.expr receiver)).symm
    | call callee receiver? args =>
      cases receiver? with
      | none => exact visitor.visitExprs_eq args
      | some receiver =>
        change (do visitor.visitExpr receiver; visitor.visitExprs args) = _
        rw [visitExprs_eq]
        rfl
    | binary op lhs rhs =>
      rw [Subtree.children, visitAll_cons, visitAll_singleton]
      rfl
    | unary op operand => exact (visitor.visitAll_singleton (.expr operand)).symm
    | element array ty indices =>
      change (do visitor.visitExpr array; visitor.visitExprs indices) = _
      rw [visitExprs_eq]
      rfl
    | addressOf p => exact (visitor.visitAll_singleton (.place p)).symm
    | newArray ty lengths => exact visitor.visitExprs_eq lengths
  | place p =>
    rw [visit, Visitor.visitPlace.eq_def]
    refine congrArg (visitor.place p) ?_
    cases p with
    | «local» | param | machineField => rfl
    | field receiver? member =>
      cases receiver? with
      | none => rfl
      | some receiver => exact (visitor.visitAll_singleton (.expr receiver)).symm
    | element array ty indices =>
      change (do visitor.visitExpr array; visitor.visitExprs indices) = _
      rw [visitExprs_eq]
      rfl

end

/-! Visitors that keep a record. -/

def record (t : Subtree) : StateM (List Subtree) Unit := modify (· ++ [t])

/-- Records every node before it walks on. -/
def recorder : Visitor (StateM (List Subtree)) where
  stmt s descend := do record (.stmt s); descend
  tryCatch tryStmt descend := do record (.tryCatch tryStmt); descend
  catch_ clause descend := do record (.catch_ clause); descend
  expr e descend := do record (.expr e); descend
  place p descend := do record (.place p); descend

def exprRecorder : Visitor (StateM (List Subtree)) where
  expr e descend := do record (.expr e); descend

def stmtRecorder : Visitor (StateM (List Subtree)) where
  stmt s descend := do record (.stmt s); descend

/-- Records every node and walks on, except at one hook. -/
def recorderUpTo (hook : Hook) : Visitor (StateM (List Subtree)) where
  stmt s descend := do record (.stmt s); if hook ≠ .stmt then descend
  tryCatch tryStmt descend := do record (.tryCatch tryStmt); if hook ≠ .tryCatch then descend
  catch_ clause descend := do record (.catch_ clause); if hook ≠ .catch_ then descend
  expr e descend := do record (.expr e); if hook ≠ .expr then descend
  place p descend := do record (.place p); if hook ≠ .place then descend

/-- What a visitor has recorded after a walk over some statements. -/
def recordOf (visitor : Visitor (StateM (List Subtree))) (ss : List Stmt) : List Subtree :=
  ((visitor.visitStmts ss).run []).2

/-- A visitor records the nodes of some hooks, and walks on in all but some. -/
def Records (visitor : Visitor (StateM (List Subtree))) (keeps stops : Hook → Bool) : Prop :=
  ∀ t descend log, visitor.call t descend log =
    (if stops t.hook then pure () else descend : StateM (List Subtree) Unit)
      (if keeps t.hook then log ++ [t] else log)

theorem records_recorder : recorder.Records (fun _ => true) (fun _ => false) := by
  intro t descend log
  cases t <;> rfl

theorem records_exprRecorder : exprRecorder.Records (· == .expr) (fun _ => false) := by
  intro t descend log
  cases t <;> rfl

theorem records_stmtRecorder : stmtRecorder.Records (· == .stmt) (fun _ => false) := by
  intro t descend log
  cases t <;> rfl

theorem records_recorderUpTo (hook : Hook) :
    (recorderUpTo hook).Records (fun _ => true) (· == hook) := by
  intro t descend log
  cases t <;> cases hook <;> rfl

end Visitor

namespace Subtree

variable {keeps stops : Hook → Bool}

/-- What is recorded at the listed positions, if the nodes of some hooks are kept and nothing is
met under those of others. -/
def recorded (keeps stops : Hook → Bool) (ts : List Subtree)
    (sites : List (List Nat × Subtree)) : List Subtree :=
  (sites.filter fun site => keeps site.2.hook ∧ ¬LiesUnder stops ts site.1).map (·.2)

variable {t : Subtree} {ts : List Subtree} {inner rest : List (List Nat × Subtree)}

theorem recorded_append (sites sites' : List (List Nat × Subtree)) :
    recorded keeps stops ts (sites ++ sites') =
      recorded keeps stops ts sites ++ recorded keeps stops ts sites' := by
  rw [recorded, List.filter_append, List.map_append]
  rfl

theorem recorded_first :
    recorded keeps stops (t :: ts) [([0], t)] = if keeps t.hook then [t] else [] := by
  by_cases kept : keeps t.hook <;> simp [recorded, not_liesUnder_first, kept]

theorem recorded_intoFirst (h : Lists t.children inner) :
    recorded keeps stops (t :: ts) (inner.map intoFirst) =
      if stops t.hook then [] else recorded keeps stops t.children inner := by
  have met : ∀ site ∈ inner, (LiesUnder stops (t :: ts) (0 :: site.1) ↔
      stops t.hook ∨ LiesUnder stops t.children site.1) := by
    rintro ⟨path, u⟩ among
    obtain ⟨i, tail, rfl⟩ := h.nonempty among
    exact liesUnder_intoFirst
  rw [recorded, List.filter_map, List.map_map]
  split
  next stopped =>
    refine List.map_eq_nil_iff.mpr (List.filter_eq_nil_iff.mpr fun site among => ?_)
    simp [intoFirst, met site among, stopped]
  next passed =>
    refine congrArg (List.map _) (List.filter_congr fun site among => ?_)
    simp [intoFirst, met site among, passed]

theorem recorded_pastFirst :
    recorded keeps stops (t :: ts) (rest.map pastFirst) = recorded keeps stops ts rest := by
  rw [recorded, List.filter_map, List.map_map]
  refine congrArg (List.map _) (List.filter_congr fun site _ => ?_)
  simp [pastFirst, liesUnder_pastFirst]

theorem recorded_cons (h : Lists t.children inner) :
    recorded keeps stops (t :: ts) (([0], t) :: (inner.map intoFirst ++ rest.map pastFirst)) =
      (if keeps t.hook then [t] else []) ++
        ((if stops t.hook then [] else recorded keeps stops t.children inner) ++
          recorded keeps stops ts rest) := by
  calc
    _ = recorded keeps stops (t :: ts) [([0], t)] ++
        recorded keeps stops (t :: ts) (inner.map intoFirst ++ rest.map pastFirst) :=
      recorded_append [_] _
    _ = _ := by rw [recorded_first, recorded_append, recorded_intoFirst h, recorded_pastFirst]

/-- The subtrees below some others can be listed so that every visitor records what is listed. -/
theorem hereditary_lists : Hereditary fun ts => ∃ sites, Lists ts sites ∧
    ∀ (visitor : Visitor (StateM (List Subtree))) (keeps stops : Hook → Bool),
      visitor.Records keeps stops → ∀ log,
        visitor.visitAll ts log = ((), log ++ recorded keeps stops ts sites) := by
  refine ⟨⟨[], .nil, fun visitor keeps stops records log => ?_⟩, ?_⟩
  · rw [visitor.visitAll_nil, recorded, List.filter_nil, List.map_nil, List.append_nil]
    rfl
  rintro t ts ⟨inner, under, ofInner⟩ ⟨rest, beside, ofRest⟩
  refine ⟨_, under.cons beside, fun visitor keeps stops records log => ?_⟩
  -- The log after the hook for the root of `t`, and after all of `t`.
  let log' := log ++ if keeps t.hook then [t] else []
  let log'' := log' ++ if stops t.hook then [] else recorded keeps stops t.children inner
  have first : visitor.visit t log = ((), log'') := by
    have kept : (if keeps t.hook then log ++ [t] else log) = log' := by
      by_cases h : keeps t.hook <;> simp [log', h]
    rw [visitor.visit_eq, records, kept]
    by_cases h : stops t.hook
    · simp only [h, if_true, log'', List.append_nil]
      rfl
    · simp only [h, log'']
      exact ofInner visitor keeps stops records log'
  have both : visitor.visitAll (t :: ts) log = visitor.visitAll ts log'' := by
    rw [visitor.visitAll_cons]
    change (visitor.visitAll ts) (visitor.visit t log).2 = _
    rw [first]
  rw [both, ofRest visitor keeps stops records, recorded_cons under]
  simp only [log'', log', List.append_assoc]

end Subtree

/-- A walk calls the hook for every node of a tree exactly once, in the order of the source and
before the hooks for what lies under the node. A visitor with one hook is called for the nodes of
that hook, and one that does not walk on at a hook misses exactly what lies properly under its
nodes. -/
theorem recorded_once_in_source_order (ss : List Stmt) :
    ∃ sites : List (List Nat × Subtree),
      sites.Pairwise (·.1 < ·.1) ∧
      (∀ path t, (path, t) ∈ sites ↔ Subtree.below? (ss.map .stmt) path = some t) ∧
      Visitor.recorder.recordOf ss = sites.map (·.2) ∧
      Visitor.exprRecorder.recordOf ss = (sites.filter (·.2.hook = .expr)).map (·.2) ∧
      Visitor.stmtRecorder.recordOf ss = (sites.filter (·.2.hook = .stmt)).map (·.2) ∧
      ∀ hook, (Visitor.recorderUpTo hook).recordOf ss =
        (sites.filter fun site => ¬Subtree.LiesUnder (· == hook) (ss.map .stmt) site.1).map (·.2) := by
  obtain ⟨sites, listed, records⟩ := Subtree.hereditary_lists.allStmts ss
  have met {visitor : Visitor (StateM (List Subtree))} {keeps stops : Hook → Bool}
      (h : visitor.Records keeps stops) :
      visitor.recordOf ss = Subtree.recorded keeps stops (ss.map .stmt) sites := by
    rw [Visitor.recordOf, visitor.visitStmts_eq]
    exact congrArg Prod.snd (records visitor keeps stops h [])
  have all : ∀ path, ¬Subtree.LiesUnder (fun _ => false) (ss.map .stmt) path := by
    rintro path ⟨n, -, t, -, ⟨⟩⟩
  refine ⟨sites, listed.sorted, fun _ _ => listed.mem_iff, ?_, ?_, ?_, fun hook => ?_⟩
  · simp [met Visitor.records_recorder, Subtree.recorded, all]
  · simp [met Visitor.records_exprRecorder, Subtree.recorded, all]
  · simp [met Visitor.records_stmtRecorder, Subtree.recorded, all]
  · simp [met (Visitor.records_recorderUpTo hook), Subtree.recorded]

end ManagedCode
