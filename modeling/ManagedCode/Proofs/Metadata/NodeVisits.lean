import ManagedCode.Proofs.Metadata.NodeReferences
import ManagedCode.Proofs.Step

namespace ManagedCode

/-! A body is walked node by node. -/

namespace Target

variable {target : Target}

/-- What is visited for a node itself. -/
def visitNode (target : Target) : Node → Emit Unit
  | .stmt s => target.visitStmt s
  | .tryCatch _ => pure ()
  | .catch_ exceptionTy? => exceptionTy?.forM target.visitTy
  | .expr e => target.visitExpr e
  | .place p => target.visitPlace p

def visitNodes (target : Target) (nodes : List Node) : Emit Unit := nodes.forM target.visitNode

theorem visitNodes_cons (node : Node) (nodes : List Node) :
    target.visitNodes (node :: nodes) = (do target.visitNode node; target.visitNodes nodes) := rfl

/-- Visits nodes as a walk does, which goes on after a failure. -/
def recordNodes (target : Target) (nodes : List Node) : StateT (Option Fault) Emit Unit :=
  nodes.forM fun node => Emit.record (target.visitNode node)

theorem recordNodes_cons (node : Node) (nodes : List Node) :
    target.recordNodes (node :: nodes) =
      (do Emit.record (target.visitNode node); target.recordNodes nodes) := rfl

theorem recordNodes_append (nodes nodes' : List Node) :
    target.recordNodes (nodes ++ nodes') =
      (do target.recordNodes nodes; target.recordNodes nodes') :=
  List.forM_append

mutual

theorem recordExpr_eq (e : Expr) : target.bodyVisitor.visitExpr e = target.recordNodes e.nodes := by
  rw [Visitor.visitExpr.eq_def, Expr.nodes.eq_def, recordNodes_cons]
  refine congrArg (Emit.record (target.visitExpr e) >>= fun _ => ·) ?_
  cases e with
  | const | «local» | param | machineField | typeToken => rfl
  | field receiver =>
    cases receiver with
    | none => rfl
    | some receiver => exact recordExpr_eq receiver
  | call callee receiver args =>
    cases receiver with
    | none => exact recordExprs_eq args
    | some receiver =>
      change (do target.bodyVisitor.visitExpr receiver; target.bodyVisitor.visitExprs args) = _
      rw [recordExpr_eq receiver, recordExprs_eq args, ← recordNodes_append]
  | binary op lhs rhs =>
    change (do target.bodyVisitor.visitExpr lhs; target.bodyVisitor.visitExpr rhs) = _
    rw [recordExpr_eq lhs, recordExpr_eq rhs, ← recordNodes_append]
  | unary op operand => exact recordExpr_eq operand
  | element array ty indices =>
    change (do target.bodyVisitor.visitExpr array; target.bodyVisitor.visitExprs indices) = _
    rw [recordExpr_eq array, recordExprs_eq indices, ← recordNodes_append]
  | addressOf place => exact recordPlace_eq place
  | newArray ty lengths => exact recordExprs_eq lengths

theorem recordExprs_eq (es : List Expr) :
    target.bodyVisitor.visitExprs es = target.recordNodes (Expr.nodesAll es) := by
  cases es with
  | nil => rfl
  | cons e es =>
    rw [Visitor.visitExprs, recordExpr_eq e, recordExprs_eq es, Expr.nodesAll, recordNodes_append]

theorem recordPlace_eq (p : Place) : target.bodyVisitor.visitPlace p = target.recordNodes p.nodes := by
  rw [Visitor.visitPlace.eq_def, Place.nodes.eq_def, recordNodes_cons]
  refine congrArg (Emit.record (target.visitPlace p) >>= fun _ => ·) ?_
  cases p with
  | «local» | param | machineField => rfl
  | field receiver =>
    cases receiver with
    | none => rfl
    | some receiver => exact recordExpr_eq receiver
  | element array ty indices =>
    change (do target.bodyVisitor.visitExpr array; target.bodyVisitor.visitExprs indices) = _
    rw [recordExpr_eq array, recordExprs_eq indices, ← recordNodes_append]

end

mutual

theorem recordStmt_eq (s : Stmt) : target.bodyVisitor.visitStmt s = target.recordNodes s.nodes := by
  rw [Visitor.visitStmt.eq_def, Stmt.nodes.eq_def, recordNodes_cons]
  refine congrArg (Emit.record (target.visitStmt s) >>= fun _ => ·) ?_
  cases s with
  | block stmts => exact recordStmts_eq stmts
  | expr e | yield e | throw e => exact recordExpr_eq e
  | assign place value =>
    change (do target.bodyVisitor.visitPlace place; target.bodyVisitor.visitExpr value) = _
    rw [recordPlace_eq place, recordExpr_eq value, ← recordNodes_append]
  | condGoto cond => exact recordExpr_eq cond
  | switch scrutinee => exact recordExpr_eq scrutinee
  | ret value =>
    cases value with
    | none => rfl
    | some value => exact recordExpr_eq value
  | tryCatch id body catches finally? =>
    cases finally? with
    | none =>
      change (do target.bodyVisitor.visitStmts body; target.bodyVisitor.visitCatches catches) = _
      rw [recordStmts_eq body, recordCatches_eq catches, ← recordNodes_append]
      rfl
    | some cleanup =>
      change (do
        target.bodyVisitor.visitStmts body
        target.bodyVisitor.visitCatches catches
        target.bodyVisitor.visitStmts cleanup) = _
      rw [recordStmts_eq body, recordCatches_eq catches, recordStmts_eq cleanup, ← recordNodes_append,
        ← recordNodes_append]
      rfl
  | tryFault body fault =>
    change (do target.bodyVisitor.visitStmts body; target.bodyVisitor.visitStmts fault) = _
    rw [recordStmts_eq body, recordStmts_eq fault, ← recordNodes_append]
  | label | goto | yieldBreak | nop => rfl

theorem recordStmts_eq (ss : List Stmt) :
    target.bodyVisitor.visitStmts ss = target.recordNodes (Stmt.nodesAll ss) := by
  cases ss with
  | nil => rfl
  | cons s ss =>
    rw [Visitor.visitStmts, recordStmt_eq s, recordStmts_eq ss, Stmt.nodesAll, recordNodes_append]

theorem recordCatch_eq (c : Catch) : target.bodyVisitor.visitCatch c = target.recordNodes c.nodes := by
  cases c with
  | mk exceptionTy? caught code =>
    rw [Catch.nodes, recordNodes_cons, ← recordStmts_eq code]
    rfl

theorem recordCatches_eq (cs : List Catch) :
    target.bodyVisitor.visitCatches cs = target.recordNodes (Catch.nodesAll cs) := by
  cases cs with
  | nil => rfl
  | cons c cs =>
    rw [Visitor.visitCatches, recordCatch_eq c, recordCatches_eq cs, Catch.nodesAll, recordNodes_append]

end

/-! What a walk does, whether it succeeds or fails. -/

variable {nodes : List Node} {session later : Session} {first : Option Fault}

theorem record_of_ok {visit : Emit Unit} (run : visit session = .ok () later) :
    Emit.record visit first session = .ok ((), first) later := by
  rw [Emit.record, run]

theorem record_of_error {visit : Emit Unit} {fault : Fault} (first : Option Fault)
    (run : visit session = .error fault later) :
    (∃ fault', Emit.record visit first session = .error fault' later) ∨
      ∃ kept, Emit.record visit first session = .ok ((), some kept) later := by
  rw [Emit.record, run]
  cases fault with
  | misuse => exact .inl ⟨_, rfl⟩
  | _ => cases first <;> exact .inr ⟨_, rfl⟩

theorem recordNodes_cons_eq (node : Node) :
    target.recordNodes (node :: nodes) first session =
      (Emit.record (target.visitNode node) first >>= fun recorded =>
        target.recordNodes nodes recorded.2) session := rfl

/-- No fault is kept where none was before and every visit succeeds. -/
theorem recordNodes_eq_ok : target.recordNodes nodes first session = .ok ((), none) later ↔
    first = none ∧ target.visitNodes nodes session = .ok () later := by
  induction nodes generalizing first session with
  | nil =>
    have done : target.recordNodes [] first session = .ok ((), first) session := rfl
    have done' : target.visitNodes [] session = .ok () session := rfl
    simp [done, done']
  | cons node nodes ih =>
    rw [recordNodes_cons_eq]
    cases run : target.visitNode node session with
    | ok u middle =>
      rw [bind_of_ok (record_of_ok run), ih]
      rw [visitNodes_cons, bind_of_ok run]
    | error fault middle =>
      have fails : target.visitNodes (node :: nodes) session = .error fault middle :=
        bind_of_error run
      rw [fails]
      rcases record_of_error first run with ⟨fault', stops⟩ | ⟨kept, goesOn⟩
      · simp [bind_of_error stops]
      · simp [bind_of_ok goesOn, ih]

/-- A walk succeeds where the visits of all nodes do, and ends as these do. -/
theorem walkStmts_eq_ok {ss : List Stmt} : target.walkStmts ss session = .ok () later ↔
    target.visitNodes (Stmt.nodesAll ss) session = .ok () later := by
  rw [walkStmts, StateT.run, recordStmts_eq, bind_eq_ok]
  constructor
  · rintro ⟨⟨⟨⟩, first⟩, middle, run, done⟩
    cases first with
    | some fault => cases done
    | none =>
      cases done
      exact (recordNodes_eq_ok.mp run).2
  · exact fun run => ⟨((), none), later, recordNodes_eq_ok.mpr ⟨rfl, run⟩, rfl⟩

/-- What every visit does to a session, a walk does as well, also one that fails. -/
theorem walkStmts_related {R : Session → Session → Prop} (refl : ∀ s, R s s)
    (trans : ∀ {s m t}, R s m → R m t → R s t) {ss : List Stmt}
    (each : ∀ node ∈ Stmt.nodesAll ss, ∀ s, R s (finalState (target.visitNode node s)))
    (session : Session) : R session (finalState (target.walkStmts ss session)) := by
  have walked : ∀ nodes : List Node,
      (∀ node ∈ nodes, ∀ s, R s (finalState (target.visitNode node s))) →
      ∀ first s, R s (finalState (target.recordNodes nodes first s)) := by
    intro nodes each
    induction nodes with
    | nil => exact fun first s => refl s
    | cons node nodes ih =>
      intro first s
      rw [recordNodes_cons_eq]
      have step := each node List.mem_cons_self s
      have rest := ih fun node' among => each node' (List.mem_cons_of_mem _ among)
      cases run : target.visitNode node s with
      | ok u middle =>
        rw [run] at step
        rw [bind_of_ok (record_of_ok run)]
        exact trans step (rest first middle)
      | error fault middle =>
        rw [run] at step
        rcases record_of_error first run with ⟨fault', stops⟩ | ⟨kept, goesOn⟩
        · rw [bind_of_error stops]
          exact step
        · rw [bind_of_ok goesOn]
          exact trans step (rest (some kept) middle)
  have all := walked _ each none session
  rw [walkStmts, StateT.run, recordStmts_eq]
  cases run : target.recordNodes (Stmt.nodesAll ss) none session with
  | error fault middle =>
    rw [run] at all
    rw [bind_of_error run]
    exact all
  | ok recorded middle =>
    rw [run] at all
    rw [bind_of_ok run]
    obtain ⟨⟨⟩, first⟩ := recorded
    cases first <;> exact all

/-! A node has its references visited, or makes no sense. -/

def visitReferences (target : Target) (references : List Reference) : Emit Unit :=
  references.forM target.visitReference

theorem visitReferences_singleton (r : Reference) :
    target.visitReferences [r] = target.visitReference r :=
  bind_pure_unit

theorem visitElementAccess_eq (kind : ArrayMethodKind) (ty : Ty) :
    (∃ fault, target.visitElementAccess kind ty = throw fault) ∨
      target.visitElementAccess kind ty = target.visitReferences (ty.elementReferences kind) := by
  cases ty with
  | vector element =>
    refine .inr ?_
    unfold visitElementAccess Ty.elementReferences
    dsimp only
    split
    next => exact (visitReferences_singleton (.type element)).symm
    next => rfl
  | array element rank => exact .inr (visitReferences_singleton (.arrayMethod kind _)).symm
  | _ => exact .inl ⟨_, rfl⟩

theorem visitNewArray_eq (ty : Ty) :
    (∃ fault, target.visitNewArray ty = throw fault) ∨
      target.visitNewArray ty = target.visitReferences ty.newArrayReferences := by
  cases ty with
  | vector element => exact .inr (visitReferences_singleton (.type element)).symm
  | array element rank => exact .inr (visitReferences_singleton (.arrayMethod .constructor _)).symm
  | _ => exact .inl ⟨_, rfl⟩

theorem visitNode_eq (node : Node) :
    (∃ fault, target.visitNode node = throw fault) ∨
      target.visitNode node = target.visitReferences node.references := by
  cases node with
  | stmt s =>
    cases s with
    | assign place value =>
      rw [Node.references_assign]
      cases place with
      | element array ty indices => exact visitElementAccess_eq .set ty
      | _ => exact .inr rfl
    | _ => exact .inr rfl
  | tryCatch id => exact .inr rfl
  | catch_ exceptionTy? =>
    cases exceptionTy? with
    | none => exact .inr rfl
    | some ty => exact .inr (visitReferences_singleton (.type ty)).symm
  | place p =>
    cases p with
    | field receiver f => exact .inr (visitReferences_singleton (.member f)).symm
    | _ => exact .inr rfl
  | expr e =>
    cases e with
    | call callee receiver args =>
      cases callee with
      | method m => exact .inr (visitReferences_singleton (.member m)).symm
      | synthesized m => exact .inr rfl
    | field receiver f => exact .inr (visitReferences_singleton (.member f)).symm
    | typeToken ty => exact .inr (visitReferences_singleton (.type ty)).symm
    | newArray ty lengths =>
      rw [Node.references_newArray]
      exact visitNewArray_eq ty
    | element array ty indices =>
      rw [Node.references_element]
      exact visitElementAccess_eq .get ty
    | addressOf place =>
      rw [Node.references_addressOf]
      cases place with
      | element array ty indices => exact visitElementAccess_eq .address ty
      | _ => exact .inr rfl
    | _ => exact .inr rfl

/-- Where all nodes are visited, each makes sense. -/
theorem visitNode_of_visitNodes (run : target.visitNodes nodes session = .ok () later) :
    ∀ node ∈ nodes, target.visitNode node = target.visitReferences node.references := by
  induction nodes generalizing session with
  | nil => exact nofun
  | cons node nodes ih =>
    obtain ⟨_, middle, first, rest⟩ := bind_eq_ok.mp run
    refine List.forall_mem_cons.mpr ⟨(visitNode_eq node).resolve_left ?_, ih rest⟩
    rintro ⟨fault, fails⟩
    rw [fails] at first
    cases first

end Target

end ManagedCode
