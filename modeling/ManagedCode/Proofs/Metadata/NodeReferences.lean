import ManagedCode.Proofs.Body.Nodes
import ManagedCode.Proofs.Metadata.Closure

namespace ManagedCode

/-! What the nodes of a body need tokens for. -/

/-- The reference for which code needs a token because of a node itself: the member that is called,
read, written or addressed, the type of a handle or of a catch clause, the elements of a vector that
is created or has an element addressed, and the method that accesses a multi-dimensional array. -/
def Node.demand? : Node → Option RefKey
  | .expr (.call (.method m) _ _) => some (.member m)
  | .expr (.field _ f) | .place (.field _ f) => some (.member f)
  | .expr (.typeToken t) | .catch_ (some t) => some (.type t)
  | .expr (.newArray (.vector element) _) => some (.type element)
  | .expr (.newArray (.array element rank) _) =>
    some (.arrayMethod .constructor (.array element rank))
  | .expr (.element _ (.array element rank) _) =>
    some (.arrayMethod .get (.array element rank))
  | .stmt (.assign (.element _ (.array element rank) _) _) =>
    some (.arrayMethod .set (.array element rank))
  | .expr (.addressOf (.element _ (.vector element) _)) => some (.type element)
  | .expr (.addressOf (.element _ (.array element rank) _)) =>
    some (.arrayMethod .address (.array element rank))
  | _ => none

/-- What a node needs tokens for, as something that is visited. -/
def RefKey.reference? : RefKey → Option Reference
  | .type t => some (.type t)
  | .member m => some (.member m)
  | .arrayMethod kind arrayTy => some (.arrayMethod kind arrayTy)
  | _ => none

def Node.references (node : Node) : List Reference :=
  (node.demand?.bind RefKey.reference?).toList

theorem Node.references_element (array : Expr) (ty : Ty) (indices : List Expr) :
    Node.references (.expr (.element array ty indices)) = ty.elementReferences .get := by
  cases ty <;> rfl

theorem Node.references_newArray (ty : Ty) (lengths : List Expr) :
    Node.references (.expr (.newArray ty lengths)) = ty.newArrayReferences := by
  cases ty <;> rfl

theorem Node.references_addressOf (place : Place) :
    Node.references (.expr (.addressOf place)) = place.addressReferences := by
  cases place with
  | element array ty indices => cases ty <;> rfl
  | _ => rfl

theorem Node.references_assign (place : Place) (value : Expr) :
    Node.references (.stmt (.assign place value)) = place.storeReferences := by
  cases place with
  | element array ty indices => cases ty <;> rfl
  | _ => rfl

mutual

/-- The references of a part of a body are those of its nodes. -/
theorem Expr.references_eq (e : Expr) : e.references = e.nodes.flatMap Node.references := by
  rw [Expr.nodes.eq_def, List.flatMap_cons]
  cases e with
  | const _ | «local» _ | param _ | machineField _ | typeToken _ => rfl
  | field receiver f =>
    cases receiver with
    | none => rfl
    | some receiver =>
      rw [Expr.references, Expr.references_eq receiver]
      rfl
  | call callee receiver args =>
    cases receiver with
    | none =>
      dsimp only
      rw [← Expr.referencesAll_eq args]
      cases callee <;> rfl
    | some receiver =>
      dsimp only
      rw [List.flatMap_append, ← Expr.references_eq receiver, ← Expr.referencesAll_eq args]
      cases callee <;> rfl
  | binary op lhs rhs =>
    dsimp only
    rw [List.flatMap_append, ← Expr.references_eq lhs, ← Expr.references_eq rhs]
    rfl
  | unary op operand => exact Expr.references_eq operand
  | element array ty indices =>
    dsimp only
    rw [List.flatMap_append, ← Expr.references_eq array, ← Expr.referencesAll_eq indices,
      Node.references_element, Expr.references]
  | addressOf place =>
    dsimp only
    rw [← Place.references_eq place, Node.references_addressOf, Expr.references]
  | newArray ty lengths =>
    dsimp only
    rw [← Expr.referencesAll_eq lengths, Node.references_newArray, Expr.references]

theorem Expr.referencesAll_eq (es : List Expr) :
    Expr.referencesAll es = (Expr.nodesAll es).flatMap Node.references := by
  cases es with
  | nil => rfl
  | cons e es =>
    rw [Expr.referencesAll, Expr.nodesAll, List.flatMap_append, Expr.references_eq e,
      Expr.referencesAll_eq es]

theorem Place.references_eq (p : Place) : p.references = p.nodes.flatMap Node.references := by
  rw [Place.nodes.eq_def, List.flatMap_cons]
  cases p with
  | «local» _ | param _ | machineField _ => rfl
  | field receiver f =>
    cases receiver with
    | none => rfl
    | some receiver =>
      rw [Place.references, Expr.references_eq receiver]
      rfl
  | element array ty indices =>
    dsimp only
    rw [List.flatMap_append, ← Expr.references_eq array, ← Expr.referencesAll_eq indices]
    rfl

end

mutual

theorem Stmt.references_eq (s : Stmt) : s.references = s.nodes.flatMap Node.references := by
  rw [Stmt.nodes.eq_def, List.flatMap_cons]
  cases s with
  | block stmts => exact Stmt.referencesAll_eq stmts
  | expr value | yield value | throw value => exact value.references_eq
  | assign place value =>
    dsimp only
    rw [List.flatMap_append, ← place.references_eq, ← value.references_eq,
      Node.references_assign, Stmt.references]
  | condGoto cond jumpIf target => exact cond.references_eq
  | switch scrutinee cases default? => exact scrutinee.references_eq
  | ret value =>
    cases value with
    | none => rfl
    | some value => exact value.references_eq
  | tryCatch id body catches finally? =>
    cases finally? with
    | none =>
      dsimp only
      rw [List.flatMap_cons, List.flatMap_append, ← Stmt.referencesAll_eq body,
        ← Catch.referencesAll_eq catches]
      rfl
    | some cleanup =>
      dsimp only
      rw [List.flatMap_cons, List.flatMap_append, List.flatMap_append,
        ← Stmt.referencesAll_eq body, ← Catch.referencesAll_eq catches,
        ← Stmt.referencesAll_eq cleanup]
      rfl
  | tryFault body fault =>
    dsimp only
    rw [List.flatMap_append, ← Stmt.referencesAll_eq body, ← Stmt.referencesAll_eq fault]
    rfl
  | label _ | goto _ | yieldBreak | nop => rfl

theorem Stmt.referencesAll_eq (ss : List Stmt) :
    Stmt.referencesAll ss = (Stmt.nodesAll ss).flatMap Node.references := by
  cases ss with
  | nil => rfl
  | cons s ss =>
    rw [Stmt.referencesAll, Stmt.nodesAll, List.flatMap_append, Stmt.references_eq s,
      Stmt.referencesAll_eq ss]

theorem Catch.references_eq (c : Catch) : c.references = c.nodes.flatMap Node.references := by
  obtain ⟨exceptionTy, caught, code⟩ := c
  rw [Catch.nodes, List.flatMap_cons, ← Stmt.referencesAll_eq code]
  cases exceptionTy <;> rfl

theorem Catch.referencesAll_eq (cs : List Catch) :
    Catch.referencesAll cs = (Catch.nodesAll cs).flatMap Node.references := by
  cases cs with
  | nil => rfl
  | cons c cs =>
    rw [Catch.referencesAll, Catch.nodesAll, List.flatMap_append, Catch.references_eq c,
      Catch.referencesAll_eq cs]

end

/-- A body refers to what a local's type names, and to what its nodes refer to. -/
theorem Body.mem_references_of_local {body : Body} {l : LocalDecl} (among : l ∈ body.locals) :
    .signature l.ty ∈ body.references :=
  List.mem_append_left _ (List.mem_map.mpr ⟨l, among, rfl⟩)

theorem Body.mem_references_of_node {body : Body} {node : Node} {r : Reference}
    (here : node ∈ body.nodes) (among : r ∈ node.references) : r ∈ body.references := by
  refine List.mem_append_right _ ?_
  rw [Stmt.referencesAll_eq]
  exact List.mem_flatMap.mpr ⟨node, here, among⟩

end ManagedCode
