import ManagedCode.Proofs.Metadata.MemberVisits
import ManagedCode.Proofs.Metadata.NodeVisits

namespace ManagedCode

namespace Target

variable {target : Target}

/-- What the references in a part of a body stand for. -/
def standFor (target : Target) (references : List Reference) : List RefKey :=
  references.flatMap target.referenceRefs

end Target

namespace Emit.Collects

open Target

variable {target : Target} {excused known : List RefKey}

theorem visitReference (wf : target.symbols.WellFormed) (r : Reference) :
    Collects target excused [] known (target.visitReference r) (target.referenceRefs r) := by
  cases r with
  | assembly a => exact visitAssembly wf a
  | module m => exact visitModule wf m
  | type t => exact visitTy wf t
  | signature t => exact visitSignatureTy wf t
  | member m => exact visitMember wf m
  | arrayMethod kind arrayTy => exact visitArrayMethod wf kind arrayTy

theorem visitNode (wf : target.symbols.WellFormed) (node : Node) :
    Collects target excused [] known (target.visitNode node) (target.standFor node.references) := by
  rcases visitNode_eq node with ⟨fault, senseless⟩ | same
  · rw [senseless]
    exact fails
  · rw [same]
    exact forM fun r _ => visitReference wf r

/-- Each node is visited before the nodes that it is made of. -/
theorem walkStmts (wf : target.symbols.WellFormed) (ss : List Stmt) :
    Collects target excused [] known (target.walkStmts ss)
      (target.standFor (Stmt.referencesAll ss)) := by
  have nodes : Collects target excused [] known (target.visitNodes (Stmt.nodesAll ss)) _ :=
    forM fun node _ => visitNode wf node
  rw [Stmt.referencesAll_eq, standFor, List.flatMap_assoc]
  exact fun session later sound hk run => nodes session later sound hk (walkStmts_eq_ok.mp run)

theorem visitBody (wf : target.symbols.WellFormed) (body : Body) :
    Collects target excused [] known (target.visitBody body) (target.visitRefs (.body body)) := by
  have all : target.visitRefs (.body body) =
      target.standFor (body.locals.map fun l => .signature l.ty) ++
        target.standFor (Stmt.referencesAll body.root) := List.flatMap_append
  rw [all]
  refine andThen ((visitSignatureTys wf _).congr fun k => ?_) (walkStmts wf body.root)
  simp [standFor, List.flatMap_map, referenceRefs]

theorem visit (wf : target.symbols.WellFormed) (v : Visit) :
    Collects target excused [] known (target.visit v) (target.visitRefs v) := by
  cases v with
  | reference r => exact visitReference wf r
  | definitions => exact visitDefinitions wf
  | body body => exact visitBody wf body

theorem visitAll (wf : target.symbols.WellFormed) (visits : List Visit) :
    Collects target excused [] known (target.visitAll visits) (visits.flatMap target.visitRefs) := by
  induction visits generalizing known with
  | nil => exact nothing
  | cons v vs ih => exact (visit wf v).andThen ih

end Emit.Collects

end ManagedCode
