import Mathlib.Data.Option.Basic
import Mathlib.Tactic.Tauto
import ManagedCode.Proofs.Body.Parts
import ManagedCode.Proofs.Iterator.LowerSteps

namespace ManagedCode

/-! Which names can be hoisted into slots. -/

/-- Code whose locals and parameters have slots that are 32-bit numbers. -/
def Vocabulary.slotted (paramCount : Nat) (returns : Prop) : Vocabulary :=
  { Vocabulary.any with
    locals := fun id => (id.slot paramCount).index < idLimit
    params := fun id => id.slot.index < idLimit
    returns }

variable {n : Nat} {returns : Prop}

theorem bind_unit_eq_some {first next : Option Unit} :
    (do first; next) = some () ↔ first = some () ∧ next = some () := by
  cases first <;> simp

mutual

/-- The guard lets an expression pass if its locals and parameters have slots. -/
theorem visitExpr_slotGuard (e : Expr) :
    (slotGuard n).visitExpr e = some () ↔ e.Uses (.slotted n returns) := by
  cases e with
  | const | typeToken | machineField => exact iff_of_true rfl trivial
  | «local» id | param id => exact Option.guard_eq_some' ()
  | field receiver member =>
    cases receiver with
    | none => exact iff_of_true rfl trivial
    | some receiver => exact visitExpr_slotGuard receiver
  | call callee receiver args =>
    have inArgs := visitExprs_slotGuard args
    cases receiver with
    | none =>
      cases callee with
      | method member => exact inArgs
      | synthesized method => exact inArgs.trans (and_iff_right trivial).symm
    | some receiver =>
      have both := bind_unit_eq_some.trans (and_congr (visitExpr_slotGuard receiver) inArgs)
      cases callee with
      | method member => exact both
      | synthesized method => exact both.trans (and_iff_right trivial).symm
  | binary op lhs rhs =>
    exact bind_unit_eq_some.trans (and_congr (visitExpr_slotGuard lhs) (visitExpr_slotGuard rhs))
  | unary op operand => exact visitExpr_slotGuard operand
  | element array shape indices =>
    exact bind_unit_eq_some.trans
      (and_congr (visitExpr_slotGuard array) (visitExprs_slotGuard indices))
  | addressOf place => exact visitPlace_slotGuard place
  | newArray element lengths => exact visitExprs_slotGuard lengths

theorem visitExprs_slotGuard (es : List Expr) :
    (slotGuard n).visitExprs es = some () ↔ Expr.UsesAll (.slotted n returns) es := by
  cases es with
  | nil => exact iff_of_true rfl trivial
  | cons e es =>
    exact bind_unit_eq_some.trans (and_congr (visitExpr_slotGuard e) (visitExprs_slotGuard es))

theorem visitPlace_slotGuard (place : Place) :
    (slotGuard n).visitPlace place = some () ↔ place.Uses (.slotted n returns) := by
  cases place with
  | machineField => exact iff_of_true rfl trivial
  | «local» id | param id => exact Option.guard_eq_some' ()
  | field receiver member =>
    cases receiver with
    | none => exact iff_of_true rfl trivial
    | some receiver => exact visitExpr_slotGuard receiver
  | element array shape indices =>
    exact bind_unit_eq_some.trans
      (and_congr (visitExpr_slotGuard array) (visitExprs_slotGuard indices))

end

namespace Lowering

variable {source : Source}

theorem hoistExpr_eq {e : Expr} (uses : e.Uses (.slotted source.paramCount returns)) :
    hoistExpr source e = pure (e.hoist source.paramCount) := by
  unfold hoistExpr
  rw [(visitExpr_slotGuard e).mpr uses]
  rfl

theorem hoistPlace_eq {place : Place} (uses : place.Uses (.slotted source.paramCount returns)) :
    hoistPlace source place = pure (place.hoist source.paramCount) := by
  unfold hoistPlace
  rw [(visitPlace_slotGuard place).mpr uses]
  rfl

end Lowering

namespace Stmt

variable {v : Vocabulary}

end Stmt

end ManagedCode
