import ManagedCode.Iterator.Hoist
import ManagedCode.Proofs.Metadata.Closure

namespace ManagedCode

/-! Hoisting changes nothing in what a body refers to. -/

mutual

theorem Expr.references_hoist (n : Nat) (e : Expr) : (e.hoist n).references = e.references := by
  cases e with
  | const _ | «local» _ | param _ | machineField _ | typeToken _ => rfl
  | field receiver f =>
    cases receiver with
    | none => rfl
    | some receiver => simp only [Expr.hoist, Expr.references, Expr.references_hoist n receiver]
  | call callee receiver args =>
    cases callee <;> cases receiver with
    | none => simp only [Expr.hoist, Expr.references, Expr.referencesAll_hoist n args]
    | some receiver =>
      simp only [Expr.hoist, Expr.references, Expr.references_hoist n receiver,
        Expr.referencesAll_hoist n args]
  | binary op lhs rhs =>
    simp only [Expr.hoist, Expr.references, Expr.references_hoist n lhs,
      Expr.references_hoist n rhs]
  | unary op operand => simp only [Expr.hoist, Expr.references, Expr.references_hoist n operand]
  | element array ty indices =>
    simp only [Expr.hoist, Expr.references, Expr.references_hoist n array,
      Expr.referencesAll_hoist n indices]
  | addressOf place =>
    obtain ⟨-, ha, hr⟩ := Place.references_hoist n place
    simp only [Expr.hoist, Expr.references, ha, hr]
  | newArray ty lengths =>
    simp only [Expr.hoist, Expr.references, Expr.referencesAll_hoist n lengths]

theorem Expr.referencesAll_hoist (n : Nat) (es : List Expr) :
    Expr.referencesAll (Expr.hoistAll n es) = Expr.referencesAll es := by
  cases es with
  | nil => rfl
  | cons e es =>
    simp only [Expr.hoistAll, Expr.referencesAll, Expr.references_hoist n e,
      Expr.referencesAll_hoist n es]

theorem Place.references_hoist (n : Nat) (p : Place) :
    (p.hoist n).storeReferences = p.storeReferences ∧
      (p.hoist n).addressReferences = p.addressReferences ∧
      (p.hoist n).references = p.references := by
  cases p with
  | «local» _ | param _ | machineField _ => exact ⟨rfl, rfl, rfl⟩
  | field receiver f =>
    cases receiver with
    | none => exact ⟨rfl, rfl, rfl⟩
    | some receiver =>
      exact ⟨rfl, rfl, by
        simp only [Place.hoist, Place.references, Expr.references_hoist n receiver]⟩
  | element array ty indices =>
    exact ⟨rfl, rfl, by
      simp only [Place.hoist, Place.references, Expr.references_hoist n array,
        Expr.referencesAll_hoist n indices]⟩

end

end ManagedCode
