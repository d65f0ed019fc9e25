import ManagedCode.Iterator.Hoist
import ManagedCode.Proofs.Body.WellFormed

namespace ManagedCode

/-! A body whose locals and parameters are fields of its machine. -/

mutual

/-- A statement over the fields of a machine, in which a yield break returns. -/
def Stmt.hoist (paramCount : Nat) : Stmt → Stmt
  | .block stmts => .block (Stmt.hoistAll paramCount stmts)
  | .expr value => .expr (value.hoist paramCount)
  | .assign place value => .assign (place.hoist paramCount) (value.hoist paramCount)
  | .label l => .label l
  | .goto target => .goto target
  | .condGoto cond jumpIf target => .condGoto (cond.hoist paramCount) jumpIf target
  | .switch scrutinee cases default? => .switch (scrutinee.hoist paramCount) cases default?
  | .ret value => .ret (value.map (·.hoist paramCount))
  | .yield value => .yield (value.hoist paramCount)
  | .yieldBreak => .ret none
  | .tryCatch id body catches none =>
    .tryCatch id (Stmt.hoistAll paramCount body) (Catch.hoistAll paramCount catches) none
  | .tryCatch id body catches (some cleanup) =>
    .tryCatch id (Stmt.hoistAll paramCount body) (Catch.hoistAll paramCount catches)
      (some (Stmt.hoistAll paramCount cleanup))
  | .tryFault body fault =>
    .tryFault (Stmt.hoistAll paramCount body) (Stmt.hoistAll paramCount fault)
  | .throw value => .throw (value.hoist paramCount)
  | .nop => .nop

def Stmt.hoistAll (paramCount : Nat) : List Stmt → List Stmt
  | [] => []
  | s :: ss => s.hoist paramCount :: Stmt.hoistAll paramCount ss

/-- An exception is caught in a local still, from where it goes to the field. -/
def Catch.hoist (paramCount : Nat) : Catch → Catch
  | .mk exceptionTy none body => .mk exceptionTy none (Stmt.hoistAll paramCount body)
  | .mk exceptionTy (some caught) body =>
    .mk exceptionTy (some caught)
      (.assign ((Place.local caught).hoist paramCount) (.local caught) ::
        Stmt.hoistAll paramCount body)

def Catch.hoistAll (paramCount : Nat) : List Catch → List Catch
  | [] => []
  | c :: cs => c.hoist paramCount :: Catch.hoistAll paramCount cs

end

variable {n : Nat}

mutual

@[simp] theorem Stmt.plainLabels_hoist (s : Stmt) : (s.hoist n).plainLabels = s.plainLabels := by
  cases s with
  | block stmts => exact Stmt.plainLabelsAll_hoistAll stmts
  | tryCatch id body catches cleanup => cases cleanup <;> rfl
  | _ => rfl

@[simp] theorem Stmt.plainLabelsAll_hoistAll (ss : List Stmt) :
    Stmt.plainLabelsAll (Stmt.hoistAll n ss) = Stmt.plainLabelsAll ss := by
  cases ss with
  | nil => rfl
  | cons s ss =>
    rw [Stmt.hoistAll, Stmt.plainLabelsAll, Stmt.plainLabelsAll, Stmt.plainLabels_hoist s,
      Stmt.plainLabelsAll_hoistAll ss]

end

mutual

@[simp] theorem Stmt.escapes_hoist (s : Stmt) : (s.hoist n).escapes = s.escapes := by
  cases s with
  | block stmts =>
    simp only [Stmt.hoist, Stmt.escapes, unresolved, Stmt.targets_hoistAll stmts,
      Stmt.plainLabelsAll_hoistAll]
  | tryCatch id body catches cleanup =>
    cases cleanup with
    | none =>
      simp only [Stmt.hoist, Stmt.escapes, unresolved, Stmt.targets_hoistAll body,
        Stmt.plainLabelsAll_hoistAll, Catch.escapesAll_hoistAll catches]
    | some cleanup =>
      simp only [Stmt.hoist, Stmt.escapes, unresolved, Stmt.targets_hoistAll body,
        Stmt.plainLabelsAll_hoistAll, Catch.escapesAll_hoistAll catches,
        Stmt.targets_hoistAll cleanup]
  | tryFault body fault =>
    simp only [Stmt.hoist, Stmt.escapes, unresolved, Stmt.targets_hoistAll body,
      Stmt.plainLabelsAll_hoistAll, Stmt.targets_hoistAll fault]
  | _ => rfl

theorem Stmt.targets_hoistAll (ss : List Stmt) :
    Stmt.targets (Stmt.hoistAll n ss) = Stmt.targets ss := by
  cases ss with
  | nil => rfl
  | cons s ss =>
    rw [Stmt.hoistAll, Stmt.targets, Stmt.targets, Stmt.escapes_hoist s, Stmt.targets_hoistAll ss]

theorem Catch.escapesAll_hoistAll (cs : List Catch) :
    Catch.escapesAll (Catch.hoistAll n cs) = Catch.escapesAll cs := by
  cases cs with
  | nil => rfl
  | cons c cs =>
    obtain ⟨ty, caught, body⟩ := c
    cases caught with
    | none =>
      simp only [Catch.hoistAll, Catch.hoist, Catch.escapesAll, unresolved,
        Stmt.targets_hoistAll body, Stmt.plainLabelsAll_hoistAll, Catch.escapesAll_hoistAll cs]
    | some caught =>
      simp only [Catch.hoistAll, Catch.hoist, Catch.escapesAll, unresolved, Stmt.targets,
        Stmt.escapes, Stmt.plainLabelsAll, Stmt.plainLabels, List.nil_append,
        Stmt.targets_hoistAll body, Stmt.plainLabelsAll_hoistAll, Catch.escapesAll_hoistAll cs]

end

mutual

/-- The yields of a hoisted statement are those of the statement. -/
theorem Stmt.yieldSites_hoist (s : Stmt) (around : List TryId) :
    (s.hoist n).yieldSites around =
      (s.yieldSites around).map fun site => (site.1.hoist n, site.2) := by
  cases s with
  | block stmts => exact Stmt.yieldSitesAll_hoistAll stmts around
  | tryCatch id body catches cleanup =>
    cases cleanup <;> exact Stmt.yieldSitesAll_hoistAll body (id :: around)
  | _ => rfl

theorem Stmt.yieldSitesAll_hoistAll (ss : List Stmt) (around : List TryId) :
    Stmt.yieldSitesAll around (Stmt.hoistAll n ss) =
      (Stmt.yieldSitesAll around ss).map fun site => (site.1.hoist n, site.2) := by
  cases ss with
  | nil => rfl
  | cons s ss =>
    rw [Stmt.hoistAll, Stmt.yieldSitesAll, Stmt.yieldSitesAll, List.map_append,
      Stmt.yieldSites_hoist s around, Stmt.yieldSitesAll_hoistAll ss around]

end

@[simp] theorem Stmt.escapesAll_hoistAll (ss : List Stmt) :
    Stmt.escapesAll (Stmt.hoistAll n ss) = Stmt.escapesAll ss := by
  simp only [Stmt.escapesAll, unresolved, Stmt.targets_hoistAll, Stmt.plainLabelsAll_hoistAll]

mutual

@[simp] theorem Stmt.yields_hoist (s : Stmt) : (s.hoist n).yields = s.yields := by
  cases s with
  | block stmts => exact Stmt.anyYields_hoistAll stmts
  | tryCatch id body catches cleanup =>
    cases cleanup with
    | none =>
      simp only [Stmt.hoist, Stmt.yields, Stmt.anyYields_hoistAll body,
        Catch.anyYields_hoistAll catches]
    | some cleanup =>
      simp only [Stmt.hoist, Stmt.yields, Stmt.anyYields_hoistAll body,
        Catch.anyYields_hoistAll catches, Stmt.anyYields_hoistAll cleanup]
  | tryFault body fault =>
    simp only [Stmt.hoist, Stmt.yields, Stmt.anyYields_hoistAll body,
      Stmt.anyYields_hoistAll fault]
  | _ => rfl

@[simp] theorem Stmt.anyYields_hoistAll (ss : List Stmt) :
    Stmt.anyYields (Stmt.hoistAll n ss) = Stmt.anyYields ss := by
  cases ss with
  | nil => rfl
  | cons s ss =>
    rw [Stmt.hoistAll, Stmt.anyYields, Stmt.anyYields, Stmt.yields_hoist s,
      Stmt.anyYields_hoistAll ss]

theorem Catch.anyYields_hoistAll (cs : List Catch) :
    Catch.anyYields (Catch.hoistAll n cs) = Catch.anyYields cs := by
  cases cs with
  | nil => rfl
  | cons c cs =>
    obtain ⟨ty, caught, body⟩ := c
    cases caught with
    | none =>
      simp only [Catch.hoistAll, Catch.hoist, Catch.anyYields, Stmt.anyYields_hoistAll body,
        Catch.anyYields_hoistAll cs]
    | some caught =>
      simp only [Catch.hoistAll, Catch.hoist, Catch.anyYields, Stmt.anyYields, Stmt.yields,
        Bool.false_or, Stmt.anyYields_hoistAll body, Catch.anyYields_hoistAll cs]

end

end ManagedCode
