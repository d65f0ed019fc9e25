import ManagedCode.Proofs.Run.Jumps

namespace ManagedCode

namespace Point

/-! Labels by the indices of the statements that lead to them. -/

mutual

/-- The indices that lead to the first definition of a label in plain blocks, where `rest` begins
at an index of its list. -/
def locateFrom (label : LabelId) (index : Nat) : (rest : List Stmt) → Option (List Nat)
  | [] => none
  | s :: rest =>
    match locateIn label s with
    | some path => some (index :: path)
    | none => locateFrom label (index + 1) rest

def locateIn (label : LabelId) : Stmt → Option (List Nat)
  | .label l => if l = label then some [] else none
  | .block inner => locateFrom label 0 inner
  | _ => none

end

def locate (label : LabelId) (stmts : List Stmt) : Option (List Nat) := locateFrom label 0 stmts

/-- The point that indices lead to, if each of them but the last is that of a plain block. -/
def enter (stmts : List Stmt) : (path : List Nat) → Option Point
  | [] => some (start stmts)
  | [index] => some [⟨stmts, stmts.drop index⟩]
  | index :: path =>
    match stmts[index]? with
    | some (.block inner) => (enter inner path).map (· ++ [⟨stmts, stmts.drop (index + 1)⟩])
    | _ => none

variable {label : LabelId}

theorem locateFrom_ne_nil (index : Nat) (rest : List Stmt) :
    locateFrom label index rest ≠ some [] := by
  induction rest generalizing index with
  | nil => exact nofun
  | cons s rest ih =>
    rw [locateFrom]
    cases locateIn label s with
    | none => exact ih (index + 1)
    | some path => exact nofun

mutual

theorem enter_locateFrom (label : LabelId) (stmts : List Stmt) {index : Nat} (rest : List Stmt)
    (left : stmts.drop index = rest) :
    (locateFrom label index rest).map (enter stmts) = (find? label stmts rest).map some := by
  cases rest with
  | nil => rfl
  | cons s rest =>
    have here := enter_locateIn label stmts s left
    have next : stmts.drop (index + 1) = rest := by rw [← List.tail_drop, left, List.tail_cons]
    have later := enter_locateFrom label stmts rest next
    rw [locateFrom, find?]
    cases found : locateIn label s with
    | none =>
      rw [found] at here
      rw [Option.map_eq_none_iff.mp here.symm]
      exact later
    | some path =>
      rw [found] at here
      obtain ⟨p, there, same⟩ := Option.map_eq_some_iff.mp here.symm
      rw [there]
      exact congrArg some same.symm

theorem enter_locateIn (label : LabelId) (stmts : List Stmt) {index : Nat} {rest : List Stmt} (s : Stmt)
    (left : stmts.drop index = s :: rest) :
    (locateIn label s).map (fun path => enter stmts (index :: path)) =
      (findIn? label stmts rest s).map some := by
  cases s with
  | label l =>
    rw [locateIn, findIn?, ← left]
    split <;> rfl
  | block inner =>
    have within := enter_locateFrom label inner inner List.drop_zero
    have block : stmts[index]? = some (.block inner) := by
      rw [← List.head?_drop, left, List.head?_cons]
    have next : stmts.drop (index + 1) = rest := by rw [← List.tail_drop, left, List.tail_cons]
    rw [locateIn, findIn?]
    cases found : locateFrom label 0 inner with
    | none =>
      rw [found] at within
      rw [Option.map_eq_none_iff.mp within.symm]
      rfl
    | some path =>
      rw [found] at within
      obtain ⟨p, there, same⟩ := Option.map_eq_some_iff.mp within.symm
      rw [there]
      cases path with
      | nil => exact absurd found (locateFrom_ne_nil 0 inner)
      | cons i path =>
        simp only [Option.map_some, enter, block, next]
        rw [← same]
        rfl
  | _ => rfl

end

/-- The indices that lead to a label lead through plain blocks only, to where it is found. -/
theorem exists_enter_of_locate {stmts : List Stmt} {path : List Nat}
    (found : locate label stmts = some path) :
    ∃ p, enter stmts path = some p ∧ find? label stmts stmts = some p := by
  have same := enter_locateFrom label stmts stmts List.drop_zero
  rw [locate] at found
  rw [found] at same
  obtain ⟨p, there, entered⟩ := Option.map_eq_some_iff.mp same.symm
  exact ⟨p, entered.symm, there⟩

end Point

end ManagedCode
