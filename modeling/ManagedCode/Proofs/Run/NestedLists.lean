import ManagedCode.Proofs.Run.Inherited
import ManagedCode.Proofs.Run.LabelPath

namespace ManagedCode

variable {σ : Type} {env : Environment σ}

/-! Lists of statements executed by loops over their indices, where each list in a list is executed
by a loop of its own. -/

/-- A turn of the loop over a list: to execute the statement at an index, or to go on from how it
ended. -/
structure Turn where
  stmts : List Stmt
  index : Nat
  pending? : Option Flow

namespace Turn

/-- Enters a list where a path of indices leads, with `go` for turns. The block at an index is
entered before the loop over the list that it stands in goes on there. -/
def enter (astray : RunError) (go : Turn → Exec σ Flow) (stmts : List Stmt) :
    (path : List Nat) → Exec σ Flow
  | [] => go ⟨stmts, 0, none⟩
  | [index] => go ⟨stmts, index, none⟩
  | index :: path =>
    match stmts[index]? with
    | some (.block inner) => do
      let flow ← enter astray go inner path
      go ⟨stmts, index, some flow⟩
    | _ => throw astray

/-- One turn, with `go` for those that it leads to. -/
def step (env : Environment σ) (astray : RunError) (go : Turn → Exec σ Flow) : Turn → Exec σ Flow
  | ⟨stmts, index, none⟩ =>
    match stmts[index]? with
    | none => return .normal
    | some s => do
      env.begin s
      let flow ← Exec.unwinding (env.execStmt (fun inner => go ⟨inner, 0, none⟩) s)
      go ⟨stmts, index, some flow⟩
  | ⟨stmts, index, some .normal⟩ => go ⟨stmts, index + 1, none⟩
  | ⟨stmts, _, some (.goto label)⟩ =>
    match Point.locate label stmts with
    | some path => enter astray go stmts path
    | none => return .goto label
  | ⟨_, _, some flow⟩ => return flow

/-- What a turn comes to. -/
def outcome (env : Environment σ) : Turn → Exec σ Flow
  | ⟨stmts, index, none⟩ => env.runs [⟨stmts, stmts.drop index⟩]
  | ⟨stmts, index, some flow⟩ => Environment.follow env.runs [⟨stmts, stmts.drop (index + 1)⟩] flow

end Turn

namespace Point

theorem next?_append_of_none {p : Point} (h : p.next? = none) (q : Point) :
    (p ++ q).next? = q.next? := by
  induction p with
  | nil => rfl
  | cons scope p ih =>
    obtain ⟨stmts, _ | ⟨s, rest⟩⟩ := scope
    · exact ih h
    · cases h

theorem next?_append_of_some {p after : Point} {s : Stmt} (h : p.next? = some (s, after))
    (q : Point) : (p ++ q).next? = some (s, after ++ q) := by
  induction p with
  | nil => cases h
  | cons scope p ih =>
    obtain ⟨stmts, _ | ⟨s', rest⟩⟩ := scope
    · exact ih h
    · cases h
      rfl

theorem jump?_append (label : LabelId) (p q : Point) :
    jump? label (p ++ q) = ((jump? label p).map (· ++ q)).or (jump? label q) := by
  induction p with
  | nil => rfl
  | cons scope p ih =>
    rw [List.cons_append, jump?, jump?]
    cases find? label scope.stmts scope.stmts with
    | some point => simp
    | none => exact ih

/-- A list alone sends a jump where the label is found in it. -/
theorem jump?_singleton (label : LabelId) (stmts rest : List Stmt) :
    jump? label [⟨stmts, rest⟩] = find? label stmts stmts := by
  rw [jump?]
  cases find? label stmts stmts with
  | some point => simp
  | none => rfl

theorem find?_eq_none_of_locate {label : LabelId} {stmts : List Stmt}
    (missing : locate label stmts = none) : find? label stmts stmts = none := by
  have same := enter_locateFrom label stmts stmts List.drop_zero
  rw [locate] at missing
  rw [missing] at same
  exact Option.map_eq_none_iff.mp same.symm

end Point

namespace Environment

/-- A flow out of the inner blocks is followed in the outer ones. -/
theorem follow_append {p q : Point} {c : Config σ}
    (goes : ∀ p, env.runs (p ++ q) c = (env.runs p >>= follow env.runs q) c) (flow : Flow) :
    follow env.runs (p ++ q) flow c = (follow env.runs p flow >>= follow env.runs q) c := by
  cases flow with
  | normal => exact goes p
  | goto label =>
    simp only [follow, Point.jump?_append]
    cases found : Point.jump? label p with
    | some target => exact goes target
    | none => rfl
  | _ => rfl

/-- A statement in the inner blocks is gone on from in these, and then in the outer ones. -/
theorem proceed_append {p q : Point} {c : Config σ} (s : Stmt)
    (goes : ∀ p (c' : Config σ), c'.fuel ≤ c.fuel →
      env.runs (p ++ q) c' = (env.runs p >>= follow env.runs q) c') :
    env.proceed env.runs s (p ++ q) c = (env.proceed env.runs s p >>= follow env.runs q) c := by
  have plain : (Exec.unwinding (env.execStmt env.runAll s) >>= follow env.runs (p ++ q)) c =
      ((Exec.unwinding (env.execStmt env.runAll s) >>= follow env.runs p) >>=
        follow env.runs q) c := by
    rw [bind_assoc]
    have same : Agree Config.fuel c.fuel (Exec.unwinding (env.execStmt env.runAll s))
        (Exec.unwinding (env.execStmt env.runAll s)) :=
      Exec.agree_unwinding (agree_execStmt agree_runAll s)
    have less := (same c (Nat.le_refl _)).2
    cases exec : Exec.unwinding (env.execStmt env.runAll s) c with
    | error error t => rw [bind_of_error exec, bind_of_error exec]
    | ok flow t =>
      rw [exec] at less
      rw [bind_of_ok exec, bind_of_ok exec]
      exact follow_append (fun p => goes p t less) flow
  cases s with
  | block stmts => exact goes (⟨stmts, stmts⟩ :: p) c (Nat.le_refl _)
  | _ => exact plain

/-- An execution in nested blocks is one of the inner blocks and then one of the outer ones. -/
theorem runs_append (p q : Point) : env.runs (p ++ q) = env.runs p >>= follow env.runs q := by
  have bounded : ∀ n p (c : Config σ), c.fuel ≤ n →
      env.runs (p ++ q) c = (env.runs p >>= follow env.runs q) c := by
    intro n
    induction n with
    | zero =>
      intro p c bound
      cases due : p.next? with
      | none =>
        rw [runs_done due, runs_congr (Point.next?_append_of_none due q)]
        rfl
      | some next =>
        have empty : c.fuel = 0 := Nat.le_zero.mp bound
        rw [runs_begin due, runs_begin (Point.next?_append_of_some due q), bind_assoc,
          bind_of_error (begin_zero _ empty), bind_of_error (begin_zero _ empty)]
    | succ n ih =>
      intro p c bound
      cases due : p.next? with
      | none =>
        rw [runs_done due, runs_congr (Point.next?_append_of_none due q)]
        rfl
      | some next =>
        rw [runs_begin due, runs_begin (Point.next?_append_of_some due q), bind_assoc]
        cases hf : c.fuel with
        | zero => rw [bind_of_error (begin_zero _ hf), bind_of_error (begin_zero _ hf)]
        | succ k =>
          rw [bind_of_ok (begin_succ _ hf), bind_of_ok (begin_succ _ hf)]
          have room : k ≤ n := by omega
          exact proceed_append _ fun p c' less => ih p c' (Nat.le_trans less room)
  funext c
  exact bounded c.fuel p c (Nat.le_refl _)

/-- A block in a list is executed like any other statement. -/
theorem proceed_alone (s : Stmt) (stmts rest : List Stmt) :
    env.proceed env.runs s [⟨stmts, rest⟩] =
      Exec.unwinding (env.execStmt env.runAll s) >>= follow env.runs [⟨stmts, rest⟩] := by
  cases s with
  | block inner =>
    have contained : Exec.unwinding (env.runAll inner) = env.runAll inner :=
      Exec.unwinding_of_contained (contained_runAll inner)
    rw [execStmt, contained]
    exact runs_append (.start inner) [⟨stmts, rest⟩]
  | _ => rfl

end Environment

namespace Turn

/-- The loops over the lists that a path leads through do what is due at the point that it leads
to. -/
theorem enter_outcome (astray : RunError) (stmts : List Stmt) (path : List Nat) :
    enter astray (outcome env) stmts path =
      (Point.enter stmts path).elim (throw astray) env.runs := by
  induction path generalizing stmts with
  | nil => rfl
  | cons index path ih =>
    cases path with
    | nil => rfl
    | cons index' path =>
      simp only [enter, Point.enter]
      cases stmts[index]? with
      | none => rfl
      | some s =>
        cases s with
        | block inner =>
          simp only [ih inner]
          cases Point.enter inner (index' :: path) with
          | none => rfl
          | some p => exact (Environment.runs_append p _).symm
        | _ => rfl

/-- What a turn comes to is what it does if those that it leads to come to what they come to. -/
theorem outcome_eq (env : Environment σ) (astray : RunError) (turn : Turn) :
    turn.outcome env = turn.step env astray (outcome env) := by
  obtain ⟨stmts, index, pending?⟩ := turn
  cases pending? with
  | none =>
    simp only [outcome, step]
    cases here : stmts[index]? with
    | none =>
      have through : stmts.drop index = [] :=
        List.drop_eq_nil_of_le (List.getElem?_eq_none_iff.mp here)
      rw [through]
      exact Environment.runs_done rfl
    | some s =>
      obtain ⟨room, rfl⟩ := List.getElem?_eq_some_iff.mp here
      rw [List.drop_eq_getElem_cons room, Environment.runs_begin rfl]
      exact congrArg (env.begin _ >>= fun _ => ·) (Environment.proceed_alone _ _ _)
  | some flow =>
    cases flow with
    | goto label =>
      simp only [outcome, step, Environment.follow, Point.jump?_singleton]
      cases found : Point.locate label stmts with
      | none => rw [Point.find?_eq_none_of_locate found]
      | some path =>
        obtain ⟨p, entered, there⟩ := Point.exists_enter_of_locate found
        rw [there]
        simp only [enter_outcome, entered]
        rfl
    | _ => rfl

end Turn

end ManagedCode
