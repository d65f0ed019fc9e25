import ManagedCode.Proofs.Run.MoreFuel
import ManagedCode.Proofs.Run.NestedLists
import Mathlib.Logic.Function.Iterate

namespace ManagedCode

variable {σ : Type} {env : Environment σ} {astray : RunError} {go : Turn → Exec σ Flow} {n : Nat}

namespace Point

/-- At a point that begins, a statement of its innermost block is due. -/
def Begins : Point → Prop
  | ⟨_, _ :: _⟩ :: _ => True
  | _ => False

theorem Begins.exists_next? {p : Point} (h : p.Begins) : ∃ s after, p.next? = some (s, after) := by
  obtain _ | ⟨⟨stmts, _ | ⟨s, rest⟩⟩, outer⟩ := p
  · exact h.elim
  · exact h.elim
  · exact ⟨s, _, rfl⟩

theorem Begins.append {p : Point} (h : p.Begins) (q : Point) : (p ++ q).Begins := by
  obtain _ | ⟨⟨stmts, _ | ⟨s, rest⟩⟩, outer⟩ := p
  · exact h.elim
  · exact h.elim
  · trivial

theorem Begins.of_append {p q : Point} (h : (p ++ q).Begins) (some : p ≠ []) : p.Begins := by
  obtain _ | ⟨⟨stmts, _ | ⟨s, rest⟩⟩, outer⟩ := p
  · exact absurd rfl some
  · exact h.elim
  · trivial

mutual

/-- A jump goes to a statement, which is the definition of its label. -/
theorem begins_of_find? {label : LabelId} {stmts rest : List Stmt} {p : Point}
    (found : find? label stmts rest = some p) : p.Begins := by
  cases rest with
  | nil => cases found
  | cons s rest =>
    rw [find?] at found
    cases here : findIn? label stmts rest s with
    | none =>
      rw [here] at found
      exact begins_of_find? found
    | some point =>
      rw [here] at found
      cases found
      exact begins_of_findIn? here

theorem begins_of_findIn? {label : LabelId} {stmts rest : List Stmt} {s : Stmt} {p : Point}
    (found : findIn? label stmts rest s = some p) : p.Begins := by
  cases s with
  | label l =>
    rw [findIn?] at found
    split at found
    · cases found
      trivial
    · cases found
  | block inner =>
    rw [findIn?] at found
    obtain ⟨point, there, rfl⟩ := Option.map_eq_some_iff.mp found
    exact (begins_of_find? there).append _
  | _ => cases found

end

theorem enter_ne_nil {stmts : List Stmt} {path : List Nat} {p : Point}
    (entered : enter stmts path = some p) : p ≠ [] := by
  rintro rfl
  cases path with
  | nil => cases entered
  | cons index path =>
    cases path with
    | nil => cases entered
    | cons index' path =>
      rw [enter] at entered
      · cases here : stmts[index]? with
        | none => rw [here] at entered; cases entered
        | some s =>
          rw [here] at entered
          cases s with
          | block inner =>
            obtain ⟨point, -, empty⟩ := Option.map_eq_some_iff.mp entered
            exact List.cons_ne_nil _ _ (List.append_eq_nil_iff.mp empty).2
          | _ => cases entered
      · exact nofun

end Point

namespace Environment

theorem agree_runs_self (p : Point) : Agree Config.fuel n (env.runs p) (env.runs p) :=
  fun c _ => ⟨rfl, runs_fuel_le p c⟩

/-- Where a statement is due, an execution that ends there has executed one. -/
theorem runs_fuel_lt {p : Point} (begins : p.Begins) {c c' : Config σ} {flow : Flow}
    (h : env.runs p c = .ok flow c') : c'.fuel < c.fuel := by
  obtain ⟨s, after, due⟩ := begins.exists_next?
  rw [runs_eq due] at h
  cases hf : c.fuel with
  | zero =>
    rw [bind_of_error (Exec.tick_zero hf)] at h
    cases h
  | succ k =>
    rw [bind_of_ok (Exec.tick_succ hf)] at h
    have kept : Agree Config.fuel k (env.advance env.runs s after) (env.advance env.runs s after) :=
      agree_advance agree_runs_self s after
    have less := (kept (c.withFuel k) (Nat.le_refl k)).2
    rw [h] at less
    exact Nat.lt_succ_of_le less

end Environment

namespace Turn

/-- How deep the turns are nested in a turn, at the most. -/
def depth (turn : Turn) (fuel : Nat) : Nat := 2 * fuel + turn.pending?.elim 1 fun _ => 2

theorem depth_le (turn : Turn) (fuel : Nat) : turn.depth fuel ≤ 2 * fuel + 2 := by
  unfold depth
  cases turn.pending? <;> simp

/-- Turns that are nested no deeper than `n` come to what they come to. -/
def Settled (env : Environment σ) (n : Nat) (go : Turn → Exec σ Flow) : Prop :=
  ∀ (turn : Turn) (c : Config σ), turn.depth c.fuel ≤ n → go turn c = turn.outcome env c

theorem agree_outcome (turn : Turn) :
    Agree Config.fuel n (turn.outcome env) (turn.outcome env) := by
  obtain ⟨stmts, index, _ | flow⟩ := turn
  · exact Environment.agree_runs_self _
  · exact Environment.agree_follow Environment.agree_runs_self _ flow

/-- With little enough fuel, all turns are settled. -/
theorem Settled.agree (h : Settled env n go) {fuel : Nat} (room : 2 * fuel + 2 ≤ n) (turn : Turn) :
    Agree Config.fuel fuel (go turn) (turn.outcome env) := by
  intro c bound
  have deep : turn.depth c.fuel ≤ 2 * c.fuel + 2 := turn.depth_le c.fuel
  rw [h turn c (by omega)]
  exact ⟨rfl, (agree_outcome turn c (Nat.le_refl _)).2⟩

/-- The label that a path leads to is executed before any loop on the way goes on. -/
theorem Settled.enter (h : Settled env n go) {c : Config σ} (room : 2 * c.fuel + 1 ≤ n)
    {stmts : List Stmt} {path : List Nat} {p : Point} (entered : Point.enter stmts path = some p)
    (begins : p.Begins) : enter astray go stmts path c = enter astray (outcome env) stmts path c := by
  induction path generalizing stmts p with
  | nil => exact h ⟨stmts, 0, none⟩ c room
  | cons index path ih =>
    cases path with
    | nil => exact h ⟨stmts, index, none⟩ c room
    | cons index' path =>
      simp only [Turn.enter, Point.enter] at entered ⊢
      cases here : stmts[index]? with
      | none => rfl
      | some s =>
        rw [here] at entered
        cases s with
        | block inner =>
          obtain ⟨q, there, rfl⟩ := Option.map_eq_some_iff.mp entered
          have first := begins.of_append (Point.enter_ne_nil there)
          have same := ih there first
          simp only
          cases ran : Turn.enter astray (outcome env) inner (index' :: path) c with
          | error error t => rw [bind_of_error ran, bind_of_error (same.trans ran)]
          | ok flow t =>
            rw [bind_of_ok ran, bind_of_ok (same.trans ran)]
            rw [enter_outcome, there] at ran
            -- The label took a unit of fuel in the inner list, which makes room for the outer one.
            have less := Environment.runs_fuel_lt first ran
            exact h ⟨stmts, index, some flow⟩ t (show 2 * t.fuel + 2 ≤ n by omega)
        | _ => rfl

/-- One more turn settles the turns that are nested one deeper. -/
theorem Settled.step (h : Settled env n go) : Settled env (n + 1) (step env astray go) := by
  intro turn c deep
  rw [outcome_eq env astray turn]
  obtain ⟨stmts, index, _ | flow⟩ := turn
  · replace deep : 2 * c.fuel + 1 ≤ n + 1 := deep
    simp only [Turn.step]
    cases stmts[index]? with
    | none => rfl
    | some s =>
      simp only
      cases hf : c.fuel with
      | zero => rw [bind_of_error (Environment.begin_zero s hf), bind_of_error (Environment.begin_zero s hf)]
      | succ k =>
        rw [bind_of_ok (Environment.begin_succ s hf), bind_of_ok (Environment.begin_succ s hf)]
        -- The statement took a unit of fuel, so whatever turn comes next is settled.
        have nested : ∀ turn, Agree Config.fuel k (go turn) (turn.outcome env) :=
          h.agree (by omega)
        have executed : Agree Config.fuel k
            (Exec.unwinding (env.execStmt (fun inner => go ⟨inner, 0, none⟩) s))
            (Exec.unwinding (env.execStmt (fun inner => outcome env ⟨inner, 0, none⟩) s)) :=
          Exec.agree_unwinding (Environment.agree_execStmt (fun inner => nested ⟨inner, 0, none⟩) s)
        have same := executed.bind fun flow => nested ⟨stmts, index, some flow⟩
        exact (same (env.begun s c k) (Nat.le_refl k)).1
  · replace deep : 2 * c.fuel + 2 ≤ n + 1 := deep
    have room : 2 * c.fuel + 1 ≤ n := by omega
    cases flow with
    | normal => exact h ⟨stmts, index + 1, none⟩ c room
    | goto label =>
      simp only [Turn.step]
      cases found : Point.locate label stmts with
      | none => rfl
      | some path =>
        obtain ⟨p, entered, there⟩ := Point.exists_enter_of_locate found
        exact h.enter room entered (Point.begins_of_find? there)
    | _ => rfl

/-- So many turns in each other settle all that are nested no deeper, whatever is done beyond. -/
theorem settled_iterate (env : Environment σ) (astray : RunError) (go : Turn → Exec σ Flow) (n : Nat) :
    Settled env n ((Turn.step env astray)^[n] go) := by
  induction n with
  | zero =>
    intro turn c deep
    unfold depth at deep
    cases h : turn.pending? <;> simp [h] at deep
  | succ n ih =>
    rw [Function.iterate_succ_apply']
    exact ih.step

end Turn

/-- An execution whose list is executed by turns that are settled is the execution. -/
theorem Environment.callBody_settled {body : Body} {args : List Value} {w : World σ}
    (h : Turn.Settled env n go) (room : 2 * w.fuel + 1 ≤ n) :
    callBody (fun stmts => go ⟨stmts, 0, none⟩) body args w = env.execute body args w := by
  have same : go ⟨body.root, 0, none⟩ ⟨{ args }, w⟩ =
      env.run w.fuel (.start body.root) ⟨{ args }, w⟩ :=
    h ⟨body.root, 0, none⟩ ⟨{ args }, w⟩ room
  unfold execute callBody
  dsimp only
  rw [same]

section

variable {host : Host σ} {methods : List SynthesizedMethod} {body : Body} {args : List Value}
  {w w' : World (Observed σ)} {r : Except RunError Value}

/-- Where an execution runs out of fuel, a statement is due that is executed with more. -/
theorem Environment.execute_due
    (h : (observing host methods).execute body args w = reached (.error .stepLimit) w') :
    host.Raises .stepLimit ∨ w'.fuel = 0 ∧ ∀ more, 0 < more →
      w'.host.executed.length < (finalState ((observing host methods).execute body args
        (w.withFuel (w.fuel + more)))).host.executed.length := by
  by_cases raised : host.Raises .stepLimit
  · exact .inl raised
  have longer : ∀ more, w'.Outlasted host more (finalState
      ((observing host methods).execute body args (w.withFuel (w.fuel + more)))) := by
    intro more
    obtain ⟨r, w'', h'⟩ := exists_reached
      ((observing host methods).execute body args (w.withFuel (w.fuel + more)))
    have outlasted := execute_outlasted h more h'
    rwa [h', Exec.Lasts.finalState_reached]
  have due more := (longer more).due.resolve_left raised
  exact .inr ⟨(due 0).1, fun more => (due more).2⟩

/-- An execution that does more with more fuel ran out of it. -/
theorem Environment.execute_runsOut
    (h : (observing host methods).execute body args w = reached r w') {more : Nat}
    (longer : w'.host.executed.length < (finalState ((observing host methods).execute body args
      (w.withFuel (w.fuel + more)))).host.executed.length) :
    r = .error .stepLimit ∧ w'.fuel = 0 := by
  by_contra through
  rw [execute_ends h (not_and_or.mp through) more, Exec.Lasts.finalState_reached] at longer
  exact Nat.lt_irrefl _ longer

end

/-- Every execution ends, whatever jumps, regions and calls it is made of. Turns are nested in each
other no deeper than the fuel lets them, so that nothing hangs on what would be done `beyond`, and
none gives fuel back. An execution takes a unit of fuel for each of its statements, and runs out of
it just where a statement is due and there is none left. -/
theorem execute_terminates (host : Host σ) (methods : List SynthesizedMethod) (astray : RunError)
    (beyond : Turn → Exec (Observed σ) Flow) :
    let env := Environment.observing host methods
    let nested depth := (Turn.step env astray)^[depth] beyond
    (∀ turn c, nested (2 * c.fuel + 2) turn c = turn.outcome env c ∧
      (finalState (turn.outcome env c)).fuel ≤ c.fuel) ∧
    ∀ body args fields start f,
      let result fuel := env.execute body args ⟨fields, fuel, { host := start }⟩
      let executed fuel := (finalState (result fuel)).host.executed.length
      Environment.callBody (fun stmts => nested (2 * f + 2) ⟨stmts, 0, none⟩) body args
        ⟨fields, f, { host := start }⟩ = result f ∧
      ∃ r w, result f = reached r w ∧ executed f + w.fuel = f ∧
        (r = .error .stepLimit →
          host.Raises .stepLimit ∨ w.fuel = 0 ∧ ∀ more, 0 < more → f < executed (f + more)) ∧
        ∀ more, f < executed (f + more) → r = .error .stepLimit ∧ w.fuel = 0 := by
  intro env nested
  have settled : ∀ n, Turn.Settled env n (nested n) := Turn.settled_iterate env astray beyond
  refine ⟨fun turn c => ⟨settled _ turn c (turn.depth_le c.fuel),
    (Turn.agree_outcome turn c (Nat.le_refl _)).2⟩, fun body args fields start f => ?_⟩
  intro result executed
  obtain ⟨r, w, h⟩ := exists_reached (result f)
  have seen : executed f = w.host.executed.length := by
    simp only [executed, h, Exec.Lasts.finalState_reached]
  have count : executed f + w.fuel = f := by
    rw [seen]
    exact (Environment.execute_elapsed h).count.trans (Nat.zero_add f)
  refine ⟨Environment.callBody_settled (settled _) (Nat.le_succ _), r, w, h, count, ?_, ?_⟩
  · rintro rfl
    refine (Environment.execute_due h).imp_right fun ⟨empty, longer⟩ => ⟨empty, fun more some => ?_⟩
    have all : w.host.executed.length = f := by omega
    exact all ▸ longer more some
  · intro more longer
    have least : w.host.executed.length ≤ f := by omega
    exact Environment.execute_runsOut h (Nat.lt_of_le_of_lt least longer)

/-- Methods that only call each other run out of fuel. -/
example :
    let call id : Body := { root := [.expr (.call (.synthesized id) none [])] }
    let method id : SynthesizedMethod := { (default : SynthesizedMethod) with body := call id }
    let env := Environment.observing Script.host [method ⟨1⟩, method ⟨0⟩]
    ∃ w, env.execute (call ⟨0⟩) [] ⟨[], 3, { host := {} }⟩ = .error .stepLimit w ∧
      w.host.executed.length = 3 ∧ w.fuel = 0 :=
  ⟨_, rfl, rfl, rfl⟩

end ManagedCode
