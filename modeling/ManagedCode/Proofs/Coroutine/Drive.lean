import ManagedCode.Proofs.Run.Calls

namespace ManagedCode

mutual

/-- A statement in which a yield break returns, so that it leaves through the cleanups around it. -/
def Stmt.returning : Stmt → Stmt
  | .yieldBreak => .ret none
  | .block stmts => .block (Stmt.returningAll stmts)
  | .tryCatch id body catches none =>
    .tryCatch id (Stmt.returningAll body) (Catch.returningAll catches) none
  | .tryCatch id body catches (some cleanup) =>
    .tryCatch id (Stmt.returningAll body) (Catch.returningAll catches)
      (some (Stmt.returningAll cleanup))
  | .tryFault body fault => .tryFault (Stmt.returningAll body) (Stmt.returningAll fault)
  | s => s

def Stmt.returningAll : List Stmt → List Stmt
  | [] => []
  | s :: ss => s.returning :: Stmt.returningAll ss

def Catch.returning : Catch → Catch
  | .mk exceptionTy caught body => .mk exceptionTy caught (Stmt.returningAll body)

def Catch.returningAll : List Catch → List Catch
  | [] => []
  | c :: cs => c.returning :: Catch.returningAll cs

end

mutual

/-- There is a yield in a statement. -/
def Stmt.yields : Stmt → Bool
  | .yield _ => true
  | .block stmts => Stmt.anyYields stmts
  | .tryCatch _ body catches none => Stmt.anyYields body || Catch.anyYields catches
  | .tryCatch _ body catches (some cleanup) =>
    Stmt.anyYields body || Catch.anyYields catches || Stmt.anyYields cleanup
  | .tryFault body fault => Stmt.anyYields body || Stmt.anyYields fault
  | _ => false

def Stmt.anyYields : List Stmt → Bool
  | [] => false
  | s :: ss => s.yields || Stmt.anyYields ss

def Catch.anyYields : List Catch → Bool
  | [] => false
  | .mk _ _ body :: cs => Stmt.anyYields body || Catch.anyYields cs

end

/-- A try statement that was entered and is not left yet, and where to go on after it. -/
structure OpenTry where
  id : TryId
  catches : List Catch
  finally? : Option (List Stmt)
  after : Point
  deriving Inhabited

/-- What a body does when it is run up to its next yield. -/
inductive Outcome where
  /-- It handed out a value, and goes on from a point inside the open try statements. -/
  | paused (value : Value) (point : Point) (opened : List OpenTry)
  | ended (flow : Flow)
  deriving Inhabited

/-- What the host is told about try statements that yield. -/
structure Observer (σ : Type) where
  entered : TryId → σ → σ := fun _ host => host
  leaving : TryId → σ → σ := fun _ host => host

namespace Coroutine

variable {σ : Type} (env : Environment σ) (observer : Observer σ)
  (go : Point → List OpenTry → Exec σ Outcome)

/-- Leaves a try statement whose body ended with a flow: through its clauses, like any other. -/
def leaveTry (try_ : OpenTry) (flow : Flow) : Exec σ Flow := do
  Exec.onHost (observer.leaving try_.id)
  let flow ← Environment.handle env.runAll try_.catches flow
  match try_.finally? with
  | some cleanup => Environment.cleanUp env.runAll cleanup flow
  | none => return flow

/-- Goes on at a point when something there ended with a flow; `leave` is for what leads out. -/
def land (leave : Flow → Exec σ Outcome) (point : Point) (opened : List OpenTry) :
    Flow → Exec σ Outcome
  | .normal => go point opened
  | .goto label =>
    match Point.jump? label point with
    | some target => go target opened
    | none => leave (.goto label)
  | flow => leave flow

/-- Leaves the open try statements with a flow, until one ends so that there is more to do. -/
def leave : List OpenTry → Flow → Exec σ Outcome
  | [], flow => return .ended flow
  | try_ :: outer, flow => do
    land go (leave outer) try_.after outer (← leaveTry env observer try_ flow)

/-- Leaves try statements, innermost first, where every flow leads further out. -/
def unwind : List OpenTry → Flow → Exec σ Flow
  | [], flow => return flow
  | try_ :: outer, flow => do unwind outer (← leaveTry env observer try_ flow)

/-- Executes a statement and goes on. A try statement that yields is opened; every other statement
but a yield is executed as it always is. -/
def advance (stmt : Stmt) (after : Point) (opened : List OpenTry) : Exec σ Outcome :=
  match stmt with
  | .block stmts => go (⟨stmts, stmts⟩ :: after) opened
  | .yield value => do
    match ← Exec.unwinding (do return .ret (← env.eval env.runAll value)) with
    | .ret value => return .paused value after opened
    | flow => leave env observer go opened flow
  | .tryCatch id body catches finally? =>
    if Stmt.anyYields body then do
      Exec.onHost (observer.entered id)
      go (.start body) (⟨id, catches, finally?, after⟩ :: opened)
    else do
      let flow ← Exec.unwinding (env.execStmt env.runAll (.tryCatch id body catches finally?))
      land go (leave env observer go opened) after opened flow
  | stmt => do
    land go (leave env observer go opened) after opened
      (← Exec.unwinding (env.execStmt env.runAll stmt))

/-- Runs a body up to its next yield. Each statement, and leaving a try statement at the end of its
body, takes one unit of fuel, and `bound` is no less than the fuel that is left. -/
def drive : (bound : Nat) → Point → List OpenTry → Exec σ Outcome
  | 0, point, opened =>
    if point.next?.isNone && opened.isEmpty then return .ended .normal else throw .stepLimit
  | bound + 1, point, opened =>
    match point.next?, opened with
    | none, [] => return .ended .normal
    | none, opened => do
      Exec.tick
      leave env observer (drive bound) opened .normal
    | some (stmt, after), opened => do
      Exec.tick
      advance env observer (drive bound) stmt after opened

theorem unwind_append (inner outer : List OpenTry) (flow : Flow) :
    unwind env observer (inner ++ outer) flow =
      unwind env observer inner flow >>= unwind env observer outer := by
  induction inner generalizing flow with
  | nil => rfl
  | cons try_ inner ih =>
    have step : unwind env observer (try_ :: inner ++ outer) flow =
        leaveTry env observer try_ flow >>= unwind env observer (inner ++ outer) := rfl
    rw [step, funext ih, ← bind_assoc]
    rfl

/-! A bound above the fuel makes no difference. -/

variable {env observer} {n : Nat}

theorem agree_leaveTry (try_ : OpenTry) (flow : Flow) :
    Agree Config.fuel n (leaveTry env observer try_ flow) (leaveTry env observer try_ flow) := by
  refine Agree.bind (.update fun _ => Nat.le_refl _) fun _ => ?_
  refine (Environment.agree_handle Environment.agree_runAll _ _).bind fun flow => ?_
  cases try_.finally? with
  | none => exact .pure _
  | some cleanup => exact Environment.agree_cleanUp Environment.agree_runAll cleanup flow

variable {go go' : Point → List OpenTry → Exec σ Outcome}

theorem agree_land {leave leave' : Flow → Exec σ Outcome}
    (h : ∀ p opened, Agree Config.fuel n (go p opened) (go' p opened))
    (leaves : ∀ flow, Agree Config.fuel n (leave flow) (leave' flow)) (point : Point)
    (opened : List OpenTry) (flow : Flow) :
    Agree Config.fuel n (land go leave point opened flow) (land go' leave' point opened flow) := by
  cases flow with
  | normal => exact h point opened
  | goto label =>
    cases found : Point.jump? label point with
    | none =>
      simp only [land, found]
      exact leaves _
    | some target =>
      simp only [land, found]
      exact h target opened
  | _ => exact leaves _

theorem agree_leave (h : ∀ p opened, Agree Config.fuel n (go p opened) (go' p opened))
    (opened : List OpenTry) (flow : Flow) :
    Agree Config.fuel n (leave env observer go opened flow)
      (leave env observer go' opened flow) := by
  induction opened generalizing flow with
  | nil => exact .pure _
  | cons try_ outer ih =>
    exact (agree_leaveTry try_ flow).bind (agree_land h ih _ _)

theorem agree_advance (h : ∀ p opened, Agree Config.fuel n (go p opened) (go' p opened))
    (stmt : Stmt) (after : Point) (opened : List OpenTry) :
    Agree Config.fuel n (advance env observer go stmt after opened)
      (advance env observer go' stmt after opened) := by
  have ordinary : ∀ stmt, Agree Config.fuel n
      (Exec.unwinding (env.execStmt env.runAll stmt) >>=
        land go (leave env observer go opened) after opened)
      (Exec.unwinding (env.execStmt env.runAll stmt) >>=
        land go' (leave env observer go' opened) after opened) := fun stmt =>
    (Exec.agree_unwinding (Environment.agree_execStmt Environment.agree_runAll stmt)).bind
      (agree_land h (agree_leave h opened) after opened)
  cases stmt with
  | block stmts => exact h _ _
  | yield value =>
    refine Agree.bind (Exec.agree_unwinding ?_) fun flow => ?_
    · exact (Environment.agree_eval Environment.agree_runAll value).bind fun _ => .pure _
    · cases flow with
      | ret value => exact .pure _
      | _ => exact agree_leave h opened _
  | tryCatch id body catches cleanup =>
    by_cases suspends : Stmt.anyYields body = true
    · simp only [advance, suspends, if_true]
      exact Agree.bind (.update fun _ => Nat.le_refl _) fun _ => h _ _
    · simp only [advance, suspends]
      exact ordinary _
  | _ => exact ordinary _

theorem drive_done {p : Point} (h : p.next? = none) :
    drive env observer n p [] = pure (.ended .normal) := by
  cases n <;> simp only [drive, h] <;> rfl

theorem drive_zero {p : Point} {opened : List OpenTry}
    (h : p.next?.isNone = false ∨ opened.isEmpty = false) :
    drive env observer 0 p opened = throw .stepLimit := by
  rcases h with h | h <;> simp [drive, h]

theorem drive_leave {p : Point} (h : p.next? = none) (try_ : OpenTry) (outer : List OpenTry) :
    drive env observer (n + 1) p (try_ :: outer) =
      Exec.tick >>= fun _ => leave env observer (drive env observer n) (try_ :: outer) .normal := by
  simp only [drive, h]

theorem drive_succ {p : Point} {stmt : Stmt} {after : Point} (h : p.next? = some (stmt, after))
    (opened : List OpenTry) :
    drive env observer (n + 1) p opened =
      Exec.tick >>= fun _ => advance env observer (drive env observer n) stmt after opened := by
  simp only [drive, h]

theorem agree_drive {m : Nat} (bound : n ≤ m) (p : Point) (opened : List OpenTry) :
    Agree Config.fuel n (drive env observer n p opened) (drive env observer m p opened) := by
  induction n generalizing m p opened with
  | zero =>
    intro config room
    have empty : config.fuel = 0 := Nat.le_zero.mp room
    cases hp : p.next? with
    | none =>
      cases opened with
      | nil =>
        rw [drive_done hp, drive_done hp]
        exact Agree.pure _ config room
      | cons try_ outer =>
        rw [drive_zero (.inr rfl)]
        refine ⟨?_, Nat.le_refl _⟩
        cases m with
        | zero => rw [drive_zero (.inr rfl)]
        | succ m =>
          rw [drive_leave hp, bind_of_error (Exec.tick_zero empty)]
          rfl
    | some due =>
      have more : p.next?.isNone = false := by rw [hp]; rfl
      rw [drive_zero (.inl more)]
      refine ⟨?_, Nat.le_refl _⟩
      cases m with
      | zero => rw [drive_zero (.inl more)]
      | succ m =>
        rw [drive_succ hp, bind_of_error (Exec.tick_zero empty)]
        rfl
  | succ n ih =>
    obtain ⟨m, rfl⟩ : ∃ k, m = k + 1 := ⟨m - 1, by omega⟩
    have inner : ∀ p opened, Agree Config.fuel n (drive env observer n p opened)
        (drive env observer m p opened) := fun p opened => ih (by omega) p opened
    cases hp : p.next? with
    | none =>
      cases opened with
      | nil =>
        rw [drive_done hp, drive_done hp]
        exact .pure _
      | cons try_ outer =>
        rw [drive_leave hp, drive_leave hp]
        exact agree_afterTick (agree_leave inner _ _)
    | some due =>
      rw [drive_succ hp, drive_succ hp]
      exact agree_afterTick (agree_advance inner _ _ _)

variable (env observer) in
/-- Runs a body up to its next yield, with no bound but the fuel. -/
def drives (p : Point) (opened : List OpenTry) : Exec σ Outcome := fun config =>
  drive env observer config.fuel p opened config

theorem agree_drives (p : Point) (opened : List OpenTry) :
    Agree Config.fuel n (drive env observer n p opened) (drives env observer p opened) := by
  intro config bound
  have same : drive env observer config.fuel p opened config =
      drive env observer n p opened config :=
    (agree_drive bound p opened config (Nat.le_refl _)).1
  exact ⟨same.symm, (agree_drive (Nat.le_refl n) p opened config bound).2⟩

theorem drives_done {p : Point} (h : p.next? = none) :
    drives env observer p [] = pure (.ended .normal) := by
  funext config
  unfold drives
  rw [drive_done h]

theorem drives_leave {p : Point} (h : p.next? = none) (try_ : OpenTry) (outer : List OpenTry) :
    drives env observer p (try_ :: outer) =
      Exec.tick >>= fun _ => leave env observer (drives env observer) (try_ :: outer) .normal := by
  funext config
  unfold drives
  cases hf : config.fuel with
  | zero =>
    rw [drive_zero (.inr rfl), bind_of_error (Exec.tick_zero hf)]
    rfl
  | succ fuel =>
    rw [drive_leave h]
    exact (agree_afterTick (agree_leave agree_drives _ _) config (Nat.le_of_eq hf)).1

theorem drives_eq {p : Point} {stmt : Stmt} {after : Point} (h : p.next? = some (stmt, after))
    (opened : List OpenTry) :
    drives env observer p opened =
      Exec.tick >>= fun _ => advance env observer (drives env observer) stmt after opened := by
  funext config
  unfold drives
  cases hf : config.fuel with
  | zero =>
    have more : p.next?.isNone = false := by rw [h]; rfl
    rw [drive_zero (.inl more), bind_of_error (Exec.tick_zero hf)]
    rfl
  | succ fuel =>
    rw [drive_succ h]
    exact (agree_afterTick (agree_advance agree_drives _ _ _) config (Nat.le_of_eq hf)).1

/-! No run fails with an exception. -/

theorem contained_leaveTry (try_ : OpenTry) (flow : Flow) :
    (leaveTry env observer try_ flow).Contained := by
  refine .bind (.onHost _) fun _ => .bind (Environment.contained_handle _ _) fun flow => ?_
  cases try_.finally? with
  | none => exact .pure _
  | some cleanup => exact Environment.contained_cleanUp cleanup flow

theorem contained_unwind (opened : List OpenTry) (flow : Flow) :
    (unwind env observer opened flow).Contained := by
  induction opened generalizing flow with
  | nil => exact .pure _
  | cons try_ outer ih => exact .bind (contained_leaveTry try_ flow) ih

theorem contained_land {leave : Flow → Exec σ Outcome} (goes : ∀ p opened, (go p opened).Contained)
    (leaves : ∀ flow, (leave flow).Contained) (point : Point) (opened : List OpenTry) (flow : Flow) :
    (land go leave point opened flow).Contained := by
  cases flow with
  | normal => exact goes point opened
  | goto label =>
    simp only [land]
    cases Point.jump? label point with
    | none => exact leaves _
    | some target => exact goes target opened
  | _ => exact leaves _

theorem contained_leave (goes : ∀ p opened, (go p opened).Contained) (opened : List OpenTry)
    (flow : Flow) : (leave env observer go opened flow).Contained := by
  induction opened generalizing flow with
  | nil => exact .pure _
  | cons try_ outer ih =>
    exact .bind (contained_leaveTry try_ flow) (contained_land goes ih try_.after outer)

theorem contained_advance (goes : ∀ p opened, (go p opened).Contained) (stmt : Stmt) (after : Point)
    (opened : List OpenTry) : (advance env observer go stmt after opened).Contained := by
  have ordinary : ∀ stmt, (Exec.unwinding (env.execStmt env.runAll stmt) >>=
      land go (leave env observer go opened) after opened).Contained := fun stmt =>
    .bind (.unwinding _) (contained_land goes (contained_leave goes opened) after opened)
  cases stmt with
  | block stmts => exact goes _ _
  | yield value =>
    refine .bind (.unwinding _) fun flow => ?_
    cases flow with
    | ret value => exact .pure _
    | _ => exact contained_leave goes opened _
  | tryCatch id body catches cleanup =>
    by_cases suspends : Stmt.anyYields body = true
    · simp only [advance, suspends, if_true]
      exact .bind (.onHost _) fun _ => goes _ _
    · simp only [advance, suspends]
      exact ordinary _
  | _ => exact ordinary _

theorem contained_drive (n : Nat) (p : Point) (opened : List OpenTry) :
    (drive env observer n p opened).Contained := by
  induction n generalizing p opened with
  | zero =>
    unfold drive
    split
    · exact .pure _
    · exact fun _ _ _ h => by cases h
  | succ n ih =>
    unfold drive
    split
    · exact .pure _
    · exact .bind .tick fun _ => contained_leave ih _ _
    · exact .bind .tick fun _ => contained_advance ih _ _ _

theorem contained_drives (p : Point) (opened : List OpenTry) :
    (drives env observer p opened).Contained := fun c => contained_drive c.fuel p opened c

end Coroutine

end ManagedCode
