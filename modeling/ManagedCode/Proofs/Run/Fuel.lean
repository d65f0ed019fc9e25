import ManagedCode.Proofs.Step
import ManagedCode.Run.Execute

namespace ManagedCode

/-- Two steps that do the same with at most `n` units of fuel, and give none back. -/
def Agree {S α : Type} (fuel : S → Nat) (n : Nat) (x y : EStateM RunError S α) : Prop :=
  ∀ s, fuel s ≤ n → x s = y s ∧ fuel (finalState (x s)) ≤ fuel s

namespace Agree

variable {S α β : Type} {fuel : S → Nat} {n : Nat}

theorem pure (a : α) : Agree fuel n (Pure.pure a : EStateM RunError S α) (Pure.pure a) :=
  fun s _ => ⟨rfl, Nat.le_refl (fuel s)⟩

theorem fails (error : RunError) :
    Agree fuel n (throw error : EStateM RunError S α) (throw error) :=
  fun s _ => ⟨rfl, Nat.le_refl (fuel s)⟩

theorem outcome (x : Except RunError α) :
    Agree fuel n (ofExcept x : EStateM RunError S α) (ofExcept x) := by
  cases x with
  | ok a => exact pure a
  | error e => exact fails e

theorem update {f : S → S} (h : ∀ s, fuel (f s) ≤ fuel s) :
    Agree fuel n (modify f : EStateM RunError S PUnit) (modify f) :=
  fun s _ => ⟨rfl, h s⟩

theorem bind {x y : EStateM RunError S α} {f g : α → EStateM RunError S β}
    (first : Agree fuel n x y) (next : ∀ a, Agree fuel n (f a) (g a)) :
    Agree fuel n (x >>= f) (y >>= g) := by
  intro s bound
  obtain ⟨same, less⟩ := first s bound
  change EStateM.bind x f s = EStateM.bind y g s ∧ fuel (finalState (EStateM.bind x f s)) ≤ _
  unfold EStateM.bind
  rw [← same]
  cases h : x s with
  | error e t =>
    rw [h] at less
    exact ⟨rfl, less⟩
  | ok a t =>
    rw [h] at less
    obtain ⟨same', less'⟩ := next a t (Nat.le_trans less bound)
    exact ⟨same', Nat.le_trans less' less⟩

/-- A step may depend on the state it begins in. -/
theorem fromState {f g : S → EStateM RunError S α} (h : ∀ s, Agree fuel n (f s) (g s)) :
    Agree fuel n (get >>= f) (get >>= g) :=
  fun s bound => h s s bound

end Agree

variable {σ α : Type} {n : Nat}

/-! Expressions. -/

/-- Answers of calls inside the machine that agree. -/
def AgreeOnCalls (n : Nat)
    (invoke invoke' : SynthMethodId → List Value → EStateM RunError (World σ) Value) : Prop :=
  ∀ method args, Agree World.fuel n (invoke method args) (invoke' method args)

theorem agree_onHost (action : EStateM RunError σ α) :
    Agree World.fuel n (World.onHost action) (World.onHost action) := by
  intro world _
  refine ⟨rfl, ?_⟩
  unfold World.onHost
  cases action world.host <;> exact Nat.le_refl _

theorem agree_readField (slot : FieldSlot) :
    Agree World.fuel n (World.readField slot : EStateM RunError (World σ) Value)
      (World.readField slot) := by
  refine .fromState fun world => ?_
  cases world.fields[slot.index]? with
  | none => exact .fails _
  | some value => exact .pure value

theorem agree_writeField (slot : FieldSlot) (value : Value) :
    Agree World.fuel n (World.writeField slot value : EStateM RunError (World σ) Unit)
      (World.writeField slot value) := by
  refine .fromState fun world => ?_
  by_cases room : slot.index < world.fields.length
  · simp only [room, if_true]
    exact .update fun _ => Nat.le_refl _
  · simp only [room, if_false]
    exact .fails _

section

variable {host : Host σ} {activation : Activation}
  {invoke invoke' : SynthMethodId → List Value → EStateM RunError (World σ) Value}

mutual

theorem agree_eval (calls : AgreeOnCalls n invoke invoke') (e : Expr) :
    Agree World.fuel n (e.eval host invoke activation) (e.eval host invoke' activation) := by
  cases e with
  | const value => exact .pure _
  | «local» id => exact .outcome _
  | param id => exact .outcome _
  | machineField slot => exact agree_readField slot
  | field receiver member =>
    cases receiver with
    | none => exact agree_onHost _
    | some receiver => exact (agree_eval calls receiver).bind fun _ => agree_onHost _
  | call callee receiver args =>
    cases callee with
    | method member =>
      cases receiver with
      | none => exact (agree_evalAll calls args).bind fun _ => agree_onHost _
      | some receiver =>
        exact (agree_eval calls receiver).bind fun _ =>
          (agree_evalAll calls args).bind fun _ => agree_onHost _
    | synthesized method =>
      cases receiver with
      | none => exact (agree_evalAll calls args).bind fun values => calls method values
      | some receiver =>
        exact (agree_eval calls receiver).bind fun _ =>
          (agree_evalAll calls args).bind fun values => calls method values
  | binary op lhs rhs =>
    exact (agree_eval calls lhs).bind fun _ => (agree_eval calls rhs).bind fun _ => .outcome _
  | unary op operand => exact (agree_eval calls operand).bind fun _ => .outcome _
  | element | addressOf | newArray | typeToken => exact .fails _

theorem agree_evalAll (calls : AgreeOnCalls n invoke invoke') (es : List Expr) :
    Agree World.fuel n (Expr.evalAll host invoke activation es)
      (Expr.evalAll host invoke' activation es) := by
  cases es with
  | nil => exact .pure _
  | cons e es =>
    exact (agree_eval calls e).bind fun _ => (agree_evalAll calls es).bind fun _ => .pure _

end

end

/-! Statements. -/

/-- The fuel that is left for an execution. -/
def Config.fuel (config : Config σ) : Nat := config.world.fuel

namespace Exec

theorem agree_onWorld {action action' : Activation → EStateM RunError (World σ) α}
    (h : ∀ activation, Agree World.fuel n (action activation) (action' activation)) :
    Agree Config.fuel n (onWorld action) (onWorld action') := by
  intro config bound
  obtain ⟨same, less⟩ := h config.activation config.world bound
  unfold onWorld
  rw [← same]
  cases he : action config.activation config.world with
  | ok value world => rw [he] at less; exact ⟨rfl, less⟩
  | error error world => rw [he] at less; exact ⟨rfl, less⟩

theorem agree_setLocal (id : LocalId) (value : Value) :
    Agree Config.fuel n (setLocal id value : Exec σ Unit) (setLocal id value) :=
  .update fun _ => Nat.le_refl _

theorem agree_setParam (id : ParamId) (value : Value) :
    Agree Config.fuel n (setParam id value : Exec σ Unit) (setParam id value) :=
  .fromState fun _ => (Agree.outcome _).bind fun _ => .update fun _ => Nat.le_refl _

theorem agree_unwinding {action action' : Exec σ Flow} (h : Agree Config.fuel n action action') :
    Agree Config.fuel n (unwinding action) (unwinding action') := by
  intro config bound
  obtain ⟨same, less⟩ := h config bound
  unfold unwinding
  rw [← same]
  refine ⟨rfl, ?_⟩
  cases he : action config with
  | ok flow config' => rw [he] at less; exact less
  | error error config' =>
    rw [he] at less
    cases error <;> exact less

end Exec

namespace Environment

variable {env : Environment σ} {run run' : List Stmt → Exec σ Flow}

theorem agree_invoke (h : ∀ stmts, Agree Config.fuel n (run stmts) (run' stmts)) :
    AgreeOnCalls n (env.invoke run) (env.invoke run') := by
  intro method args
  unfold invoke
  cases env.methods[method.index]? with
  | none => exact .fails _
  | some target =>
    intro world bound
    obtain ⟨same, less⟩ := h target.body.root ⟨{ args }, world⟩ bound
    dsimp only
    unfold callBody
    rw [← same]
    refine ⟨rfl, ?_⟩
    cases he : run target.body.root ⟨{ args }, world⟩ with
    | error error config => rw [he] at less; exact less
    | ok flow config =>
      rw [he] at less
      cases flow <;> exact less

theorem agree_eval (h : ∀ stmts, Agree Config.fuel n (run stmts) (run' stmts)) (e : Expr) :
    Agree Config.fuel n (env.eval run e) (env.eval run' e) :=
  Exec.agree_onWorld fun _ => ManagedCode.agree_eval (agree_invoke h) e

theorem agree_write (h : ∀ stmts, Agree Config.fuel n (run stmts) (run' stmts)) (value : Value)
    (place : Place) : Agree Config.fuel n (env.write run value place) (env.write run' value place) := by
  cases place with
  | «local» id => exact Exec.agree_setLocal id value
  | param id => exact Exec.agree_setParam id value
  | machineField slot => exact Exec.agree_onWorld fun _ => agree_writeField slot value
  | field receiver member =>
    cases receiver with
    | none => exact Exec.agree_onWorld fun _ => agree_onHost _
    | some receiver =>
      exact (agree_eval h receiver).bind fun _ => Exec.agree_onWorld fun _ => agree_onHost _
  | element => exact .fails _

theorem agree_evalBool (h : ∀ stmts, Agree Config.fuel n (run stmts) (run' stmts)) (e : Expr) :
    Agree Config.fuel n (env.evalBool run e) (env.evalBool run' e) := by
  refine (agree_eval h e).bind fun value => ?_
  cases value with
  | bool b => exact .pure b
  | _ => exact .fails _

theorem agree_evalInt (h : ∀ stmts, Agree Config.fuel n (run stmts) (run' stmts)) (e : Expr) :
    Agree Config.fuel n (env.evalInt run e) (env.evalInt run' e) := by
  refine (agree_eval h e).bind fun value => ?_
  cases value with
  | int i => exact .pure i
  | _ => exact .fails _

theorem agree_handle (h : ∀ stmts, Agree Config.fuel n (run stmts) (run' stmts))
    (catches : List Catch) (flow : Flow) :
    Agree Config.fuel n (handle run catches flow) (handle run' catches flow) := by
  cases flow with
  | throw value =>
    cases catches with
    | nil => exact .pure _
    | cons clause rest =>
      obtain ⟨_, caught, body⟩ := clause
      cases caught with
      | none => exact (Agree.pure ()).bind fun _ => h body
      | some id => exact (Exec.agree_setLocal id value).bind fun _ => h body
  | _ => exact .pure _

theorem agree_cleanUp (h : ∀ stmts, Agree Config.fuel n (run stmts) (run' stmts))
    (cleanup : List Stmt) (flow : Flow) :
    Agree Config.fuel n (cleanUp run cleanup flow) (cleanUp run' cleanup flow) := by
  refine (h cleanup).bind fun ended => ?_
  cases ended <;> exact .pure _

theorem agree_execStmt (h : ∀ stmts, Agree Config.fuel n (run stmts) (run' stmts)) (s : Stmt) :
    Agree Config.fuel n (env.execStmt run s) (env.execStmt run' s) := by
  cases s with
  | block stmts => exact h stmts
  | expr value => exact (agree_eval h value).bind fun _ => .pure _
  | assign place value =>
    exact (agree_eval h value).bind fun v => (agree_write h v place).bind fun _ => .pure _
  | label | nop | goto => exact .pure _
  | condGoto cond jumpIf target => exact (agree_evalBool h cond).bind fun _ => .pure _
  | switch scrutinee cases default? => exact (agree_evalInt h scrutinee).bind fun _ => .pure _
  | ret value =>
    cases value with
    | none => exact .pure _
    | some value => exact (agree_eval h value).bind fun _ => .pure _
  | yield | yieldBreak => exact .fails _
  | tryCatch id body catches cleanup =>
    refine (h body).bind fun flow => (agree_handle h catches flow).bind fun flow => ?_
    cases cleanup with
    | none => exact .pure _
    | some cleanup => exact agree_cleanUp h cleanup flow
  | tryFault body fault =>
    refine (h body).bind fun flow => ?_
    cases flow with
    | throw value => exact agree_cleanUp h fault _
    | _ => exact .pure _
  | throw value => exact (agree_eval h value).bind fun _ => .pure _

end Environment

/-! Lists of statements: a bound above the fuel makes no difference. -/

def Config.withFuel (config : Config σ) (fuel : Nat) : Config σ :=
  { config with world := { config.world with fuel } }

theorem Exec.tick_zero {config : Config σ} (h : config.fuel = 0) :
    Exec.tick config = .error .stepLimit config := by
  unfold Config.fuel at h
  unfold Exec.tick
  rw [h]

theorem Exec.tick_succ {config : Config σ} (h : config.fuel = n + 1) :
    Exec.tick config = .ok () (config.withFuel n) := by
  unfold Config.fuel at h
  unfold Exec.tick
  rw [h]
  rfl

/-- What follows a unit of fuel has one less. -/
theorem agree_afterTick {x y : Exec σ α} (h : Agree Config.fuel n x y) :
    Agree Config.fuel (n + 1) (Exec.tick >>= fun _ => x) (Exec.tick >>= fun _ => y) := by
  intro config bound
  cases hf : config.fuel with
  | zero =>
    rw [bind_of_error (Exec.tick_zero hf), bind_of_error (Exec.tick_zero hf)]
    exact ⟨rfl, Nat.le_of_eq hf⟩
  | succ fuel =>
    rw [bind_of_ok (Exec.tick_succ hf), bind_of_ok (Exec.tick_succ hf)]
    have room : fuel ≤ n := by omega
    obtain ⟨same, less⟩ := h (config.withFuel fuel) room
    exact ⟨same, Nat.le_succ_of_le less⟩

namespace Environment

variable {env : Environment σ}

/-- Goes on from `after` when a statement ended with a flow, with `go` for what is due at a point. -/
def follow (go : Point → Exec σ Flow) (after : Point) : Flow → Exec σ Flow
  | .normal => go after
  | .goto label =>
    match Point.jump? label after with
    | some target => go target
    | none => return .goto label
  | flow => return flow

/-- Executes a statement and goes on, with `go` for what is due at other points. -/
def advance (env : Environment σ) (go : Point → Exec σ Flow) (stmt : Stmt) (after : Point) :
    Exec σ Flow := do
  Exec.onHost (env.watch stmt)
  match stmt with
  | .block stmts => go (⟨stmts, stmts⟩ :: after)
  | stmt =>
    follow go after (← Exec.unwinding (env.execStmt (fun stmts => go (.start stmts)) stmt))

/-- Where the host takes no note of a statement, it is just executed. -/
theorem advance_eq {go : Point → Exec σ Flow} {stmt : Stmt} {after : Point}
    (still : ∀ host, env.watch stmt host = host) (plain : ∀ stmts, stmt ≠ .block stmts) :
    env.advance go stmt after =
      Exec.unwinding (env.execStmt (fun stmts => go (.start stmts)) stmt) >>= follow go after := by
  have nothing : (Exec.onHost (env.watch stmt) : Exec σ Unit) = pure () := by
    have same : env.watch stmt = fun host => host := funext still
    rw [same]
    rfl
  unfold advance
  rw [nothing]
  cases stmt with
  | block stmts => exact absurd rfl (plain stmts)
  | _ => rfl

theorem run_done {p : Point} (h : p.next? = none) : env.run n p = pure .normal := by
  cases n <;> simp only [run, h] <;> rfl

theorem run_zero {p : Point} {due : Stmt × Point} (h : p.next? = some due) :
    env.run 0 p = throw .stepLimit := by
  simp only [run, h]
  rfl

theorem run_succ {p : Point} {stmt : Stmt} {after : Point} (h : p.next? = some (stmt, after)) :
    env.run (n + 1) p = Exec.tick >>= fun _ => env.advance (env.run n) stmt after := by
  simp only [run, h]
  cases stmt <;> rfl

theorem agree_follow {go go' : Point → Exec σ Flow}
    (h : ∀ p, Agree Config.fuel n (go p) (go' p)) (after : Point) (flow : Flow) :
    Agree Config.fuel n (follow go after flow) (follow go' after flow) := by
  cases flow with
  | normal => exact h after
  | goto label =>
    cases found : Point.jump? label after with
    | none =>
      simp only [follow, found]
      exact .pure _
    | some target =>
      simp only [follow, found]
      exact h target
  | _ => exact .pure _

theorem agree_advance {go go' : Point → Exec σ Flow}
    (h : ∀ p, Agree Config.fuel n (go p) (go' p)) (stmt : Stmt) (after : Point) :
    Agree Config.fuel n (env.advance go stmt after) (env.advance go' stmt after) := by
  refine Agree.bind (.update fun _ => Nat.le_refl _) fun _ => ?_
  have lists : ∀ stmts, Agree Config.fuel n (go (.start stmts)) (go' (.start stmts)) :=
    fun stmts => h _
  cases stmt with
  | block stmts => exact h _
  | _ => exact (Exec.agree_unwinding (agree_execStmt lists _)).bind (agree_follow h after)

theorem agree_run {m : Nat} (bound : n ≤ m) (p : Point) :
    Agree Config.fuel n (env.run n p) (env.run m p) := by
  induction n generalizing m p with
  | zero =>
    intro config room
    have empty : config.fuel = 0 := Nat.le_zero.mp room
    cases hp : p.next? with
    | none =>
      rw [run_done hp, run_done hp]
      exact Agree.pure _ config room
    | some due =>
      rw [run_zero hp]
      refine ⟨?_, Nat.le_refl _⟩
      cases m with
      | zero => rw [run_zero hp]
      | succ m =>
        rw [run_succ hp, bind_of_error (Exec.tick_zero empty)]
        rfl
  | succ n ih =>
    obtain ⟨m, rfl⟩ : ∃ k, m = k + 1 := ⟨m - 1, by omega⟩
    cases hp : p.next? with
    | none =>
      rw [run_done hp, run_done hp]
      exact .pure _
    | some due =>
      rw [run_succ hp, run_succ hp]
      exact agree_afterTick (agree_advance (fun q => ih (by omega) q) _ _)

/-- Executes what is due at a point, with no bound but the fuel. -/
def runs (env : Environment σ) (p : Point) : Exec σ Flow := fun config => env.run config.fuel p config

theorem agree_runs (p : Point) : Agree Config.fuel n (env.run n p) (env.runs p) := by
  intro config bound
  have same : env.run config.fuel p config = env.run n p config :=
    (agree_run bound p config (Nat.le_refl _)).1
  exact ⟨same.symm, (agree_run (Nat.le_refl n) p config bound).2⟩

theorem runs_done {p : Point} (h : p.next? = none) : env.runs p = pure .normal := by
  funext config
  unfold runs
  rw [run_done h]

theorem runs_eq {p : Point} {stmt : Stmt} {after : Point} (h : p.next? = some (stmt, after)) :
    env.runs p = Exec.tick >>= fun _ => env.advance env.runs stmt after := by
  funext config
  unfold runs
  cases hf : config.fuel with
  | zero =>
    rw [run_zero h, bind_of_error (Exec.tick_zero hf)]
    rfl
  | succ fuel =>
    rw [run_succ h]
    exact (agree_afterTick (agree_advance agree_runs stmt after) config (Nat.le_of_eq hf)).1

/-- No execution gives fuel back. -/
theorem runs_fuel_le (p : Point) (config : Config σ) :
    (finalState (env.runs p config)).fuel ≤ config.fuel :=
  (agree_run (Nat.le_refl config.fuel) p config (Nat.le_refl _)).2

/-- Executes a list of statements. -/
def runAll (env : Environment σ) (stmts : List Stmt) : Exec σ Flow :=
  env.runs (.start stmts)

theorem agree_runAll (stmts : List Stmt) :
    Agree Config.fuel n (env.runAll stmts) (env.runAll stmts) :=
  fun config _ => ⟨rfl, runs_fuel_le _ config⟩

end Environment

end ManagedCode
