import ManagedCode.Proofs.Run.DoneBy

namespace ManagedCode

/-! What holds of each step of an execution, and of what is put together from steps. -/

variable {σ α β : Type} {n : Nat}

/-- Tells the host of a statement that is due and takes a unit of fuel for it. -/
def Environment.begin (env : Environment σ) (s : Stmt) : Exec σ Unit := do
  Exec.tick
  Exec.onHost (env.watch s)

/-- Where a statement was begun that left so much fuel. -/
def Environment.begun (env : Environment σ) (s : Stmt) (c : Config σ) (left : Nat) : Config σ :=
  { c with world := { c.world with fuel := left, host := env.watch s c.world.host } }

theorem Environment.begin_zero {env : Environment σ} {c : Config σ} (s : Stmt) (h : c.fuel = 0) :
    env.begin s c = .error .stepLimit c :=
  bind_of_error (Exec.tick_zero h)

theorem Environment.begin_succ {env : Environment σ} {c : Config σ} (s : Stmt) (h : c.fuel = n + 1) :
    env.begin s c = .ok () (env.begun s c n) := by
  rw [Environment.begin, bind_of_ok (Exec.tick_succ h)]
  rfl

/-- Executes a statement that was begun and goes on, with `go` for what is due at other points. -/
def Environment.proceed (env : Environment σ) (go : Point → Exec σ Flow) (s : Stmt) (after : Point) :
    Exec σ Flow :=
  match s with
  | .block stmts => go (⟨stmts, stmts⟩ :: after)
  | s => do
    Environment.follow go after
      (← Exec.unwinding (env.execStmt (fun stmts => go (.start stmts)) s))

theorem Environment.runs_begin {env : Environment σ} {p after : Point} {s : Stmt}
    (due : p.next? = some (s, after)) :
    env.runs p = env.begin s >>= fun _ => env.proceed env.runs s after := by
  rw [runs_eq due, Environment.begin, bind_assoc]
  cases s <;> rfl

/-! No operation runs out of fuel. -/

theorem Flow.result_ne_stepLimit (flow : Flow) : flow.result ≠ .error .stepLimit := by
  intro h
  cases flow <;> cases h

theorem Activation.readLocal_ne_stepLimit (activation : Activation) (id : LocalId) :
    activation.readLocal id ≠ .error .stepLimit := by
  unfold readLocal
  split <;> exact nofun

theorem Activation.readParam_ne_stepLimit (activation : Activation) (id : ParamId) :
    activation.readParam id ≠ .error .stepLimit := by
  unfold readParam
  split <;> exact nofun

theorem BinaryOp.apply_ne_stepLimit (op : BinaryOp) (lhs rhs : Value) :
    op.apply lhs rhs ≠ .error .stepLimit := by
  intro h
  unfold apply at h
  split at h <;> first | cases h | (split at h <;> cases h)

theorem UnaryOp.apply_ne_stepLimit (op : UnaryOp) (operand : Value) :
    op.apply operand ≠ .error .stepLimit := by
  unfold apply
  split <;> exact nofun

/-- A property that executions have for at most so much fuel, if those for less fuel have it. -/
structure Environment.Inherited (env : Environment σ) (P : Nat → (α : Type) → Exec σ α → Prop) :
    Prop where
  pure : ∀ {n α} (a : α), P n α (Pure.pure a)
  /-- An execution runs out of fuel only where a statement begins. -/
  fails : ∀ {n α} {error : RunError}, error ≠ .stepLimit → P n α (throw error)
  bind : ∀ {n α β} {x : Exec σ α} {f : α → Exec σ β}, P n α x → (∀ a, P n β (f a)) →
    P n β (x >>= f)
  unwinding : ∀ {n} {x : Exec σ Flow}, P n Flow x → P n Flow x.unwinding
  within : ∀ {n α} {x : Exec σ α}, P n α x → ∀ activation, P n α (x.within activation)
  onWorld : ∀ {n α} {x : Activation → EStateM RunError (World σ) α},
    (∀ activation, P n α (Exec.onWorld fun _ => x activation)) → P n α (Exec.onWorld x)
  call : ∀ {n} member receiver? args,
    P n Value (Exec.onWorld fun _ => World.onHost (env.host.call member receiver? args))
  load : ∀ {n} member receiver?,
    P n Value (Exec.onWorld fun _ => World.onHost (env.host.load member receiver?))
  store : ∀ {n} member receiver? value,
    P n Unit (Exec.onWorld fun _ => World.onHost (env.host.store member receiver? value))
  readField : ∀ {n} slot, P n Value (Exec.onWorld fun _ => World.readField slot)
  writeField : ∀ {n} slot value, P n Unit (Exec.onWorld fun _ => World.writeField slot value)
  setLocal : ∀ {n} id value, P n Unit (Exec.setLocal id value)
  setParam : ∀ {n} id value, P n Unit (Exec.setParam id value)
  begin : ∀ {n α} s {x : Exec σ α}, (∀ k < n, P k α x) → P n α (env.begin s >>= fun _ => x)

namespace Environment.Inherited

variable {env : Environment σ} {P : Nat → (α : Type) → Exec σ α → Prop}
  {run : List Stmt → Exec σ Flow}

theorem outcome (h : env.Inherited P) {r : Except RunError α} (other : r ≠ .error .stepLimit) :
    P n α (ofExcept r) := by
  cases r with
  | ok a => exact h.pure a
  | error e => exact h.fails fun limit => other (congrArg _ limit)

theorem worldOutcome (h : env.Inherited P) {r : Except RunError α} (other : r ≠ .error .stepLimit) :
    P n α (Exec.onWorld fun _ => ofExcept r) := by
  rw [Exec.onWorld_outcome]
  exact h.outcome other

/-- One action on the world after another. -/
theorem andThen (h : env.Inherited P) {x : EStateM RunError (World σ) α}
    {f : α → EStateM RunError (World σ) β} (first : P n α (Exec.onWorld fun _ => x))
    (next : ∀ a, P n β (Exec.onWorld fun _ => f a)) : P n β (Exec.onWorld fun _ => x >>= f) := by
  rw [Exec.onWorld_bind]
  exact h.bind first next

theorem invoke (h : env.Inherited P) (runs : ∀ stmts, P n Flow (run stmts)) (method : SynthMethodId)
    (args : List Value) : P n Value (Exec.onWorld fun _ => env.invoke run method args) := by
  unfold Environment.invoke
  cases env.methods[method.index]? with
  | none => exact h.fails nofun
  | some target =>
    dsimp only
    rw [onWorld_callBody]
    exact h.within (h.bind (runs _) fun flow => h.outcome flow.result_ne_stepLimit) _

mutual

theorem evalExpr (h : env.Inherited P) (runs : ∀ stmts, P n Flow (run stmts))
    (activation : Activation) (e : Expr) :
    P n Value (Exec.onWorld fun _ => e.eval env.host (env.invoke run) activation) := by
  cases e with
  | const value => exact h.pure _
  | «local» id => exact h.worldOutcome (Activation.readLocal_ne_stepLimit _ _)
  | param id => exact h.worldOutcome (Activation.readParam_ne_stepLimit _ _)
  | machineField slot => exact h.readField slot
  | field receiver member =>
    cases receiver with
    | none => exact h.load member none
    | some receiver => exact h.andThen (h.evalExpr runs activation receiver) fun _ => h.load member _
  | call callee receiver args =>
    cases callee with
    | method member =>
      cases receiver with
      | none => exact h.andThen (h.evalExprs runs activation args) fun _ => h.call member none _
      | some receiver =>
        exact h.andThen (h.evalExpr runs activation receiver) fun _ =>
          h.andThen (h.evalExprs runs activation args) fun _ => h.call member _ _
    | synthesized method =>
      cases receiver with
      | none =>
        exact h.andThen (h.evalExprs runs activation args) fun values => h.invoke runs method values
      | some receiver =>
        exact h.andThen (h.evalExpr runs activation receiver) fun _ =>
          h.andThen (h.evalExprs runs activation args) fun values => h.invoke runs method values
  | binary op lhs rhs =>
    exact h.andThen (h.evalExpr runs activation lhs) fun _ =>
      h.andThen (h.evalExpr runs activation rhs) fun _ => h.worldOutcome (BinaryOp.apply_ne_stepLimit _ _ _)
  | unary op operand =>
    exact h.andThen (h.evalExpr runs activation operand) fun _ =>
      h.worldOutcome (UnaryOp.apply_ne_stepLimit _ _)
  | element | addressOf | newArray | typeToken => exact h.fails nofun

theorem evalExprs (h : env.Inherited P) (runs : ∀ stmts, P n Flow (run stmts))
    (activation : Activation) (es : List Expr) :
    P n (List Value)
      (Exec.onWorld fun _ => Expr.evalAll env.host (env.invoke run) activation es) := by
  cases es with
  | nil => exact h.pure _
  | cons e es =>
    exact h.andThen (h.evalExpr runs activation e) fun _ =>
      h.andThen (h.evalExprs runs activation es) fun _ => h.pure _

end

theorem eval (h : env.Inherited P) (runs : ∀ stmts, P n Flow (run stmts)) (e : Expr) :
    P n Value (env.eval run e) :=
  h.onWorld fun activation => h.evalExpr runs activation e

theorem write (h : env.Inherited P) (runs : ∀ stmts, P n Flow (run stmts)) (value : Value)
    (place : Place) : P n Unit (env.write run value place) := by
  cases place with
  | «local» id => exact h.setLocal id value
  | param id => exact h.setParam id value
  | machineField slot => exact h.writeField slot value
  | field receiver member =>
    cases receiver with
    | none => exact h.store member none value
    | some receiver => exact h.bind (h.eval runs receiver) fun _ => h.store member _ value
  | element => exact h.fails nofun

theorem evalBool (h : env.Inherited P) (runs : ∀ stmts, P n Flow (run stmts)) (e : Expr) :
    P n Bool (env.evalBool run e) := by
  refine h.bind (h.eval runs e) fun value => ?_
  cases value with
  | bool b => exact h.pure b
  | _ => exact h.fails nofun

theorem evalInt (h : env.Inherited P) (runs : ∀ stmts, P n Flow (run stmts)) (e : Expr) :
    P n Int64 (env.evalInt run e) := by
  refine h.bind (h.eval runs e) fun value => ?_
  cases value with
  | int i => exact h.pure i
  | _ => exact h.fails nofun

theorem handle (h : env.Inherited P) (runs : ∀ stmts, P n Flow (run stmts)) (catches : List Catch)
    (flow : Flow) : P n Flow (Environment.handle run catches flow) := by
  cases flow with
  | throw value =>
    cases catches with
    | nil => exact h.pure _
    | cons clause rest =>
      obtain ⟨_, caught, body⟩ := clause
      cases caught with
      | none => exact h.bind (h.pure ()) fun _ => runs body
      | some id => exact h.bind (h.setLocal id value) fun _ => runs body
  | _ => exact h.pure _

theorem cleanUp (h : env.Inherited P) (runs : ∀ stmts, P n Flow (run stmts)) (cleanup : List Stmt)
    (flow : Flow) : P n Flow (Environment.cleanUp run cleanup flow) := by
  refine h.bind (runs cleanup) fun ended => ?_
  cases ended <;> exact h.pure _

theorem execStmt (h : env.Inherited P) (runs : ∀ stmts, P n Flow (run stmts)) (s : Stmt) :
    P n Flow (env.execStmt run s) := by
  cases s with
  | block stmts => exact runs stmts
  | expr value => exact h.bind (h.eval runs value) fun _ => h.pure _
  | assign place value =>
    exact h.bind (h.eval runs value) fun v => h.bind (h.write runs v place) fun _ => h.pure _
  | label | nop | goto => exact h.pure _
  | condGoto cond jumpIf target => exact h.bind (h.evalBool runs cond) fun _ => h.pure _
  | switch scrutinee cases default? =>
    exact h.bind (h.evalInt runs scrutinee) fun _ => h.pure _
  | ret value =>
    cases value with
    | none => exact h.pure _
    | some value => exact h.bind (h.eval runs value) fun _ => h.pure _
  | yield | yieldBreak => exact h.fails nofun
  | tryCatch id body catches cleanup =>
    refine h.bind (runs body) fun flow => h.bind (h.handle runs catches flow) fun flow => ?_
    cases cleanup with
    | none => exact h.pure _
    | some cleanup => exact h.cleanUp runs cleanup flow
  | tryFault body fault =>
    refine h.bind (runs body) fun flow => ?_
    cases flow with
    | throw value => exact h.cleanUp runs fault _
    | _ => exact h.pure _
  | throw value => exact h.bind (h.eval runs value) fun _ => h.pure _

theorem follow (h : env.Inherited P) {go : Point → Exec σ Flow} (goes : ∀ p, P n Flow (go p))
    (after : Point) (flow : Flow) : P n Flow (Environment.follow go after flow) := by
  cases flow with
  | normal => exact goes after
  | goto label =>
    cases found : Point.jump? label after with
    | none =>
      simp only [Environment.follow, found]
      exact h.pure _
    | some target =>
      simp only [Environment.follow, found]
      exact goes target
  | _ => exact h.pure _

/-- All executions have the property, by induction on the fuel. -/
theorem runs (h : env.Inherited P) (n : Nat) (p : Point) : P n Flow (env.runs p) := by
  induction n using Nat.strongRecOn generalizing p with
  | ind n ih =>
  cases due : p.next? with
  | none =>
    rw [runs_done due]
    exact h.pure _
  | some next =>
    obtain ⟨s, after⟩ := next
    rw [runs_begin due]
    refine h.begin s fun k less => ?_
    have goes : ∀ q, P k Flow (env.runs q) := ih k less
    cases s with
    | block stmts => exact goes _
    | _ => exact h.bind (h.unwinding (h.execStmt (fun _ => goes _) _)) (h.follow goes after)

/-- So have executions of bodies. -/
theorem execute (h : env.Inherited P) (n : Nat) (body : Body) (args : List Value) :
    P n Value (Exec.onWorld fun _ => env.execute body args) := by
  have same : (Exec.onWorld fun _ => env.execute body args : Exec σ Value) =
      Exec.onWorld fun _ => callBody env.runAll body args := rfl
  rw [same, onWorld_callBody]
  exact h.within (h.bind (h.runs n _) fun flow => h.outcome flow.result_ne_stepLimit) _

end Environment.Inherited

end ManagedCode
