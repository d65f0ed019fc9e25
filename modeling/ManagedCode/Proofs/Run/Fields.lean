import ManagedCode.Proofs.Run.Mirror

namespace ManagedCode

/-! An execution leaves a machine with as many fields as it found. -/

/-- A step that leaves a number as it is, whether it ends or fails. -/
def Preserves {S α : Type} (size : S → Nat) (x : EStateM RunError S α) : Prop :=
  ∀ s, size (finalState (x s)) = size s

namespace Preserves

variable {S α β : Type} {size : S → Nat}

theorem pure (a : α) : Preserves size (Pure.pure a : EStateM RunError S α) := fun _ => rfl

theorem fails (error : RunError) : Preserves size (throw error : EStateM RunError S α) :=
  fun _ => rfl

theorem outcome (x : Except RunError α) :
    Preserves size (ofExcept x : EStateM RunError S α) := by
  cases x with
  | ok a => exact pure a
  | error e => exact fails e

theorem update {f : S → S} (h : ∀ s, size (f s) = size s) :
    Preserves size (modify f : EStateM RunError S PUnit) := h

theorem bind {x : EStateM RunError S α} {f : α → EStateM RunError S β} (first : Preserves size x)
    (next : ∀ a, Preserves size (f a)) : Preserves size (x >>= f) := by
  intro s
  have start := first s
  cases h : x s with
  | error e t =>
    rw [h] at start
    rw [bind_of_error h]
    exact start
  | ok a t =>
    rw [h] at start
    rw [bind_of_ok h]
    exact (next a t).trans start

theorem fromState {f : S → EStateM RunError S α} (h : ∀ s, Preserves size (f s)) :
    Preserves size (get >>= f) := fun s => h s s

end Preserves

variable {σ α : Type}

/-- The number of fields of the machine. -/
def World.fieldCount (w : World σ) : Nat := w.fields.length

def Config.fieldCount (c : Config σ) : Nat := c.world.fieldCount

theorem preserves_onHost (action : EStateM RunError σ α) :
    Preserves World.fieldCount (World.onHost action) := by
  intro w
  obtain ⟨r, host, h⟩ := exists_reached (action w.host)
  rw [World.onHost_eq h]
  cases r <;> rfl

theorem preserves_readField (slot : FieldSlot) :
    Preserves World.fieldCount (World.readField slot : EStateM RunError (World σ) Value) := by
  intro w
  rw [World.readField_eq]
  cases w.field slot <;> rfl

theorem preserves_writeField (slot : FieldSlot) (value : Value) :
    Preserves World.fieldCount (World.writeField slot value : EStateM RunError (World σ) Unit) := by
  intro w
  by_cases room : slot.index < w.fields.length
  · rw [World.writeField_eq value room]
    exact List.length_set
  · rw [World.writeField_eq_error value room]
    rfl

section

variable {host : Host σ} {activation : Activation}
  {invoke : SynthMethodId → List Value → EStateM RunError (World σ) Value}

mutual

theorem preserves_evalExpr (calls : ∀ method args, Preserves World.fieldCount (invoke method args))
    (e : Expr) : Preserves World.fieldCount (e.eval host invoke activation) := by
  cases e with
  | const value => exact .pure _
  | «local» id => exact .outcome _
  | param id => exact .outcome _
  | machineField slot => exact preserves_readField slot
  | field receiver member =>
    cases receiver with
    | none => exact preserves_onHost _
    | some receiver => exact (preserves_evalExpr calls receiver).bind fun _ => preserves_onHost _
  | call callee receiver args =>
    cases callee with
    | method member =>
      cases receiver with
      | none => exact (preserves_evalExprs calls args).bind fun _ => preserves_onHost _
      | some receiver =>
        exact (preserves_evalExpr calls receiver).bind fun _ =>
          (preserves_evalExprs calls args).bind fun _ => preserves_onHost _
    | synthesized method =>
      cases receiver with
      | none => exact (preserves_evalExprs calls args).bind fun values => calls method values
      | some receiver =>
        exact (preserves_evalExpr calls receiver).bind fun _ =>
          (preserves_evalExprs calls args).bind fun values => calls method values
  | binary op lhs rhs =>
    exact (preserves_evalExpr calls lhs).bind fun _ =>
      (preserves_evalExpr calls rhs).bind fun _ => .outcome _
  | unary op operand => exact (preserves_evalExpr calls operand).bind fun _ => .outcome _
  | element | addressOf | newArray | typeToken => exact .fails _

theorem preserves_evalExprs (calls : ∀ method args, Preserves World.fieldCount (invoke method args))
    (es : List Expr) : Preserves World.fieldCount (Expr.evalAll host invoke activation es) := by
  cases es with
  | nil => exact .pure _
  | cons e es =>
    exact (preserves_evalExpr calls e).bind fun _ =>
      (preserves_evalExprs calls es).bind fun _ => .pure _

end

end

namespace Exec

theorem preserves_onWorld {action : Activation → EStateM RunError (World σ) α}
    (h : ∀ activation, Preserves World.fieldCount (action activation)) :
    Preserves Config.fieldCount (onWorld action) := by
  intro c
  obtain ⟨r, world, ha⟩ := exists_reached (action c.activation c.world)
  have kept := h c.activation c.world
  rw [ha] at kept
  rw [onWorld_eq ha]
  cases r <;> exact kept

theorem preserves_setLocal (id : LocalId) (value : Value) :
    Preserves Config.fieldCount (setLocal id value : Exec σ Unit) := .update fun _ => rfl

theorem preserves_setParam (id : ParamId) (value : Value) :
    Preserves Config.fieldCount (setParam id value : Exec σ Unit) :=
  .fromState fun _ => (Preserves.outcome _).bind fun _ => .update fun _ => rfl

theorem preserves_tick : Preserves Config.fieldCount (tick : Exec σ Unit) := by
  intro c
  cases h : c.fuel with
  | zero =>
    rw [tick_zero h]
    rfl
  | succ n =>
    rw [tick_succ h]
    rfl

theorem preserves_unwinding {x : Exec σ Flow} (h : Preserves Config.fieldCount x) :
    Preserves Config.fieldCount x.unwinding := by
  intro c
  have kept := h c
  unfold unwinding
  cases hx : x c with
  | ok flow c' =>
    rw [hx] at kept
    exact kept
  | error error c' =>
    rw [hx] at kept
    cases error <;> exact kept

end Exec

namespace Environment

variable {env : Environment σ} {run : List Stmt → Exec σ Flow}

theorem preserves_invoke (h : ∀ stmts, Preserves Config.fieldCount (run stmts))
    (method : SynthMethodId) (args : List Value) :
    Preserves World.fieldCount (env.invoke run method args) := by
  unfold invoke
  cases env.methods[method.index]? with
  | none => exact .fails _
  | some target =>
    intro world
    have kept := h target.body.root ⟨{ args }, world⟩
    dsimp only
    unfold callBody
    cases he : run target.body.root ⟨{ args }, world⟩ with
    | error error config =>
      rw [he] at kept
      exact kept
    | ok flow config =>
      rw [he] at kept
      cases flow <;> exact kept

theorem preserves_eval (h : ∀ stmts, Preserves Config.fieldCount (run stmts)) (e : Expr) :
    Preserves Config.fieldCount (env.eval run e) :=
  Exec.preserves_onWorld fun _ => preserves_evalExpr (preserves_invoke h) e

theorem preserves_write (h : ∀ stmts, Preserves Config.fieldCount (run stmts)) (value : Value)
    (place : Place) : Preserves Config.fieldCount (env.write run value place) := by
  cases place with
  | «local» id => exact Exec.preserves_setLocal id value
  | param id => exact Exec.preserves_setParam id value
  | machineField slot => exact Exec.preserves_onWorld fun _ => preserves_writeField slot value
  | field receiver member =>
    cases receiver with
    | none => exact Exec.preserves_onWorld fun _ => preserves_onHost _
    | some receiver =>
      exact (preserves_eval h receiver).bind fun _ =>
        Exec.preserves_onWorld fun _ => preserves_onHost _
  | element => exact .fails _

theorem preserves_evalBool (h : ∀ stmts, Preserves Config.fieldCount (run stmts)) (e : Expr) :
    Preserves Config.fieldCount (env.evalBool run e) := by
  refine (preserves_eval h e).bind fun value => ?_
  cases value with
  | bool b => exact .pure b
  | _ => exact .fails _

theorem preserves_evalInt (h : ∀ stmts, Preserves Config.fieldCount (run stmts)) (e : Expr) :
    Preserves Config.fieldCount (env.evalInt run e) := by
  refine (preserves_eval h e).bind fun value => ?_
  cases value with
  | int i => exact .pure i
  | _ => exact .fails _

theorem preserves_handle (h : ∀ stmts, Preserves Config.fieldCount (run stmts))
    (catches : List Catch) (flow : Flow) :
    Preserves Config.fieldCount (handle run catches flow) := by
  cases flow with
  | throw value =>
    cases catches with
    | nil => exact .pure _
    | cons clause rest =>
      obtain ⟨_, caught, body⟩ := clause
      cases caught with
      | none => exact (Preserves.pure ()).bind fun _ => h body
      | some id => exact (Exec.preserves_setLocal id value).bind fun _ => h body
  | _ => exact .pure _

theorem preserves_cleanUp (h : ∀ stmts, Preserves Config.fieldCount (run stmts))
    (cleanup : List Stmt) (flow : Flow) :
    Preserves Config.fieldCount (cleanUp run cleanup flow) := by
  refine (h cleanup).bind fun ended => ?_
  cases ended <;> exact .pure _

theorem preserves_execStmt (h : ∀ stmts, Preserves Config.fieldCount (run stmts)) (s : Stmt) :
    Preserves Config.fieldCount (env.execStmt run s) := by
  cases s with
  | block stmts => exact h stmts
  | expr value => exact (preserves_eval h value).bind fun _ => .pure _
  | assign place value =>
    exact (preserves_eval h value).bind fun v => (preserves_write h v place).bind fun _ => .pure _
  | label | nop | goto => exact .pure _
  | condGoto cond jumpIf target => exact (preserves_evalBool h cond).bind fun _ => .pure _
  | switch scrutinee cases default? => exact (preserves_evalInt h scrutinee).bind fun _ => .pure _
  | ret value =>
    cases value with
    | none => exact .pure _
    | some value => exact (preserves_eval h value).bind fun _ => .pure _
  | yield | yieldBreak => exact .fails _
  | tryCatch id body catches cleanup =>
    refine (h body).bind fun flow => (preserves_handle h catches flow).bind fun flow => ?_
    cases cleanup with
    | none => exact .pure _
    | some cleanup => exact preserves_cleanUp h cleanup flow
  | tryFault body fault =>
    refine (h body).bind fun flow => ?_
    cases flow with
    | throw value => exact preserves_cleanUp h fault _
    | _ => exact .pure _
  | throw value => exact (preserves_eval h value).bind fun _ => .pure _

theorem preserves_run (n : Nat) (p : Point) : Preserves Config.fieldCount (env.run n p) := by
  induction n generalizing p with
  | zero =>
    cases due : p.next? with
    | none =>
      rw [run_done due]
      exact .pure _
    | some next =>
      rw [run_zero due]
      exact .fails _
  | succ n ih =>
    cases due : p.next? with
    | none =>
      rw [run_done due]
      exact .pure _
    | some next =>
      obtain ⟨s, after⟩ := next
      have goesOn : ∀ flow, Preserves Config.fieldCount (follow (env.run n) after flow) := by
        intro flow
        cases flow with
        | normal => exact ih after
        | goto label =>
          cases found : Point.jump? label after with
          | none =>
            simp only [follow, found]
            exact .pure _
          | some target =>
            simp only [follow, found]
            exact ih target
        | _ => exact .pure _
      rw [run_succ due]
      refine Exec.preserves_tick.bind fun _ => ?_
      refine Preserves.bind (.update fun _ => rfl) fun _ => ?_
      cases s with
      | block stmts => exact ih _
      | _ =>
        exact (Exec.preserves_unwinding (preserves_execStmt (fun stmts => ih _) _)).bind goesOn

/-- An execution leaves as many fields as it found. -/
theorem preserves_runAll (stmts : List Stmt) : Preserves Config.fieldCount (env.runAll stmts) :=
  fun c => preserves_run c.fuel _ c

end Environment

end ManagedCode
