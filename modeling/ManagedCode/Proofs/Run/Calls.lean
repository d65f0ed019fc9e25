import ManagedCode.Proofs.Run.Mirror

namespace ManagedCode

variable {σ α : Type} {env : Environment σ}

/-- An execution that does not fail with an exception, but ends with one. -/
def Exec.Contained (x : Exec σ α) : Prop := ∀ c c' value, x c ≠ .error (.thrown value) c'

namespace Exec.Contained

variable {β : Type}

theorem pure (a : α) : Contained (Pure.pure a : Exec σ α) := fun _ _ _ h => by cases h

theorem bind {x : Exec σ α} {f : α → Exec σ β} (first : x.Contained)
    (next : ∀ a, (f a).Contained) : (x >>= f).Contained := by
  intro c c' value h
  cases hx : x c with
  | error error t =>
    rw [bind_of_error hx] at h
    cases h
    exact first _ _ _ hx
  | ok a t =>
    rw [bind_of_ok hx] at h
    exact next a _ _ _ h

theorem tick : Contained (Exec.tick : Exec σ Unit) := by
  intro c c' value h
  cases hf : c.fuel with
  | zero =>
    rw [Exec.tick_zero hf] at h
    cases h
  | succ n =>
    rw [Exec.tick_succ hf] at h
    cases h

theorem onHost (f : σ → σ) : Contained (Exec.onHost f) := fun _ _ _ h => by cases h

/-- An exception in a statement is a way for it to end. -/
theorem unwinding (x : Exec σ Flow) : x.unwinding.Contained := by
  intro c c' value
  unfold Exec.unwinding
  cases h : x c with
  | ok flow t => exact nofun
  | error error t => cases error <;> exact nofun

end Exec.Contained

theorem Exec.unwinding_of_contained {x : Exec σ Flow} (h : x.Contained) : x.unwinding = x := by
  funext c
  cases hx : x c with
  | ok flow t => exact Exec.unwinding_of_ok hx
  | error error t =>
    refine Exec.unwinding_of_error hx ?_
    rintro value rfl
    exact h c t value hx

namespace Environment

theorem contained_run (n : Nat) (p : Point) : (env.run n p).Contained := by
  induction n generalizing p with
  | zero =>
    cases hp : p.next? with
    | none =>
      rw [run_done hp]
      exact .pure _
    | some due =>
      rw [run_zero hp]
      exact fun _ _ _ h => by cases h
  | succ n ih =>
    cases hp : p.next? with
    | none =>
      rw [run_done hp]
      exact .pure _
    | some due =>
      obtain ⟨s, after⟩ := due
      rw [run_succ hp]
      have rest : (Exec.unwinding (env.execStmt (fun stmts => env.run n (.start stmts)) s) >>=
          follow (env.run n) after).Contained := by
        refine .bind (.unwinding _) fun flow => ?_
        cases flow with
        | normal => exact ih after
        | goto label =>
          simp only [follow]
          cases Point.jump? label after with
          | none => exact .pure _
          | some target => exact ih target
        | _ => exact .pure _
      refine .bind .tick fun _ => .bind (.onHost _) fun _ => ?_
      cases s with
      | block stmts => exact ih _
      | _ => exact rest

/-- No execution of a list fails with an exception: it ends with one. -/
theorem contained_runs (p : Point) : (env.runs p).Contained := fun c => contained_run c.fuel p c

theorem contained_runAll (stmts : List Stmt) : (env.runAll stmts).Contained :=
  contained_runs (.start stmts)

theorem contained_handle (catches : List Catch) (flow : Flow) :
    (handle env.runAll catches flow).Contained := by
  cases flow with
  | throw value =>
    cases catches with
    | nil => exact .pure _
    | cons clause rest =>
      obtain ⟨exceptionTy, caught, body⟩ := clause
      cases caught with
      | none => exact contained_runAll body
      | some caught =>
        exact .bind (fun _ _ _ h => by cases h) fun _ => contained_runAll body
  | _ => exact .pure _

theorem contained_cleanUp (cleanup : List Stmt) (flow : Flow) :
    (cleanUp env.runAll cleanup flow).Contained := by
  refine .bind (contained_runAll cleanup) fun ended => ?_
  cases ended <;> exact .pure _

end Environment

/-- A try statement without catch clauses ends as its body and its cleanup do. -/
theorem execStmt_tryFinally (id : TryId) (body cleanup : List Stmt) :
    (env.execStmt env.runAll (.tryCatch id body [] (some cleanup))).unwinding =
      env.runAll body >>= Environment.cleanUp env.runAll cleanup := by
  have unhandled : ∀ flow, Environment.handle env.runAll [] flow = pure flow := by
    intro flow
    cases flow <;> rfl
  have exec : env.execStmt env.runAll (.tryCatch id body [] (some cleanup)) =
      env.runAll body >>= Environment.cleanUp env.runAll cleanup := by
    have step : env.execStmt env.runAll (.tryCatch id body [] (some cleanup)) =
        env.runAll body >>= fun flow =>
          Environment.handle env.runAll [] flow >>= Environment.cleanUp env.runAll cleanup := rfl
    rw [step]
    exact congrArg (env.runAll body >>= ·) (funext fun flow => by rw [unhandled flow]; rfl)
  rw [exec]
  refine Exec.unwinding_of_contained (.bind (Environment.contained_runAll body) fun flow => ?_)
  exact Environment.contained_cleanUp cleanup flow

/-- How a call statement ends when the body of the method ends with a flow. -/
inductive Returns : Flow → Flow → Prop
  | normal : Returns .normal .normal
  | ret (value : Value) : Returns (.ret value) .normal
  | throw (value : Value) : Returns (.throw value) (.throw value)

section

variable {method : SynthMethodId} {target : SynthesizedMethod}

theorem eval_call (found : env.methods[method.index]? = some target) (c : Config σ) :
    env.eval env.runAll (.callSynthesized method) c =
      Exec.onWorld (fun _ => Environment.callBody env.runAll target.body []) c := by
  have called : env.invoke env.runAll method [] =
      Environment.callBody env.runAll target.body [] := by
    unfold Environment.invoke
    rw [found]
  rw [← called]
  rfl

theorem callBody_of_ok {run : List Stmt → Exec σ Flow} {body : Body} {args : List Value}
    {w : World σ} {flow : Flow} {c : Config σ} (h : run body.root ⟨{ args }, w⟩ = .ok flow c) :
    Environment.callBody run body args w = reached flow.result c.world := by
  unfold Environment.callBody
  rw [h]
  dsimp only
  cases flow.result <;> rfl

theorem callBody_of_error {run : List Stmt → Exec σ Flow} {body : Body} {args : List Value}
    {w : World σ} {error : RunError} {c : Config σ}
    (h : run body.root ⟨{ args }, w⟩ = .error error c) :
    Environment.callBody run body args w = .error error c.world := by
  unfold Environment.callBody
  rw [h]

theorem call_of_ok (found : env.methods[method.index]? = some target) {c c' : Config σ}
    {flow flow' : Flow} (h : env.runAll target.body.root ⟨{ args := [] }, c.world⟩ = .ok flow c')
    (returns : Returns flow flow') :
    (env.execStmt env.runAll (.expr (.callSynthesized method))).unwinding c =
      .ok flow' { c with world := c'.world } := by
  have value : env.eval env.runAll (.callSynthesized method) c =
      reached flow.result { c with world := c'.world } := by
    rw [eval_call found]
    exact Exec.onWorld_eq (callBody_of_ok h)
  cases returns with
  | normal => exact Exec.unwinding_of_ok (bind_of_ok value)
  | ret result => exact Exec.unwinding_of_ok (bind_of_ok value)
  | throw thrown => exact Exec.unwinding_of_thrown (bind_of_error value)

theorem call_of_error (found : env.methods[method.index]? = some target) {c c' : Config σ}
    {error : RunError} (h : env.runAll target.body.root ⟨{ args := [] }, c.world⟩ = .error error c')
    (other : ∀ value, error ≠ .thrown value) :
    (env.execStmt env.runAll (.expr (.callSynthesized method))).unwinding c =
      .error error { c with world := c'.world } := by
  have body : Environment.callBody env.runAll target.body [] c.world =
      reached (.error error) c'.world := callBody_of_error h
  have fault : env.eval env.runAll (.callSynthesized method) c =
      reached (.error error) { c with world := c'.world } := by
    rw [eval_call found]
    exact Exec.onWorld_eq body
  exact Exec.unwinding_of_error (bind_of_error fault) other

/-- A call of a method of the machine does what the method does in an activation of its own. -/
theorem Simulates.call (found : env.methods[method.index]? = some target) {s : Exec σ α}
    {a b : Config σ} (contained : ∀ a' value, s a ≠ .error (.thrown value) a')
    {bad bad' : Config σ → Config σ → Prop} {good good' : α → Config σ → Flow → Config σ → Prop}
    (h : Simulates s a (env.runAll target.body.root) ⟨{ args := [] }, b.world⟩ bad good)
    (bads : ∀ a' c, bad a' c → bad' a' { b with world := c.world })
    (goods : ∀ v a' flow c, good v a' flow c →
      ∃ flow', Returns flow flow' ∧ good' v a' flow' { b with world := c.world }) :
    Simulates s a (env.execStmt env.runAll (.expr (.callSynthesized method))).unwinding b bad'
      good' := by
  have limits : ∀ {n : Nat},
      (env.runAll target.body.root).Outlasts ⟨{ args := [] }, b.world⟩ n →
      ((env.execStmt env.runAll (.expr (.callSynthesized method))).unwinding).Outlasts b n := by
    intro n last f room
    obtain ⟨t, ht⟩ := last f room
    exact ⟨_, call_of_error (c := b.withFuel f) found ht nofun⟩
  cases hs : s a with
  | ok v a' =>
    rw [of_ok hs] at h ⊢
    obtain ⟨less, k, flow, c, enough, ends, holds⟩ := h
    obtain ⟨flow', returns, holds'⟩ := goods v a' flow c holds
    refine ⟨less, k, flow', { b with world := c.world }, enough, ⟨fun f => ?_, fun f room => ?_⟩,
      holds'⟩
    · exact call_of_ok (c := b.withFuel (k + f)) found (ends.1 f) returns
    · obtain ⟨t, ht⟩ := ends.2 f room
      exact ⟨_, call_of_error (c := b.withFuel f) found ht nofun⟩
  | error error a' =>
    by_cases limit : error = .stepLimit
    · subst limit
      rw [of_stepLimit hs] at h ⊢
      exact limits h
    · have other : ∀ value, error ≠ .thrown value := by
        rintro value rfl
        exact contained a' value hs
      rw [of_error hs limit] at h ⊢
      obtain ⟨less, k, c, enough, fails, holds⟩ := h
      refine ⟨less, k, { b with world := c.world }, enough, ⟨fun f => ?_, fun f room => ?_⟩,
        bads a' c holds⟩
      · exact call_of_error (c := b.withFuel (k + f)) found (fails.1 f) other
      · obtain ⟨t, ht⟩ := fails.2 f room
        exact ⟨_, call_of_error (c := b.withFuel f) found ht nofun⟩

end

end ManagedCode
