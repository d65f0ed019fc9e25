import ManagedCode.Proofs.Run.Jumps
import ManagedCode.Proofs.Run.Mirror

namespace ManagedCode

/-! What an execution does first. -/

variable {σ : Type} {env : Environment σ}

theorem runs_congr {p q : Point} (h : p.next? = q.next?) : env.runs p = env.runs q := by
  cases hq : q.next? with
  | none => rw [Environment.runs_done hq, Environment.runs_done (h.trans hq)]
  | some due =>
    obtain ⟨s, after⟩ := due
    rw [Environment.runs_eq hq, Environment.runs_eq (h.trans hq)]

/-- A statement that ends goes on from the point after it. -/
theorem runs_reaches {p after : Point} {s : Stmt} (due : p.next? = some (s, after))
    (plain : ∀ stmts, s ≠ .block stmts) (still : ∀ host, env.watch s host = host) {c c' : Config σ}
    {k : Nat} {flow : Flow} (exec : (env.execStmt env.runAll s).Ends c k flow c') :
    (env.runs p).Reaches c (1 + k) (Environment.follow env.runs after flow) c' := by
  have step : env.runs p = Exec.tick >>= fun _ =>
      (env.execStmt env.runAll s).unwinding >>= Environment.follow env.runs after := by
    rw [Environment.runs_eq due]
    exact congrArg (Exec.tick >>= ·) (funext fun _ => Environment.advance_eq still plain)
  have ended : (env.execStmt env.runAll s).unwinding.Ends c k flow c' := exec.unwinding
  rw [step]
  exact (Exec.Reaches.tick _ c).trans ended.andThen

/-- Both execute one statement, of which the host takes no note, and go on. -/
theorem simulates_step {env env' : Environment σ} {p p' after after' : Point} {s s' : Stmt}
    {a b : Config σ} {bad : Config σ → Config σ → Prop}
    {good : Flow → Config σ → Flow → Config σ → Prop} (mid : Flow → Config σ → Flow → Config σ → Prop)
    (hp : p.next? = some (s, after)) (hp' : p'.next? = some (s', after'))
    (plain : ∀ stmts, s ≠ .block stmts) (plain' : ∀ stmts, s' ≠ .block stmts)
    (still : ∀ host, env.watch s host = host) (still' : ∀ host, env'.watch s' host = host)
    (here : ∀ n, a.fuel = n + 1 → Simulates (env.execStmt env.runAll s).unwinding (a.withFuel n)
      (env'.execStmt env'.runAll s').unwinding b bad mid)
    (next : ∀ flow a' flow' b', a'.fuel < a.fuel → mid flow a' flow' b' →
      Simulates (Environment.follow env.runs after flow) a'
        (Environment.follow env'.runs after' flow') b' bad good) :
    Simulates (env.runs p) a (env'.runs p') b bad good := by
  have step : env.runs p = Exec.tick >>= fun _ =>
      (env.execStmt env.runAll s).unwinding >>= Environment.follow env.runs after := by
    rw [Environment.runs_eq hp]
    exact congrArg (Exec.tick >>= ·) (funext fun _ => Environment.advance_eq still plain)
  have step' : env'.runs p' = Exec.tick >>= fun _ =>
      (env'.execStmt env'.runAll s').unwinding >>= Environment.follow env'.runs after' := by
    rw [Environment.runs_eq hp']
    exact congrArg (Exec.tick >>= ·) (funext fun _ => Environment.advance_eq still' plain')
  rw [step, step']
  refine Simulates.tick (k := 0) (Exec.Reaches.tick _ b) fun n hn => ?_
  refine (here n hn).bind fun flow a' flow' b' less holds => ?_
  rw [Config.fuel_withFuel] at less
  exact next flow a' flow' b' (by omega) holds

theorem eval_local {id : LocalId} {value : Value} {c : Config σ}
    (held : c.activation.locals.lookup id = some value) :
    env.eval env.runAll (.local id) c = .ok value c := by
  have read : c.activation.readLocal id = .ok value := by
    unfold Activation.readLocal
    rw [held]
  have found : (Expr.local id).eval env.host (env.invoke env.runAll) c.activation c.world =
      reached (.ok value) c.world := by
    unfold Expr.eval
    rw [read]
    rfl
  have done : env.eval env.runAll (.local id) c =
      reached (.ok value) { c with world := c.world } := by
    unfold Environment.eval
    exact Exec.onWorld_eq found
  exact done

theorem ends_assignLocal (env : Environment σ) (id : LocalId) (value : Constant) (c : Config σ) :
    (env.execStmt env.runAll (.assign (.local id) (.const value))).Ends c 0 .normal
      { c with activation := c.activation.writeLocal id (.ofConstant value) } :=
  .of_eq fun _ => rfl

/-- Where the host takes no note of a block, its statements are just executed. -/
theorem advance_block {go : Point → Exec σ Flow} {stmts : List Stmt} {after : Point}
    (still : ∀ host, env.watch (.block stmts) host = host) :
    env.advance go (.block stmts) after = go (⟨stmts, stmts⟩ :: after) := by
  have nothing : (Exec.onHost (env.watch (.block stmts)) : Exec σ Unit) = pure () := by
    have same : env.watch (.block stmts) = fun host => host := funext still
    rw [same]
    rfl
  unfold Environment.advance
  rw [nothing]
  rfl

/-- A jump within a list goes on after its label. -/
theorem reaches_jump {top list rest : List Stmt} {outer after : Point} {l : LabelId}
    (unique : (Stmt.plainLabelsAll top).Nodup) (target : At top (⟨list, .label l :: rest⟩ :: outer))
    (here : At top after) (still : ∀ host, env.watch (.label l) host = host) (c : Config σ) :
    (Environment.follow env.runs after (.goto l)).Reaches c 1 (env.runs (⟨list, rest⟩ :: outer)) c := by
  have found : Point.jump? l after = some (⟨list, .label l :: rest⟩ :: outer) :=
    (here.jump?_eq unique).trans (target.find?_eq unique)
  have step : (env.runs (⟨list, .label l :: rest⟩ :: outer)).Reaches c (1 + 0)
      (Environment.follow env.runs (⟨list, rest⟩ :: outer) .normal) c :=
    runs_reaches (s := .label l) rfl nofun still (.refl _ c)
  simp only [Environment.follow, found]
  exact step

theorem reaches_goto {top list rest list' rest' : List Stmt} {outer outer' : Point} {l : LabelId}
    (unique : (Stmt.plainLabelsAll top).Nodup) (target : At top (⟨list, .label l :: rest⟩ :: outer))
    (here : At top (⟨list', rest'⟩ :: outer')) (still : ∀ host, env.watch (.label l) host = host)
    (still' : ∀ host, env.watch (.goto l) host = host) (c : Config σ) :
    (env.runs (⟨list', .goto l :: rest'⟩ :: outer')).Reaches c 2
      (env.runs (⟨list, rest⟩ :: outer)) c := by
  have step : (env.runs (⟨list', .goto l :: rest'⟩ :: outer')).Reaches c (1 + 0)
      (Environment.follow env.runs (⟨list', rest'⟩ :: outer') (.goto l)) c :=
    runs_reaches (s := .goto l) rfl nofun still' (.refl _ c)
  exact step.trans (reaches_jump unique target here still c)

end ManagedCode
