import ManagedCode.Proofs.Run.Inherited
import ManagedCode.Proofs.Run.Observed
import ManagedCode.Proofs.Run.SelfContained

namespace ManagedCode

variable {σ α β : Type} {host : Host σ} {methods : List SynthesizedMethod} {n : Nat}

namespace World

/-- What an execution does to a world: it adds to what was seen, and takes a unit of fuel for each
statement that it executes. -/
structure Elapsed (w w' : World (Observed σ)) : Prop where
  fuel : w'.fuel ≤ w.fuel
  events : w.host.events <+: w'.host.events
  count : w'.host.executed.length + w'.fuel = w.host.executed.length + w.fuel

theorem Elapsed.refl (w : World (Observed σ)) : w.Elapsed w :=
  ⟨Nat.le_refl _, List.prefix_rfl, rfl⟩

theorem Elapsed.trans {u v w : World (Observed σ)} (h : u.Elapsed v) (h' : v.Elapsed w) :
    u.Elapsed w :=
  ⟨Nat.le_trans h'.fuel h.fuel, h.events.trans h'.events, h'.count.trans h.count⟩

theorem Elapsed.executed_le {w w' : World (Observed σ)} (h : w.Elapsed w') :
    w.host.executed.length ≤ w'.host.executed.length :=
  (h.events.filterMap Event.stmt?).length_le

/-- Where an execution that runs out at `w` ends at `w'` with so much more fuel: what was seen
until it ran out is seen again, and if it is not the host that ended it, a statement was due that
is executed if there is more fuel at all. -/
structure Outlasted (host : Host σ) (more : Nat) (w w' : World (Observed σ)) : Prop where
  events : w.host.events <+: w'.host.events
  due : host.Raises .stepLimit ∨
    w.fuel = 0 ∧ (0 < more → w.host.executed.length < w'.host.executed.length)

theorem Outlasted.trans {more : Nat} {u v w : World (Observed σ)} (h : u.Outlasted host more v)
    (h' : v.Elapsed w) : u.Outlasted host more w :=
  ⟨h.events.trans h'.events, h.due.imp_right fun ⟨empty, grows⟩ =>
    ⟨empty, fun some => Nat.lt_of_lt_of_le (grows some) h'.executed_le⟩⟩

end World

/-- With at most `n` units of fuel, what is done with less fuel is done first with more, and
nothing else unless the fuel ran out. -/
structure Exec.Lasts (host : Host σ) (n : Nat) (x : Exec (Observed σ) α) : Prop where
  elapsed : ∀ c : Config (Observed σ), c.fuel ≤ n → c.world.Elapsed (finalState (x c)).world
  ends : ∀ {c : Config (Observed σ)} {more r c'}, c.fuel + more ≤ n → x c = reached r c' →
    r ≠ .error .stepLimit ∨ c'.fuel ≠ 0 →
    x (c.withFuel (c.fuel + more)) = reached r (c'.withFuel (c'.fuel + more))
  outlasted : ∀ {c : Config (Observed σ)} {more c'}, c.fuel + more ≤ n →
    x c = reached (.error .stepLimit) c' →
    c'.world.Outlasted host more (finalState (x (c.withFuel (c.fuel + more)))).world

namespace Exec.Lasts

@[simp] theorem finalState_reached {ε S : Type} (r : Except ε α) (s : S) :
    finalState (reached r s) = s := by
  cases r <;> rfl

/-- A step that does not look at the fuel, and fails for want of it only if the host says so. -/
theorem of_steady {x : Exec (Observed σ) α}
    (steady : ∀ c : Config (Observed σ), ∃ r, ∃ c' : Config (Observed σ),
      (∀ f, x (c.withFuel f) = reached r (c'.withFuel f)) ∧
      c.world.host.events <+: c'.world.host.events ∧
      c'.world.host.executed = c.world.host.executed ∧
      (r = .error .stepLimit → host.Raises .stepLimit)) : x.Lasts host n := by
  have here : ∀ c : Config (Observed σ), ∃ r, ∃ c' : Config (Observed σ),
      x c = reached r c' ∧ c'.fuel = c.fuel ∧
      (∀ f, x (c.withFuel f) = reached r (c'.withFuel f)) ∧ c.world.Elapsed c'.world ∧
      (r = .error .stepLimit → host.Raises .stepLimit) := by
    intro c
    obtain ⟨r, c', goes, events, executed, raised⟩ := steady c
    refine ⟨r, c'.withFuel c.fuel, goes c.fuel, rfl, goes, ⟨Nat.le_refl _, events, ?_⟩, raised⟩
    exact congrArg (·.length + c.fuel) executed
  constructor
  · intro c _
    obtain ⟨r, c', hx, -, -, elapsed, -⟩ := here c
    rw [hx, finalState_reached]
    exact elapsed
  · intro c more r c' _ hx _
    obtain ⟨r', c'', hx', fuel, goes, -, -⟩ := here c
    obtain ⟨rfl, rfl⟩ := reached_inj (hx.symm.trans hx')
    rw [goes, fuel]
  · intro c more c' _ hx
    obtain ⟨r', c'', hx', fuel, goes, elapsed, raised⟩ := here c
    obtain ⟨rfl, rfl⟩ := reached_inj (hx.symm.trans hx')
    rw [goes, finalState_reached]
    exact ⟨List.prefix_rfl, .inl (raised rfl)⟩

theorem pure (a : α) : (Pure.pure a : Exec (Observed σ) α).Lasts host n :=
  .of_steady fun c => ⟨.ok a, c, fun _ => rfl, List.prefix_rfl, rfl, nofun⟩

theorem fails {error : RunError} (other : error ≠ .stepLimit) :
    (throw error : Exec (Observed σ) α).Lasts host n :=
  .of_steady fun c => ⟨.error error, c, fun _ => rfl, List.prefix_rfl, rfl,
    fun limit => absurd (Except.error.inj limit) other⟩

theorem bind {x : Exec (Observed σ) α} {f : α → Exec (Observed σ) β} (first : x.Lasts host n)
    (next : ∀ a, (f a).Lasts host n) : (x >>= f).Lasts host n := by
  constructor
  · intro c bound
    have start := first.elapsed c bound
    obtain ⟨r, c', hx⟩ := exists_reached (x c)
    rw [hx, finalState_reached] at start
    cases r with
    | error e =>
      rw [bind_of_error hx]
      exact start
    | ok a =>
      rw [bind_of_ok hx]
      exact start.trans ((next a).elapsed c' (Nat.le_trans start.fuel bound))
  · intro c more r c' bound h through
    have start := first.elapsed c (by omega)
    obtain ⟨r₁, c₁, hx⟩ := exists_reached (x c)
    rw [hx, finalState_reached] at start
    cases r₁ with
    | error e =>
      rw [bind_of_error hx] at h
      obtain ⟨rfl, rfl⟩ := reached_inj (show reached (.error e) c₁ = reached r c' from h)
      exact bind_of_error (first.ends bound hx
        (through.imp_left fun other limit => other (congrArg _ (Except.error.inj limit))))
    | ok a =>
      rw [bind_of_ok hx] at h
      have less : c₁.fuel ≤ c.fuel := start.fuel
      rw [bind_of_ok (first.ends bound hx (.inl nofun))]
      exact (next a).ends (by omega) h through
  · intro c more c' bound h
    have start := first.elapsed c (by omega)
    obtain ⟨r₁, c₁, hx⟩ := exists_reached (x c)
    rw [hx, finalState_reached] at start
    cases r₁ with
    | error e =>
      rw [bind_of_error hx] at h
      obtain ⟨limit, rfl⟩ :=
        reached_inj (show reached (.error e) c₁ = reached (.error .stepLimit) c' from h)
      cases limit
      -- The fuel ran out in the first step, which may go on to the second with more fuel.
      have longer := first.outlasted bound hx
      have start' := first.elapsed (c.withFuel (c.fuel + more)) bound
      obtain ⟨r₂, c₂, hx'⟩ := exists_reached (x (c.withFuel (c.fuel + more)))
      rw [hx', finalState_reached] at longer start'
      cases r₂ with
      | error e =>
        rw [bind_of_error hx']
        exact longer
      | ok a =>
        rw [bind_of_ok hx']
        exact longer.trans ((next a).elapsed c₂ (Nat.le_trans start'.fuel bound))
    | ok a =>
      rw [bind_of_ok hx] at h
      have less : c₁.fuel ≤ c.fuel := start.fuel
      rw [bind_of_ok (first.ends bound hx (.inl nofun))]
      exact (next a).outlasted (by omega) h

/-- A step that does to the world what another one does in an activation of its own, and ends as
`ends` says. -/
theorem transfer {x : Exec (Observed σ) α} {y : Exec (Observed σ) β} (h : x.Lasts host n)
    (enter : Activation → Activation) (leave : Activation → Activation → Activation)
    (ends : Except RunError α → Except RunError β)
    (goes : ∀ {c : Config (Observed σ)} {r c'}, x ⟨enter c.activation, c.world⟩ = reached r c' →
      y c = reached (ends r) ⟨leave c.activation c'.activation, c'.world⟩)
    (limits : ∀ {r}, ends r = .error .stepLimit ↔ r = .error .stepLimit) : y.Lasts host n := by
  constructor
  · intro c bound
    obtain ⟨r, c', hx⟩ := exists_reached (x ⟨enter c.activation, c.world⟩)
    have elapsed := h.elapsed ⟨enter c.activation, c.world⟩ bound
    rw [hx, finalState_reached] at elapsed
    rw [goes hx, finalState_reached]
    exact elapsed
  · intro c more r c' bound hy through
    obtain ⟨r', c'', hx⟩ := exists_reached (x ⟨enter c.activation, c.world⟩)
    obtain ⟨rfl, rfl⟩ := reached_inj ((goes hx).symm.trans hy)
    have longer := h.ends (c := ⟨enter c.activation, c.world⟩) bound hx
      (through.imp_left (mt limits.mpr))
    exact goes (c := c.withFuel (c.fuel + more)) longer
  · intro c more c' bound hy
    obtain ⟨r', c'', hx⟩ := exists_reached (x ⟨enter c.activation, c.world⟩)
    obtain ⟨limit, rfl⟩ := reached_inj ((goes hx).symm.trans hy)
    rw [limits.mp limit] at hx
    have longer := h.outlasted (c := ⟨enter c.activation, c.world⟩) bound hx
    let c₁ := c.withFuel (c.fuel + more)
    obtain ⟨r₂, c₂, hx'⟩ := exists_reached (x ⟨enter c₁.activation, c₁.world⟩)
    change World.Outlasted host more c''.world
      (finalState (x ⟨enter c₁.activation, c₁.world⟩)).world at longer
    rw [hx', finalState_reached] at longer
    rw [goes hx', finalState_reached]
    exact longer

/-- How a statement ends whose exceptions are flows. -/
def caught : Except RunError Flow → Except RunError Flow
  | .ok flow => .ok flow
  | .error (.thrown value) => .ok (.throw value)
  | .error error => .error error

theorem unwinding {x : Exec (Observed σ) Flow} (h : x.Lasts host n) :
    x.unwinding.Lasts host n := by
  refine h.transfer id (fun _ activation => activation) caught ?_ ?_
  · intro c r c' hx
    unfold Exec.unwinding
    rw [show x c = reached r c' from hx]
    cases r with
    | ok flow => rfl
    | error error => cases error <;> rfl
  · intro r
    cases r with
    | ok flow => exact Iff.rfl
    | error error => cases error <;> first | exact Iff.rfl | exact ⟨nofun, fun h => by cases h⟩

theorem within {x : Exec (Observed σ) α} (h : x.Lasts host n) (activation : Activation) :
    (x.within activation).Lasts host n :=
  h.transfer (fun _ => activation) (fun activation _ => activation) id Exec.within_eq Iff.rfl

/-- What the host is asked is written down, and nothing else happens. -/
theorem onHost (asked : Interaction) {answer : EStateM RunError σ α}
    (raised : ∀ h h', answer h = reached (.error .stepLimit) h' → host.Raises .stepLimit) :
    Lasts host n (Exec.onWorld fun _ => World.onHost (Observed.noting asked answer)) := by
  refine .of_steady fun c => ?_
  obtain ⟨r, h', ha⟩ := exists_reached (answer c.world.host.host)
  let seen : Observed σ := { c.world.host with host := h' }.note (.asked asked)
  refine ⟨r, { c with world := { c.world with host := seen } }, fun f =>
    Exec.onWorld_eq (c := c.withFuel f) (World.onHost_eq (w := c.world.withFuel f)
      (Observed.noting_eq asked ha)), ?_, ?_, ?_⟩
  · exact List.prefix_append _ _
  · exact Observed.executed_note_asked asked { c.world.host with host := h' }
  · rintro rfl
    exact raised _ _ ha

/-- A statement is written down, and takes a unit of fuel. -/
theorem elapsed_begun (s : Stmt) {c : Config (Observed σ)} {k : Nat} (left : c.fuel = k + 1) :
    c.world.Elapsed ((Environment.observing host methods).begun s c k).world := by
  refine ⟨Nat.le_of_lt (Nat.lt_of_lt_of_eq (Nat.lt_succ_self k) left.symm), List.prefix_append _ _, ?_⟩
  have one : (c.world.host.note (.executed s)).executed.length = c.world.host.executed.length + 1 := by
    rw [Observed.executed_note_executed, List.length_append, List.length_singleton]
  change (c.world.host.note (.executed s)).executed.length + k = _ + c.fuel
  omega

theorem begin {s : Stmt} {x : Exec (Observed σ) α} (h : ∀ k < n, x.Lasts host k) :
    Lasts host n ((Environment.observing host methods).begin s >>= fun _ => x) := by
  let env := Environment.observing host methods
  have started : ∀ {c k}, c.fuel = k + 1 → (env.begin s >>= fun _ => x) c = x (env.begun s c k) :=
    fun left => bind_of_ok (Environment.begin_succ s left)
  have stopped : ∀ {c}, c.fuel = 0 → (env.begin s >>= fun _ => x) c = .error .stepLimit c :=
    fun empty => bind_of_error (Environment.begin_zero s empty)
  constructor
  · intro c bound
    cases hf : c.fuel with
    | zero =>
      rw [stopped hf]
      exact .refl _
    | succ k =>
      rw [started hf]
      exact (elapsed_begun s hf).trans ((h k (by omega)).elapsed (env.begun s c k) (Nat.le_refl k))
  · intro c more r c' bound hx through
    cases hf : c.fuel with
    | zero =>
      rw [stopped hf] at hx
      obtain ⟨rfl, rfl⟩ := reached_inj (show reached (.error .stepLimit) c = reached r c' from hx)
      exact through.elim (absurd rfl) (absurd hf)
    | succ k =>
      rw [started hf] at hx
      rw [started (c := c.withFuel (k + 1 + more)) (k := k + more) (by simp; omega)]
      exact (h (k + more) (by omega)).ends (c := env.begun s c k) (Nat.le_refl _) hx through
  · intro c more c' bound hx
    cases hf : c.fuel with
    | zero =>
      rw [stopped hf] at hx
      cases hx
      cases more with
      | zero =>
        rw [stopped (by simp)]
        exact ⟨List.prefix_rfl, .inr ⟨hf, fun some => absurd some (Nat.lt_irrefl 0)⟩⟩
      | succ more =>
        have long : (c.withFuel (0 + (more + 1))).fuel = more + 1 := by simp
        rw [started long]
        have first : (c.withFuel (0 + (more + 1))).world.Elapsed (env.begun s _ more).world :=
          elapsed_begun s long
        have rest := (h more (by omega)).elapsed (env.begun s (c.withFuel (0 + (more + 1))) more)
          (Nat.le_refl more)
        refine ⟨(first.trans rest).events, .inr ⟨hf, fun _ => ?_⟩⟩
        refine Nat.lt_of_lt_of_le ?_ rest.executed_le
        have count := first.count
        change (env.begun s _ more).world.host.executed.length + more =
          c.world.host.executed.length + (0 + (more + 1)) at count
        omega
    | succ k =>
      rw [started hf] at hx
      rw [started (c := c.withFuel (k + 1 + more)) (k := k + more) (by simp; omega)]
      exact (h (k + more) (by omega)).outlasted (c := env.begun s c k) (Nat.le_refl _) hx

end Exec.Lasts

theorem inherited_lasts (host : Host σ) (methods : List SynthesizedMethod) :
    (Environment.observing host methods).Inherited fun n _ x => Exec.Lasts host n x where
  pure := .pure
  fails := .fails
  bind := .bind
  unwinding := .unwinding
  within := .within
  onWorld h := ⟨fun c => (h c.activation).elapsed c, (h _).ends, (h _).outlasted⟩
  call member receiver? args := .onHost _ fun s s' raised =>
    ⟨s, s', .inl ⟨member, receiver?, args, raised⟩⟩
  load member receiver? := .onHost _ fun s s' raised =>
    ⟨s, s', .inr (.inl ⟨member, receiver?, raised⟩)⟩
  store member receiver? value := .onHost _ fun s s' raised =>
    ⟨s, s', .inr (.inr ⟨member, receiver?, value, raised⟩)⟩
  readField slot := .of_steady fun c => ⟨c.world.field slot, c,
    fun f => Exec.onWorld_eq (c := c.withFuel f) (World.readField_eq slot (c.world.withFuel f)),
    List.prefix_rfl, rfl, fun limit => by
      unfold World.field at limit
      cases h : c.world.fields[slot.index]? with
      | none => rw [h] at limit; cases limit
      | some value => rw [h] at limit; cases limit⟩
  writeField slot value := .of_steady fun c => by
    by_cases room : slot.index < c.world.fields.length
    · exact ⟨.ok (), { c with world := { c.world with fields := c.world.fields.set slot.index value } },
        fun f => Exec.onWorld_eq (c := c.withFuel f)
          (World.writeField_eq (w := c.world.withFuel f) value room), List.prefix_rfl, rfl, nofun⟩
    · exact ⟨.error _, c, fun f => Exec.onWorld_eq (c := c.withFuel f)
        (World.writeField_eq_error (w := c.world.withFuel f) value room), List.prefix_rfl, rfl,
        fun limit => by cases limit⟩
  setLocal id value := .of_steady fun c =>
    ⟨.ok (), { c with activation := c.activation.writeLocal id value }, fun _ => rfl,
      List.prefix_rfl, rfl, nofun⟩
  setParam id value := .of_steady fun c => by
    have goes : ∀ f, (Exec.setParam id value : Exec (Observed σ) Unit) (c.withFuel f) =
        (ofExcept (c.activation.writeParam id value) >>= fun activation =>
          modify fun config => { config with activation } : Exec (Observed σ) PUnit)
          (c.withFuel f) := fun _ => rfl
    cases h : c.activation.writeParam id value with
    | ok activation =>
      rw [h] at goes
      exact ⟨.ok (), { c with activation }, goes, List.prefix_rfl, rfl, nofun⟩
    | error e =>
      rw [h] at goes
      refine ⟨.error e, c, goes, List.prefix_rfl, rfl, fun limit => ?_⟩
      cases limit
      unfold Activation.writeParam at h
      split at h <;> cases h
  begin s _ h := .begin h

section

variable {body : Body} {args : List Value} {w w' : World (Observed σ)} {r : Except RunError Value}

theorem Environment.lasts_execute (host : Host σ) (methods : List SynthesizedMethod) (n : Nat)
    (body : Body) (args : List Value) :
    Exec.Lasts host n (Exec.onWorld fun _ => (observing host methods).execute body args) :=
  (inherited_lasts host methods).execute n body args

theorem Environment.onWorld_execute
    (h : (observing host methods).execute body args w = reached r w') :
    (Exec.onWorld fun _ => (observing host methods).execute body args) ⟨{ args }, w⟩ =
      reached r ⟨{ args }, w'⟩ :=
  Exec.onWorld_eq (c := ⟨{ args }, w⟩) h

theorem Environment.execute_elapsed (h : (observing host methods).execute body args w = reached r w') :
    w.Elapsed w' := by
  have elapsed := (lasts_execute host methods w.fuel body args).elapsed ⟨{ args }, w⟩ (Nat.le_refl w.fuel)
  rw [onWorld_execute h, Exec.Lasts.finalState_reached] at elapsed
  exact elapsed

theorem Environment.execute_ends (h : (observing host methods).execute body args w = reached r w')
    (through : r ≠ .error .stepLimit ∨ w'.fuel ≠ 0) (more : Nat) :
    (observing host methods).execute body args (w.withFuel (w.fuel + more)) =
      reached r (w'.withFuel (w'.fuel + more)) := by
  have longer := (lasts_execute host methods (w.fuel + more) body args).ends (c := ⟨{ args }, w⟩)
    (Nat.le_refl _) (onWorld_execute h) through
  obtain ⟨r', w'', h'⟩ := exists_reached
    ((observing host methods).execute body args (w.withFuel (w.fuel + more)))
  obtain ⟨rfl, same⟩ := reached_inj ((onWorld_execute h').symm.trans longer)
  rw [h']
  exact congrArg (reached r' ·.world) same

theorem Environment.execute_outlasted
    (h : (observing host methods).execute body args w = reached (.error .stepLimit) w') (more : Nat)
    {w'' : World (Observed σ)}
    (h' : (observing host methods).execute body args (w.withFuel (w.fuel + more)) = reached r w'') :
    w'.Outlasted host more w'' := by
  have longer := (lasts_execute host methods (w.fuel + more) body args).outlasted (c := ⟨{ args }, w⟩)
    (Nat.le_refl _) (onWorld_execute h)
  have there := onWorld_execute h'
  change (Exec.onWorld fun _ => (observing host methods).execute body args)
    (Config.withFuel ⟨{ args }, w⟩ (w.fuel + more)) = _ at there
  change w'.Outlasted host more (finalState ((Exec.onWorld fun _ =>
    (observing host methods).execute body args)
      (Config.withFuel ⟨{ args }, w⟩ (w.fuel + more)))).world at longer
  rwa [there, Exec.Lasts.finalState_reached] at longer

end

/-! Where a statement goes in its regions. -/

/-- The execution of a statement from one configuration comes to a list of statements in it, at
another one. -/
inductive Environment.ComesTo (env : Environment σ) :
    Stmt → Config σ → List Stmt → Config σ → Prop
  | block {stmts c} : ComesTo env (.block stmts) c stmts c
  | body {id body catches finally? c} :
    ComesTo env (.tryCatch id body catches finally?) c body c
  | catch_ {id body ty caught code catches finally? c c' value} :
    env.runAll body c = .ok (.throw value) c' →
      ComesTo env (.tryCatch id body (.mk ty caught code :: catches) finally?) c code
        { c' with activation := caught.elim c'.activation (c'.activation.writeLocal · value) }
  | finally_ {id body catches cleanup c c' c'' flow flow'} :
    env.runAll body c = .ok flow c' → handle env.runAll catches flow c' = .ok flow' c'' →
      ComesTo env (.tryCatch id body catches (some cleanup)) c cleanup c''
  | faultBody {body fault c} : ComesTo env (.tryFault body fault) c body c
  | fault {body fault c c' value} :
    env.runAll body c = .ok (.throw value) c' → ComesTo env (.tryFault body fault) c fault c'

/-- An execution that runs out of fuel in a region of a statement is over there: no clause handles
that, and none is executed for it. -/
theorem Environment.ComesTo.stepLimit {env : Environment σ} {s : Stmt} {stmts : List Stmt}
    {c c' t : Config σ} (h : env.ComesTo s c stmts c')
    (ended : env.runAll stmts c' = .error .stepLimit t) :
    env.execStmt env.runAll s c = .error .stepLimit t := by
  cases h with
  | block => exact ended
  | body => exact bind_of_error ended
  | faultBody => exact bind_of_error ended
  | @catch_ _ _ _ caught _ _ _ _ _ _ thrown =>
    refine (bind_of_ok thrown).trans (bind_of_error ?_)
    cases caught <;> exact ended
  | finally_ ran handled =>
    exact (bind_of_ok ran).trans ((bind_of_ok handled).trans (bind_of_error ended))
  | fault thrown => exact (bind_of_ok thrown).trans (bind_of_error ended)

/-- More fuel never changes how an execution ends. If it does not run out of fuel, it ends alike
with more, having seen the same and leaving what it got more. If it runs out, all that was seen is
seen first with more fuel as well. Where it runs out in a region of a statement, nothing else is
executed. -/
theorem execute_moreFuel (host : Host σ) (methods : List SynthesizedMethod) (body : Body)
    (args fields : List Value) (start : σ) {f f' : Nat} (le : f ≤ f') :
    let env := Environment.observing host methods
    let result fuel := env.execute body args ⟨fields, fuel, { host := start }⟩
    (∀ r w, result f = reached r w → r ≠ .error .stepLimit →
      result f' = reached r (w.withFuel (w.fuel + (f' - f)))) ∧
    (∀ w r' w', result f = .error .stepLimit w → result f' = reached r' w' →
      w.host.events <+: w'.host.events ∧ w.host.asked <+: w'.host.asked) ∧
    ∀ s c stmts c' t, env.ComesTo s c stmts c' → env.runAll stmts c' = .error .stepLimit t →
      env.execStmt env.runAll s c = .error .stepLimit t := by
  intro env result
  obtain ⟨more, rfl⟩ := Nat.exists_eq_add_of_le le
  rw [Nat.add_sub_cancel_left]
  refine ⟨fun r w h through => Environment.execute_ends h (.inl through) more, fun w r' w' h h' => ?_,
    fun s c stmts c' t comes ended => comes.stepLimit ended⟩
  have outlasted := Environment.execute_outlasted (r := r') h more h'
  exact ⟨outlasted.events, outlasted.events.filterMap _⟩

/-- A loop without an end, with a clause for everything that may happen in it. -/
def guardedLoop : Body where
  root :=
    [.tryCatch ⟨0⟩
      [.label ⟨0⟩, .expr (.call (.method default) none [.int 1]), .goto ⟨0⟩]
      [.mk none none [.expr (.call (.method default) none [.int 2])]]
      (some [.expr (.call (.method default) none [.int 3])])]
  labelCount := 1

theorem execute_moreFuel_guardedLoop :
    let env := Environment.observing Script.host []
    ∃ w w', env.execute guardedLoop [] ⟨[], 5, { host := {} }⟩ = .error .stepLimit w ∧
      env.execute guardedLoop [] ⟨[], 7, { host := {} }⟩ = .error .stepLimit w' ∧
      w.host.asked = [.call default none [.int 1]] ∧
      w'.host.asked = [.call default none [.int 1], .call default none [.int 1]] ∧
      w.host.asked <+: w'.host.asked := by
  intro env
  obtain ⟨-, longer, -⟩ := execute_moreFuel Script.host [] guardedLoop [] [] {}
    (show 5 ≤ 7 by decide)
  exact ⟨_, _, rfl, rfl, rfl, rfl, (longer _ (.error .stepLimit) _ rfl rfl).2⟩

end ManagedCode
