import ManagedCode.Proofs.Body.WellFormed

namespace ManagedCode

/-! What executions keep, and why they may fail. -/

/-- From a state with `pre` a step ends in one with `post`, or fails as `fails` says. -/
def Ensures {S α : Type} (pre : S → Prop) (x : EStateM RunError S α) (post : α → S → Prop)
    (fails : RunError → S → Prop) : Prop :=
  ∀ s, pre s → (∀ a t, x s = .ok a t → post a t) ∧ ∀ e t, x s = .error e t → fails e t

namespace Ensures

variable {S α β : Type} {pre pre' : S → Prop} {post post' : α → S → Prop}
  {fails fails' : RunError → S → Prop} {x : EStateM RunError S α}

theorem pure {a : α} (h : ∀ s, pre s → post a s) :
    Ensures pre (Pure.pure a : EStateM RunError S α) post fails := by
  refine fun s hs => ⟨fun _ _ hx => ?_, fun _ _ hx => ?_⟩ <;> cases hx
  exact h s hs

theorem throws {e : RunError} (h : ∀ s, pre s → fails e s) :
    Ensures pre (throw e : EStateM RunError S α) post fails := by
  refine fun s hs => ⟨fun _ _ hx => ?_, fun _ _ hx => ?_⟩ <;> cases hx
  exact h s hs

theorem outcome {r : Except RunError α} (good : ∀ a s, r = .ok a → pre s → post a s)
    (bad : ∀ e s, r = .error e → pre s → fails e s) :
    Ensures pre (ofExcept r : EStateM RunError S α) post fails := by
  cases r with
  | ok a => exact pure fun s hs => good a s rfl hs
  | error e => exact throws fun s hs => bad e s rfl hs

theorem update {f : S → S} {post : PUnit → S → Prop} (h : ∀ s, pre s → post ⟨⟩ (f s)) :
    Ensures pre (modify f : EStateM RunError S PUnit) post fails := by
  refine fun s hs => ⟨fun _ _ hx => ?_, fun _ _ hx => ?_⟩ <;> cases hx
  exact h s hs

theorem bind {f : α → EStateM RunError S β} {last : β → S → Prop} (first : Ensures pre x post fails)
    (next : ∀ a, Ensures (post a) (f a) last fails) : Ensures pre (x >>= f) last fails := by
  intro s hs
  cases hx : x s with
  | ok a t =>
    rw [bind_of_ok hx]
    exact next a t ((first s hs).1 a t hx)
  | error e t =>
    rw [bind_of_error hx]
    refine ⟨fun _ _ h => ?_, fun _ _ h => ?_⟩ <;> cases h
    exact (first s hs).2 e t hx

theorem mono (h : Ensures pre x post fails) (before : ∀ s, pre' s → pre s)
    (after : ∀ a s, post a s → post' a s) (bad : ∀ e s, fails e s → fails' e s) :
    Ensures pre' x post' fails' := fun s hs =>
  ⟨fun a t hx => after a t ((h s (before s hs)).1 a t hx),
    fun e t hx => bad e t ((h s (before s hs)).2 e t hx)⟩

/-- What does not depend on the state is known beforehand. -/
theorem given {P : Prop} (h : P → Ensures pre x post fails) :
    Ensures (fun s => pre s ∧ P) x post fails := fun s hs => h hs.2 s hs.1

/-- A step may depend on the state that it begins in. -/
theorem fromState {f : S → EStateM RunError S α} (h : ∀ s, Ensures (fun t => t = s ∧ pre t) (f s) post fails) :
    Ensures pre (get >>= f) post fails :=
  fun s hs => h s s ⟨rfl, hs⟩

end Ensures

/-- An error that is due to the form of the code, whatever the values that it works on. -/
def RunError.OfForm : RunError → Prop
  | .uninitializedLocal _ | .missingArgument _ | .undefinedLabel _ | .undefinedMethod _ => True
  | .unsupported (.machineField _) | .unsupported .suspension => True
  | _ => False

/-- Jumps that a flow is lead to one of the targets. -/
def Flow.Leads (targets : List LabelId) (flow : Flow) : Prop := ∀ l, flow = .goto l → l ∈ targets

variable {σ α : Type}

/-- Code of a vocabulary keeps what holds of activations and of hosts, and fails only as it may. -/
structure Safe (v : Vocabulary) (env : Environment σ) (acts : Activation → Prop) (hosts : σ → Prop)
    (may : RunError → Prop) : Prop where
  ordinary : ∀ e, ¬e.OfForm → may e
  locals : ∀ {activation id error}, acts activation → v.locals id →
    activation.readLocal id = .error error → may error
  params : ∀ {activation id error}, acts activation → v.params id →
    activation.readParam id = .error error → may error
  setLocal : ∀ {activation} id value, acts activation → acts (activation.writeLocal id value)
  setParam : ∀ {activation id value later}, acts activation → v.params id →
    activation.writeParam id value = .ok later → acts later
  lacksParam : ∀ {activation id value error}, acts activation → v.params id →
    activation.writeParam id value = .error error → may error
  slots : ∀ {slot}, v.slots slot → may (.unsupported (.machineField slot))
  methods : ∀ {method}, v.methods method →
    env.methods[method.index]? = none ∧ may (.undefinedMethod method)
  suspends : v.suspends → may (.unsupported .suspension)
  call : ∀ member receiver? args, Ensures hosts (env.host.call member receiver? args)
    (fun _ => hosts) fun e host => may e ∧ hosts host
  load : ∀ member receiver?, Ensures hosts (env.host.load member receiver?)
    (fun _ => hosts) fun e host => may e ∧ hosts host
  store : ∀ member receiver? value, Ensures hosts (env.host.store member receiver? value)
    (fun _ => hosts) fun e host => may e ∧ hosts host
  watch : ∀ s {host}, hosts host → hosts (env.watch s host)

theorem BinaryOp.not_ofForm {op : BinaryOp} {lhs rhs : Value} {e : RunError}
    (h : op.apply lhs rhs = .error e) : ¬e.OfForm := by
  unfold BinaryOp.apply at h
  split at h <;> first | cases h | (split at h <;> cases h)
  all_goals exact id

theorem UnaryOp.not_ofForm {op : UnaryOp} {operand : Value} {e : RunError}
    (h : op.apply operand = .error e) : ¬e.OfForm := by
  unfold UnaryOp.apply at h
  split at h <;> cases h
  exact id

namespace Safe

variable {v : Vocabulary} {env : Environment σ} {acts : Activation → Prop} {hosts : σ → Prop}
  {may : RunError → Prop}

/-! Expressions. -/

theorem onHost {action : EStateM RunError σ α}
    (h : Ensures hosts action (fun _ => hosts) fun e host => may e ∧ hosts host) :
    Ensures (fun w : World σ => hosts w.host) (World.onHost action) (fun _ w => hosts w.host)
      fun e w => may e ∧ hosts w.host := by
  intro w hw
  obtain ⟨r, host, ha⟩ := exists_reached (action w.host)
  rw [World.onHost_eq ha]
  cases r with
  | ok a =>
    refine ⟨fun _ _ hx => ?_, fun _ _ hx => ?_⟩ <;> cases hx
    exact (h w.host hw).1 a host ha
  | error e =>
    refine ⟨fun _ _ hx => ?_, fun _ _ hx => ?_⟩ <;> cases hx
    exact (h w.host hw).2 e host ha

theorem readField (safe : Safe v env acts hosts may) {slot : FieldSlot} (own : v.slots slot) :
    Ensures (fun w : World σ => hosts w.host) (World.readField slot) (fun _ w => hosts w.host)
      fun e w => may e ∧ hosts w.host := by
  intro w hw
  rw [World.readField_eq]
  unfold World.field
  cases w.fields[slot.index]? with
  | none =>
    refine ⟨fun _ _ hx => ?_, fun _ _ hx => ?_⟩ <;> cases hx
    exact ⟨safe.slots own, hw⟩
  | some value =>
    refine ⟨fun _ _ hx => ?_, fun _ _ hx => ?_⟩ <;> cases hx
    exact hw

theorem writeField (safe : Safe v env acts hosts may) {slot : FieldSlot} (own : v.slots slot) (value : Value) :
    Ensures (fun w : World σ => hosts w.host) (World.writeField slot value)
      (fun _ w => hosts w.host) fun e w => may e ∧ hosts w.host := by
  intro w hw
  by_cases room : slot.index < w.fields.length
  · rw [World.writeField_eq value room]
    refine ⟨fun _ _ hx => ?_, fun _ _ hx => ?_⟩ <;> cases hx
    exact hw
  · rw [World.writeField_eq_error value room]
    refine ⟨fun _ _ hx => ?_, fun _ _ hx => ?_⟩ <;> cases hx
    exact ⟨safe.slots own, hw⟩

theorem invoke (safe : Safe v env acts hosts may) {run : List Stmt → Exec σ Flow}
    {method : SynthMethodId} (own : v.methods method) (args : List Value) :
    Ensures (fun w : World σ => hosts w.host) (env.invoke run method args)
      (fun _ w => hosts w.host) fun e w => may e ∧ hosts w.host := by
  obtain ⟨missing, allowed⟩ := safe.methods own
  unfold Environment.invoke
  rw [missing]
  exact .throws fun w hw => ⟨allowed, hw⟩

variable {run : List Stmt → Exec σ Flow} {activation : Activation}

mutual

theorem evalExpr (safe : Safe v env acts hosts may) (known : acts activation) (e : Expr)
    (own : e.Uses v) :
    Ensures (fun w : World σ => hosts w.host) (e.eval env.host (env.invoke run) activation)
      (fun _ w => hosts w.host) fun e w => may e ∧ hosts w.host := by
  have unable : ∀ what, ¬(RunError.unsupported what).OfForm →
      Ensures (fun w : World σ => hosts w.host)
        (throw (.unsupported what) : EStateM RunError (World σ) Value) (fun _ w => hosts w.host)
        fun e w => may e ∧ hosts w.host := fun _ form =>
    .throws fun w hw => ⟨safe.ordinary _ form, hw⟩
  cases e with
  | const value => exact .pure fun w hw => hw
  | «local» id =>
    exact .outcome (fun _ _ _ hw => hw) fun e w failed hw => ⟨safe.locals known own failed, hw⟩
  | param id =>
    exact .outcome (fun _ _ _ hw => hw) fun e w failed hw => ⟨safe.params known own failed, hw⟩
  | machineField slot => exact readField safe own
  | field receiver member =>
    cases receiver with
    | none => exact onHost (safe.load member none)
    | some receiver =>
      exact (evalExpr safe known receiver own).bind fun _ => onHost (safe.load member _)
  | call callee receiver args =>
    cases callee with
    | method member =>
      cases receiver with
      | none => exact (evalExprs safe known args own).bind fun _ => onHost (safe.call member none _)
      | some receiver =>
        exact (evalExpr safe known receiver own.1).bind fun _ =>
          (evalExprs safe known args own.2).bind fun _ => onHost (safe.call member _ _)
    | synthesized method =>
      cases receiver with
      | none => exact (evalExprs safe known args own.2).bind fun values => invoke safe own.1 values
      | some receiver =>
        exact (evalExpr safe known receiver own.2.1).bind fun _ =>
          (evalExprs safe known args own.2.2).bind fun values => invoke safe own.1 values
  | binary op lhs rhs =>
    refine (evalExpr safe known lhs own.1).bind fun _ => (evalExpr safe known rhs own.2).bind fun _ => ?_
    exact .outcome (fun _ _ _ hw => hw) fun e w failed hw =>
      ⟨safe.ordinary e (BinaryOp.not_ofForm failed), hw⟩
  | unary op operand =>
    refine (evalExpr safe known operand own).bind fun _ => ?_
    exact .outcome (fun _ _ _ hw => hw) fun e w failed hw =>
      ⟨safe.ordinary e (UnaryOp.not_ofForm failed), hw⟩
  | element | addressOf | newArray | typeToken => exact unable _ id

theorem evalExprs (safe : Safe v env acts hosts may) (known : acts activation) (es : List Expr)
    (own : Expr.UsesAll v es) :
    Ensures (fun w : World σ => hosts w.host)
      (Expr.evalAll env.host (env.invoke run) activation es) (fun _ w => hosts w.host)
      fun e w => may e ∧ hosts w.host := by
  cases es with
  | nil => exact .pure fun w hw => hw
  | cons e es =>
    exact (evalExpr safe known e own.1).bind fun _ => (evalExprs safe known es own.2).bind fun _ =>
      .pure fun w hw => hw

end

/-! Statements. -/

/-- What is known of a configuration. -/
def Known (acts : Activation → Prop) (hosts : σ → Prop) (c : Config σ) : Prop :=
  acts c.activation ∧ hosts c.world.host

/-- An execution that keeps what is known and fails only as it may. -/
abbrev Keeping (acts : Activation → Prop) (hosts : σ → Prop) (may : RunError → Prop)
    (x : Exec σ α) (post : α → Prop := fun _ => True) : Prop :=
  Ensures (Known acts hosts) x (fun a c => Known acts hosts c ∧ post a)
    fun e c => may e ∧ Known acts hosts c

theorem onWorld {action : Activation → EStateM RunError (World σ) α}
    (h : ∀ activation, acts activation → Ensures (fun w : World σ => hosts w.host)
      (action activation) (fun _ w => hosts w.host) fun e w => may e ∧ hosts w.host) :
    Keeping acts hosts may (Exec.onWorld action) := by
  rintro ⟨activation, w⟩ ⟨known, hw⟩
  obtain ⟨r, w', ha⟩ := exists_reached (action activation w)
  rw [Exec.onWorld_eq (c := ⟨activation, w⟩) ha]
  cases r with
  | ok a =>
    refine ⟨fun _ _ hx => ?_, fun _ _ hx => ?_⟩ <;> cases hx
    exact ⟨⟨known, (h activation known w hw).1 a w' ha⟩, trivial⟩
  | error e =>
    refine ⟨fun _ _ hx => ?_, fun _ _ hx => ?_⟩ <;> cases hx
    obtain ⟨allowed, hw'⟩ := (h activation known w hw).2 e w' ha
    exact ⟨allowed, known, hw'⟩

theorem eval (safe : Safe v env acts hosts may) {e : Expr} (own : e.Uses v) :
    Keeping acts hosts may (env.eval run e) :=
  onWorld fun _ known => safe.evalExpr known e own

theorem evalBool (safe : Safe v env acts hosts may) {e : Expr} (own : e.Uses v) :
    Keeping acts hosts may (env.evalBool run e) := by
  refine (safe.eval own).bind fun value => ?_
  cases value with
  | bool b => exact .pure fun _ h => h
  | _ => exact .throws fun _ h => ⟨safe.ordinary _ id, h.1⟩

theorem evalInt (safe : Safe v env acts hosts may) {e : Expr} (own : e.Uses v) :
    Keeping acts hosts may (env.evalInt run e) := by
  refine (safe.eval own).bind fun value => ?_
  cases value with
  | int i => exact .pure fun _ h => h
  | _ => exact .throws fun _ h => ⟨safe.ordinary _ id, h.1⟩

theorem assigns (safe : Safe v env acts hosts may) (id : LocalId) (value : Value) :
    Keeping acts hosts may (Exec.setLocal id value) :=
  .update fun _ h => ⟨⟨safe.setLocal id value h.1, h.2⟩, trivial⟩

theorem write (safe : Safe v env acts hosts may) (value : Value) {place : Place}
    (own : place.Uses v) : Keeping acts hosts may (env.write run value place) := by
  cases place with
  | «local» id => exact safe.assigns id value
  | param id =>
    refine .fromState fun c => ?_
    have writes : Ensures (fun t => t = c ∧ Known acts hosts t)
        (ofExcept (c.activation.writeParam id value) : Exec σ Activation)
        (fun activation t => t = c ∧ Known acts hosts t ∧
          c.activation.writeParam id value = .ok activation)
        fun e t => may e ∧ Known acts hosts t := by
      refine .outcome ?_ ?_
      · rintro activation t written ⟨rfl, h⟩
        exact ⟨rfl, h, written⟩
      · rintro e t failed ⟨rfl, h⟩
        exact ⟨safe.lacksParam h.1 own failed, h⟩
    refine writes.bind fun activation => .update ?_
    rintro t ⟨rfl, h, written⟩
    exact ⟨⟨safe.setParam h.1 own written, h.2⟩, trivial⟩
  | machineField slot => exact onWorld fun _ _ => safe.writeField own value
  | field receiver member =>
    cases receiver with
    | none => exact onWorld fun _ _ => onHost (safe.store member none value)
    | some receiver =>
      exact (safe.eval own).bind fun _ => .mono (onWorld fun _ _ => onHost (safe.store member _ value))
        (fun _ h => h.1) (fun _ _ h => h) fun _ _ h => h
  | element => exact .throws fun _ h => ⟨safe.ordinary _ id, h⟩

/-- What is assumed of the statement lists in a statement. -/
abbrev Runs (v : Vocabulary) (acts : Activation → Prop) (hosts : σ → Prop) (may : RunError → Prop)
    (run : List Stmt → Exec σ Flow) : Prop :=
  ∀ ss, Stmt.UsesAll v ss → Keeping acts hosts may (run ss) (Flow.Leads (Stmt.escapesAll ss))

theorem normal {targets : List LabelId} :
    Keeping acts hosts may (Pure.pure Flow.normal : Exec σ Flow) (Flow.Leads targets) :=
  .pure fun _ h => ⟨h, fun _ same => by cases same⟩

theorem handle (safe : Safe v env acts hosts may) (runs : Runs v acts hosts may run)
    {catches : List Catch} (own : Catch.UsesAll v catches) {targets : List LabelId} {flow : Flow}
    (leads : flow.Leads targets) :
    Keeping acts hosts may (Environment.handle run catches flow)
      (Flow.Leads (targets ++ Catch.escapesAll catches)) := by
  have passes : Keeping acts hosts may (Pure.pure flow)
      (Flow.Leads (targets ++ Catch.escapesAll catches)) :=
    .pure fun _ h => ⟨h, fun l same => List.mem_append_left _ (leads l same)⟩
  cases flow with
  | throw value =>
    cases catches with
    | nil => exact passes
    | cons clause rest =>
      obtain ⟨exceptionTy, caught, body⟩ := clause
      have body : Keeping acts hosts may (run body)
          (Flow.Leads (targets ++ Catch.escapesAll (.mk exceptionTy caught body :: rest))) :=
        (runs body own.2.1).mono (fun _ h => h) (fun flow _ h => ⟨h.1, fun l same =>
          List.mem_append_right _ (List.mem_append_left _ (h.2 l same))⟩) fun _ _ h => h
      cases caught with
      | none => exact body
      | some caught =>
        exact (safe.assigns caught value).bind fun _ =>
          body.mono (fun _ h => h.1) (fun _ _ h => h) fun _ _ h => h
  | _ => exact passes

theorem cleanUp (runs : Runs v acts hosts may run) {cleanup : List Stmt}
    (own : Stmt.UsesAll v cleanup) {targets : List LabelId} {flow : Flow}
    (leads : flow.Leads targets) :
    Keeping acts hosts may (Environment.cleanUp run cleanup flow)
      (Flow.Leads (targets ++ Stmt.escapesAll cleanup)) := by
  refine (runs cleanup own).bind fun ended => ?_
  cases ended with
  | normal => exact .pure fun _ h => ⟨h.1, fun l same => List.mem_append_left _ (leads l same)⟩
  | _ => exact .pure fun _ h => ⟨h.1, fun l same => List.mem_append_right _ (h.2 l same)⟩

/-- A statement keeps what is known, and leads only out to the targets of its jumps. -/
theorem execStmt (safe : Safe v env acts hosts may) (runs : Runs v acts hosts may run) {s : Stmt}
    (own : s.Uses v) :
    Keeping acts hosts may (env.execStmt run s) (Flow.Leads s.escapes) := by
  have ends : ∀ {flow : Flow} {post : Config σ → Prop}, flow.Leads s.escapes →
      Ensures (fun c => Known acts hosts c ∧ post c) (Pure.pure flow)
        (fun flow c => Known acts hosts c ∧ flow.Leads s.escapes)
        fun e c => may e ∧ Known acts hosts c := fun leads => .pure fun _ h => ⟨h.1, leads⟩
  have stays : ∀ {flow : Flow}, (∀ l, flow ≠ .goto l) → flow.Leads s.escapes :=
    fun other l same => absurd same (other l)
  cases s with
  | block ss => exact runs ss own
  | expr value => exact (safe.eval own).bind fun _ => ends (stays fun _ h => by cases h)
  | assign place value =>
    refine (safe.eval own.2).bind fun value => ?_
    refine Ensures.bind ((safe.write value own.1).mono (fun _ h => h.1) (fun _ _ h => h)
      fun _ _ h => h) fun _ => ends (stays fun _ h => by cases h)
  | label | nop => exact normal
  | goto target =>
    exact .pure fun _ h => ⟨h, fun l same => by cases same; exact List.mem_singleton_self _⟩
  | condGoto cond jumpIf target =>
    refine (safe.evalBool own).bind fun holds => ends fun l same => ?_
    split at same
    · cases same
      exact List.mem_singleton_self _
    · cases same
  | switch scrutinee cases default? =>
    refine (safe.evalInt own).bind fun value => ends fun l same => ?_
    cases found : cases.lookup value with
    | some target =>
      rw [found] at same
      cases same
      obtain ⟨before, after, split, -⟩ := List.lookup_eq_some_iff.mp found
      refine List.mem_append_left _ (List.mem_map.mpr ⟨(value, l), ?_, rfl⟩)
      rw [split]
      exact List.mem_append_right _ List.mem_cons_self
    | none =>
      rw [found] at same
      cases default? with
      | none => cases same
      | some target =>
        cases same
        exact List.mem_append_right _ (List.mem_singleton_self _)
  | ret value =>
    cases value with
    | none => exact .pure fun _ h => ⟨h, fun _ same => by cases same⟩
    | some value => exact (safe.eval own.2).bind fun _ => ends (stays fun _ h => by cases h)
  | yield value => exact .throws fun _ h => ⟨safe.suspends own.1, h⟩
  | yieldBreak => exact .throws fun _ h => ⟨safe.suspends own, h⟩
  | tryCatch id body catches cleanup =>
    cases cleanup with
    | none =>
      refine (runs body own.1).bind fun flow => .given fun leads => ?_
      refine (safe.handle runs own.2 leads).bind fun flow => ?_
      exact .pure fun _ h => h
    | some cleanup =>
      refine (runs body own.1).bind fun flow => .given fun leads => ?_
      refine (safe.handle runs own.2.1 leads).bind fun flow => .given fun leads => ?_
      exact cleanUp runs own.2.2 leads
  | tryFault body fault =>
    refine (runs body own.1).bind fun flow => .given fun leads => ?_
    cases flow with
    | throw value => exact cleanUp runs own.2 leads
    | _ => exact .pure fun _ h => ⟨h, fun l same => List.mem_append_left _ (leads l same)⟩
  | throw value => exact (safe.eval own).bind fun _ => ends (stays fun _ h => by cases h)

theorem tick (safe : Safe v env acts hosts may) : Keeping acts hosts may Exec.tick := by
  intro c h
  cases fuel : c.fuel with
  | zero =>
    rw [Exec.tick_zero fuel]
    refine ⟨fun _ _ hx => ?_, fun _ _ hx => ?_⟩ <;> cases hx
    exact ⟨safe.ordinary _ id, h⟩
  | succ n =>
    rw [Exec.tick_succ fuel]
    refine ⟨fun _ _ hx => ?_, fun _ _ hx => ?_⟩ <;> cases hx
    exact ⟨h, trivial⟩

theorem told (safe : Safe v env acts hosts may) (s : Stmt) :
    Keeping acts hosts may (Exec.onHost (env.watch s)) :=
  .update fun _ h => ⟨⟨h.1, safe.watch s h.2⟩, trivial⟩

/-- An exception is a way to end, which leads nowhere. -/
theorem unwinding {x : Exec σ Flow} {targets : List LabelId}
    (h : Keeping acts hosts may x (Flow.Leads targets)) :
    Keeping acts hosts may x.unwinding (Flow.Leads targets) := by
  intro c hc
  cases hx : x c with
  | ok flow c' =>
    rw [Exec.unwinding_of_ok hx]
    refine ⟨fun _ _ hx' => ?_, fun _ _ hx' => ?_⟩ <;> cases hx'
    exact (h c hc).1 flow c' hx
  | error error c' =>
    obtain ⟨allowed, known⟩ := (h c hc).2 error c' hx
    by_cases thrown : ∃ value, error = .thrown value
    · obtain ⟨value, rfl⟩ := thrown
      rw [Exec.unwinding_of_thrown hx]
      refine ⟨fun _ _ hx' => ?_, fun _ _ hx' => ?_⟩ <;> cases hx'
      exact ⟨known, fun _ same => by cases same⟩
    · rw [Exec.unwinding_of_error hx fun value same => thrown ⟨value, same⟩]
      refine ⟨fun _ _ hx' => ?_, fun _ _ hx' => ?_⟩ <;> cases hx'
      exact ⟨allowed, known⟩

/-- A list of statements keeps what is known, and leads only out to the targets of its jumps. -/
theorem runPoint (safe : Safe v env acts hosts may) (n : Nat) {top : List Stmt}
    (own : Stmt.UsesAll v top) {p : Point} (here : At top p) :
    Keeping acts hosts may (env.run n p) (Flow.Leads (Stmt.escapesAll top)) := by
  induction n generalizing top p with
  | zero =>
    cases due : p.next? with
    | none =>
      rw [Environment.run_done due]
      exact normal
    | some next =>
      rw [Environment.run_zero due]
      exact .throws fun _ h => ⟨safe.ordinary _ id, h⟩
  | succ n ih =>
    cases due : p.next? with
    | none =>
      rw [Environment.run_done due]
      exact normal
    | some next =>
      obtain ⟨s, after⟩ := next
      obtain ⟨list, rest, outer, rfl, at_⟩ := here.next due
      have mem : s ∈ list := at_.suffix.mem List.mem_cons_self
      have uses : s.Uses v := (at_.inherits (fun h hs => h.mem hs) own rfl).mem mem
      have later : At top (⟨list, rest⟩ :: outer) := at_.later (List.suffix_cons s rest)
      have runs : Runs v acts hosts may fun stmts => env.run n (.start stmts) := fun ss own =>
        ih own (.base List.suffix_rfl)
      rw [Environment.run_succ due]
      refine safe.tick.bind fun _ => .given fun _ => ?_
      refine (safe.told s).bind fun _ => .given fun _ => ?_
      have goesOn : Keeping acts hosts may
          ((env.execStmt (fun stmts => env.run n (.start stmts)) s).unwinding >>=
            Environment.follow (env.run n) (⟨list, rest⟩ :: outer))
          (Flow.Leads (Stmt.escapesAll top)) := by
        refine (unwinding (safe.execStmt runs uses)).bind fun flow => .given fun leads => ?_
        cases flow with
        | normal => exact ih own later
        | goto l =>
          cases found : Point.jump? l (⟨list, rest⟩ :: outer) with
          | some target =>
            simp only [Environment.follow, found]
            exact ih own (later.jump found)
          | none =>
            simp only [Environment.follow, found]
            refine .pure fun _ h => ⟨h, fun l' same => ?_⟩
            cases same
            exact later.mem_escapesAll rfl mem (leads l rfl) found
        | _ => exact .pure fun _ h => ⟨h, fun _ same => by cases same⟩
      cases s with
      | block stmts => exact ih own (at_.rooted stmts List.suffix_rfl)
      | _ => exact goesOn

theorem runAll (safe : Safe v env acts hosts may) : Runs v acts hosts may env.runAll :=
  fun _ own c h => safe.runPoint c.fuel own (.base List.suffix_rfl) c h

end Safe

end ManagedCode
