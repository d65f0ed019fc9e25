import ManagedCode.Proofs.Body.Parts
import ManagedCode.Proofs.Run.Calls
import ManagedCode.Proofs.Run.Dialogue
import ManagedCode.Proofs.Run.Steps

namespace ManagedCode

/-! Executions that do the same for no more fuel. -/

variable {σ α β : Type} {n m : Nat}

/-- Wherever at most `n` units of fuel are left, `y` does what `x` does, and never needs more fuel. -/
def Exec.DoneBy (n : Nat) (x y : Exec σ α) : Prop :=
  ∀ a, a.fuel ≤ n → Simulates x a y a (· = ·) fun v a' w b' => v = w ∧ a' = b'

/-- What the simulating side does is said for any fuel that it has. -/
theorem Simulates.withFuel_right {s : Exec σ α} {x : Exec σ β} {a b : Config σ}
    {bad : Config σ → Config σ → Prop} {good : α → Config σ → β → Config σ → Prop} {f : Nat} :
    Simulates s a x (b.withFuel f) bad good ↔ Simulates s a x b bad good :=
  Iff.rfl

namespace Exec.DoneBy

theorem pure (a : α) : DoneBy n (Pure.pure a : Exec σ α) (Pure.pure a) :=
  fun _ _ => .pure ⟨rfl, rfl⟩

theorem fails (error : RunError) : DoneBy n (throw error : Exec σ α) (throw error) :=
  fun _ _ => .fails rfl

theorem outcome (r : Except RunError α) : DoneBy n (ofExcept r : Exec σ α) (ofExcept r) :=
  fun _ _ => .outcome rfl fun _ _ => ⟨rfl, rfl⟩

theorem update {f : Config σ → Config σ} (same : ∀ c, (f c).fuel = c.fuel)
    (blind : ∀ c k, f (c.withFuel k) = (f c).withFuel k) :
    DoneBy n (modify f : Exec σ PUnit) (modify f) :=
  fun a _ => .update (same a) (blind a) ⟨rfl, rfl⟩

theorem bind {x y : Exec σ α} {f g : α → Exec σ β} (first : DoneBy n x y)
    (next : ∀ v, DoneBy n (f v) (g v)) : DoneBy n (x >>= f) (y >>= g) := by
  intro a bound
  refine (first a bound).bind ?_
  rintro v a' _ _ less ⟨rfl, rfl⟩
  exact next v a' (Nat.le_trans less bound)

theorem mono {x y : Exec σ α} (h : DoneBy n x y) (le : m ≤ n) : DoneBy m x y :=
  fun a bound => h a (Nat.le_trans bound le)

theorem unwinding {x y : Exec σ Flow} (h : DoneBy n x y) : DoneBy n x.unwinding y.unwinding :=
  fun a bound => (h a bound).unwinding fun _ _ _ same => ⟨rfl, same⟩

/-- What follows a unit of fuel has less. -/
theorem tick {x y : Exec σ α} (h : ∀ k < n, DoneBy k x y) :
    DoneBy n (Exec.tick >>= fun _ => x) (Exec.tick >>= fun _ => y) := by
  intro a bound
  refine Simulates.tick (k := 0) (Exec.Reaches.tick _ a) fun k hk => ?_
  exact Simulates.withFuel_right.mp (h k (by omega) (a.withFuel k) (Nat.le_refl k))

/-- The other side may go ahead. -/
theorem ahead {x y z : Exec σ α} (reaches : ∀ c, ∃ k, z.Reaches c k y c) (h : DoneBy n x y) :
    DoneBy n x z := by
  intro a bound
  obtain ⟨k, goes⟩ := reaches a
  exact .ahead goes (h a bound)

section

variable {x y : Exec σ α} {c c₁ c₂ : Config σ} {f g : Nat} {r r' : Except RunError α}

/-- Where the one gets through, so does the other with fuel enough. -/
theorem exists_reaches (h : DoneBy f x y) (hx : x (c.withFuel f) = reached r c₁)
    (through : r ≠ .error .stepLimit) : ∃ k, y.Reaches c k (ofExcept r) c₁ := by
  have same := h (c.withFuel f) (Nat.le_refl f)
  cases r with
  | ok v =>
    obtain ⟨-, k, _, _, -, reaches, rfl, rfl⟩ := (Simulates.of_ok hx).mp same
    exact ⟨k, reaches⟩
  | error error =>
    have other : error ≠ .stepLimit := fun limit => through (congrArg _ limit)
    obtain ⟨-, k, _, -, reaches, rfl⟩ := (Simulates.of_error hx other).mp same
    exact ⟨k, reaches⟩

/-- Where both get through, each with some fuel, they end alike. -/
theorem agree (h : ∀ n, DoneBy n x y) (hx : x (c.withFuel f) = reached r c₁)
    (hy : y (c.withFuel g) = reached r' c₂) (through : r ≠ .error .stepLimit)
    (through' : r' ≠ .error .stepLimit) : r = r' ∧ c₁.withFuel 0 = c₂.withFuel 0 := by
  obtain ⟨k, reaches⟩ := (h f).exists_reaches hx through
  by_cases short : g < k
  · obtain ⟨t, ht⟩ := reaches.2 g short
    have stopped : reached r' c₂ = reached (.error .stepLimit) t := hy.symm.trans ht
    exact absurd (reached_inj stopped).1 through'
  · have there := reaches.1 (g - k)
    rw [Nat.add_sub_cancel' (Nat.le_of_not_lt short), hy] at there
    have done : reached r' c₂ = reached r (c₁.withFuel (g - k)) := by
      rw [there]
      cases r <;> rfl
    obtain ⟨rfl, rfl⟩ := reached_inj done
    exact ⟨rfl, rfl⟩

/-- With the fuel that takes the other one through, the one gets through. -/
theorem exists_through (h : DoneBy f x y) (hy : y (c.withFuel f) = reached r c₁)
    (through : r ≠ .error .stepLimit) :
    ∃ r' c₂, x (c.withFuel f) = reached r' c₂ ∧ r' ≠ .error .stepLimit := by
  obtain ⟨r', c₂, hx⟩ := exists_reached (x (c.withFuel f))
  refine ⟨r', c₂, hx, ?_⟩
  rintro rfl
  have same := h (c.withFuel f) (Nat.le_refl f)
  obtain ⟨t, ht⟩ := (Simulates.of_stepLimit hx).mp same f (Nat.le_refl f)
  have stopped : reached r c₁ = reached (.error .stepLimit) t := hy.symm.trans ht
  exact through (reached_inj stopped).1

end

end Exec.DoneBy

/-! Actions on the world. -/

namespace Exec

theorem onWorld_bind (x : EStateM RunError (World σ) α) (f : α → EStateM RunError (World σ) β) :
    onWorld (fun _ => x >>= f) = onWorld (fun _ => x) >>= fun v => onWorld fun _ => f v := by
  funext c
  obtain ⟨r, w, hx⟩ := exists_reached (x c.world)
  have first : onWorld (fun _ => x) c = reached r { c with world := w } := onWorld_eq hx
  cases r with
  | error e =>
    have left : (x >>= f) c.world = reached (.error e) w := bind_of_error hx
    have whole : onWorld (fun _ => x >>= f) c = reached (.error e) { c with world := w } :=
      onWorld_eq left
    rw [bind_of_error first, whole]
    rfl
  | ok v =>
    obtain ⟨r', w', hf⟩ := exists_reached (f v w)
    have left : (x >>= f) c.world = reached r' w' := (bind_of_ok hx).trans hf
    have right : onWorld (fun _ => f v) { c with world := w } = reached r' { c with world := w' } :=
      onWorld_eq hf
    have whole : onWorld (fun _ => x >>= f) c = reached r' { c with world := w' } :=
      onWorld_eq left
    rw [bind_of_ok first, right, whole]

theorem onWorld_outcome (r : Except RunError α) :
    (onWorld fun _ => ofExcept r : Exec σ α) = ofExcept r := by
  cases r <;> rfl

/-- Executes something in an activation of its own. -/
def within (activation : Activation) (x : Exec σ α) : Exec σ α := fun c =>
  match x ⟨activation, c.world⟩ with
  | .ok value c' => .ok value { c with world := c'.world }
  | .error error c' => .error error { c with world := c'.world }

section

variable {x : Exec σ α} {activation : Activation} {c c' : Config σ} {k : Nat}

theorem within_eq {r : Except RunError α} (h : x ⟨activation, c.world⟩ = reached r c') :
    x.within activation c = reached r { c with world := c'.world } := by
  unfold within
  rw [h]
  cases r <;> rfl

theorem Outlasts.within (h : x.Outlasts ⟨activation, c.world⟩ k) :
    (x.within activation).Outlasts c k := by
  intro f room
  obtain ⟨t, ht⟩ := h f room
  exact ⟨_, within_eq (r := .error .stepLimit) (c := c.withFuel f) ht⟩

theorem Ends.within {v : α} (h : x.Ends ⟨activation, c.world⟩ k v c') :
    (x.within activation).Ends c k v { c with world := c'.world } := by
  refine ⟨fun f => within_eq (r := .ok v) (c := c.withFuel (k + f)) (h.1 f), fun f room => ?_⟩
  obtain ⟨t, ht⟩ := h.2 f room
  exact ⟨_, within_eq (r := .error .stepLimit) (c := c.withFuel f) ht⟩

theorem Fails.within {error : RunError} (h : x.Fails ⟨activation, c.world⟩ k error c') :
    (x.within activation).Fails c k error { c with world := c'.world } := by
  refine ⟨fun f => within_eq (r := .error error) (c := c.withFuel (k + f)) (h.1 f), fun f room => ?_⟩
  obtain ⟨t, ht⟩ := h.2 f room
  exact ⟨_, within_eq (r := .error .stepLimit) (c := c.withFuel f) ht⟩

end

theorem DoneBy.within {x y : Exec σ α} (h : DoneBy n x y) (activation : Activation) :
    DoneBy n (x.within activation) (y.within activation) := by
  intro a bound
  have inner := h ⟨activation, a.world⟩ bound
  obtain ⟨r, a', hx⟩ := exists_reached (x ⟨activation, a.world⟩)
  have outer := within_eq hx
  cases r with
  | ok v =>
    rw [Simulates.of_ok hx] at inner
    rw [Simulates.of_ok outer]
    obtain ⟨less, k, _, _, enough, ends, rfl, rfl⟩ := inner
    exact ⟨less, k, v, _, enough, Ends.within ends, rfl, rfl⟩
  | error error =>
    by_cases limit : error = .stepLimit
    · subst limit
      rw [Simulates.of_stepLimit hx] at inner
      rw [Simulates.of_stepLimit outer]
      exact inner.within
    · rw [Simulates.of_error hx limit] at inner
      rw [Simulates.of_error outer limit]
      obtain ⟨less, k, _, enough, fails, rfl⟩ := inner
      exact ⟨less, k, _, enough, Fails.within fails, rfl⟩

/-- It is enough to know what is done in each activation. -/
theorem DoneBy.onWorld {x y : Activation → EStateM RunError (World σ) α}
    (h : ∀ activation, DoneBy n (onWorld fun _ => x activation) (onWorld fun _ => y activation)) :
    DoneBy n (onWorld x) (onWorld y) :=
  fun a bound => h a.activation a bound

/-- What is done to the world alone takes no fuel. -/
theorem DoneBy.of_mirrors {x y : EStateM RunError (World σ) α} (h : ∀ w, Mirrors (· = ·) x w y w) :
    DoneBy n (Exec.onWorld fun _ => x) (Exec.onWorld fun _ => y) :=
  fun a _ => .onWorld (h a.world) (fun _ _ same => by rw [same]) fun _ _ _ same =>
    ⟨rfl, by rw [same]⟩

theorem DoneBy.onHost (action : EStateM RunError σ α) :
    DoneBy n (Exec.onWorld fun _ => World.onHost action) (Exec.onWorld fun _ => World.onHost action) :=
  .of_mirrors fun _ => .onHost action rfl fun _ => rfl

theorem DoneBy.readField (slot : FieldSlot) :
    DoneBy n (Exec.onWorld fun _ => World.readField slot : Exec σ Value)
      (Exec.onWorld fun _ => World.readField slot) :=
  .of_mirrors fun w => ⟨w.field slot, w, w, rfl, rfl, World.readField_eq slot w, fun f =>
    World.readField_eq slot (w.withFuel f)⟩

theorem DoneBy.writeField (slot : FieldSlot) (value : Value) :
    DoneBy n (Exec.onWorld fun _ => World.writeField slot value : Exec σ Unit)
      (Exec.onWorld fun _ => World.writeField slot value) := by
  refine .of_mirrors fun w => ?_
  by_cases room : slot.index < w.fields.length
  · let w' : World σ := { w with fields := w.fields.set slot.index value }
    exact ⟨.ok (), w', w', rfl, rfl, World.writeField_eq value room, fun f =>
      World.writeField_eq (w := w.withFuel f) value room⟩
  · exact ⟨.error _, w, w, rfl, rfl, World.writeField_eq_error value room, fun f =>
      World.writeField_eq_error (w := w.withFuel f) value room⟩

end Exec

/-! Expressions. -/

section

variable {host : Host σ} {activation : Activation}
  {invoke invoke' : SynthMethodId → List Value → EStateM RunError (World σ) Value}

/-- Calls inside the machine that are done alike. -/
def CallsDone (n : Nat)
    (invoke invoke' : SynthMethodId → List Value → EStateM RunError (World σ) Value) : Prop :=
  ∀ method args, Exec.DoneBy n (Exec.onWorld fun _ => invoke method args)
    (Exec.onWorld fun _ => invoke' method args)

/-- One action on the world after another. -/
theorem Exec.DoneBy.andThen {x y : EStateM RunError (World σ) α}
    {f g : α → EStateM RunError (World σ) β}
    (first : DoneBy n (Exec.onWorld fun _ => x) (Exec.onWorld fun _ => y))
    (next : ∀ v, DoneBy n (Exec.onWorld fun _ => f v) (Exec.onWorld fun _ => g v)) :
    DoneBy n (Exec.onWorld fun _ => x >>= f) (Exec.onWorld fun _ => y >>= g) := by
  rw [onWorld_bind, onWorld_bind]
  exact first.bind next

theorem Exec.DoneBy.onWorld_outcome (r : Except RunError α) :
    DoneBy n (Exec.onWorld fun _ => ofExcept r : Exec σ α) (Exec.onWorld fun _ => ofExcept r) := by
  rw [Exec.onWorld_outcome]
  exact .outcome r

mutual

theorem done_eval (calls : CallsDone n invoke invoke') (e : Expr) :
    Exec.DoneBy n (Exec.onWorld fun _ => e.eval host invoke activation)
      (Exec.onWorld fun _ => e.eval host invoke' activation) := by
  cases e with
  | const value => exact .pure _
  | «local» id => exact .onWorld_outcome _
  | param id => exact .onWorld_outcome _
  | machineField slot => exact .readField slot
  | field receiver member =>
    cases receiver with
    | none => exact .onHost _
    | some receiver => exact (done_eval calls receiver).andThen fun _ => .onHost _
  | call callee receiver args =>
    cases callee with
    | method member =>
      cases receiver with
      | none => exact (done_evalAll calls args).andThen fun _ => .onHost _
      | some receiver =>
        exact (done_eval calls receiver).andThen fun _ =>
          (done_evalAll calls args).andThen fun _ => .onHost _
    | synthesized method =>
      cases receiver with
      | none => exact (done_evalAll calls args).andThen fun values => calls method values
      | some receiver =>
        exact (done_eval calls receiver).andThen fun _ =>
          (done_evalAll calls args).andThen fun values => calls method values
  | binary op lhs rhs =>
    exact (done_eval calls lhs).andThen fun _ => (done_eval calls rhs).andThen fun _ =>
      .onWorld_outcome _
  | unary op operand => exact (done_eval calls operand).andThen fun _ => .onWorld_outcome _
  | element | addressOf | newArray | typeToken => exact .fails _

theorem done_evalAll (calls : CallsDone n invoke invoke') (es : List Expr) :
    Exec.DoneBy n (Exec.onWorld fun _ => Expr.evalAll host invoke activation es)
      (Exec.onWorld fun _ => Expr.evalAll host invoke' activation es) := by
  cases es with
  | nil => exact .pure _
  | cons e es =>
    exact (done_eval calls e).andThen fun _ => (done_evalAll calls es).andThen fun _ => .pure _

end

end

/-! Statements. -/

/-- A statement with a function applied to the lists that it is made of. -/
def Catch.mapCode (f : List Stmt → List Stmt) : Catch → Catch
  | .mk ty caught code => .mk ty caught (f code)

def Stmt.mapParts (f : List Stmt → List Stmt) : Stmt → Stmt
  | .block stmts => .block (f stmts)
  | .tryCatch id body catches finally? =>
    .tryCatch id (f body) (catches.map (Catch.mapCode f)) (finally?.map f)
  | .tryFault body fault => .tryFault (f body) (f fault)
  | s => s

theorem Stmt.mapParts_id (s : Stmt) : s.mapParts id = s := by
  have clauses : ∀ catches : List Catch, catches.map (Catch.mapCode id) = catches := fun catches =>
    (List.map_congr_left fun c _ => by cases c; rfl).trans (List.map_id catches)
  cases s with
  | tryCatch tryId body catches finally? =>
    simp only [mapParts, clauses, Option.map_id, id]
  | _ => rfl

theorem Stmt.mapParts_ne_block {f : List Stmt → List Stmt} {s : Stmt}
    (plain : ∀ stmts, s ≠ .block stmts) (stmts : List Stmt) : s.mapParts f ≠ .block stmts := by
  cases s with
  | block stmts => exact absurd rfl (plain stmts)
  | _ => exact nofun

namespace Environment

variable {env : Environment σ} {run run' : List Stmt → Exec σ Flow} {f : List Stmt → List Stmt}

theorem onWorld_callBody (run : List Stmt → Exec σ Flow) (body : Body) (args : List Value) :
    (Exec.onWorld fun _ => callBody run body args) =
      Exec.within { args } (run body.root >>= fun flow => ofExcept flow.result) := by
  funext c
  obtain ⟨r, c', h⟩ := exists_reached (run body.root ⟨{ args }, c.world⟩)
  cases r with
  | error e =>
    have right : (run body.root >>= fun flow => ofExcept flow.result) ⟨{ args }, c.world⟩ =
        reached (.error e) c' := bind_of_error h
    have left : callBody run body args c.world = reached (.error e) c'.world := callBody_of_error h
    rw [Exec.within_eq right]
    exact Exec.onWorld_eq left
  | ok flow =>
    have right : (run body.root >>= fun flow => ofExcept flow.result) ⟨{ args }, c.world⟩ =
        reached flow.result c' := by
      rw [bind_of_ok h]
      cases flow.result <;> rfl
    have left : callBody run body args c.world = reached flow.result c'.world := callBody_of_ok h
    rw [Exec.within_eq right]
    exact Exec.onWorld_eq left

/-- Bodies are executed alike if their statements are. -/
theorem done_callBody {body body' : Body} (h : Exec.DoneBy n (run body.root) (run' body'.root))
    (args : List Value) :
    Exec.DoneBy n (Exec.onWorld fun _ => callBody run body args)
      (Exec.onWorld fun _ => callBody run' body' args) := by
  rw [onWorld_callBody, onWorld_callBody]
  exact .within (h.bind fun _ => .outcome _) _

section

variable (methods : ∀ method ∈ env.methods, Exec.DoneBy n (run method.body.root)
  (run' method.body.root))
include methods

theorem done_invoke : CallsDone n (env.invoke run) (env.invoke run') := by
  intro method args
  unfold invoke
  cases found : env.methods[method.index]? with
  | none => exact .fails _
  | some target => exact done_callBody (methods target (List.mem_of_getElem? found)) args

theorem done_evalExpr (e : Expr) : Exec.DoneBy n (env.eval run e) (env.eval run' e) :=
  .onWorld fun _ => done_eval (done_invoke methods) e

theorem done_write (value : Value) (place : Place) :
    Exec.DoneBy n (env.write run value place) (env.write run' value place) := by
  cases place with
  | «local» id => exact .update (fun _ => rfl) fun _ _ => rfl
  | param id =>
    intro a bound
    have stored : ∀ r, Exec.DoneBy n
        (ofExcept r >>= fun activation => (modify ({ · with activation }) : Exec σ PUnit))
        (ofExcept r >>= fun activation => modify ({ · with activation })) := fun r =>
      (Exec.DoneBy.outcome r).bind fun _ => .update (fun _ => rfl) fun _ _ => rfl
    exact stored (a.activation.writeParam id value) a bound
  | machineField slot => exact .writeField slot value
  | field receiver member =>
    cases receiver with
    | none => exact .onHost _
    | some receiver => exact (done_evalExpr methods receiver).bind fun _ => .onHost _
  | element => exact .fails _

theorem done_evalBool (e : Expr) : Exec.DoneBy n (env.evalBool run e) (env.evalBool run' e) := by
  refine (done_evalExpr methods e).bind fun value => ?_
  cases value with
  | bool b => exact .pure b
  | _ => exact .fails _

theorem done_evalInt (e : Expr) : Exec.DoneBy n (env.evalInt run e) (env.evalInt run' e) := by
  refine (done_evalExpr methods e).bind fun value => ?_
  cases value with
  | int i => exact .pure i
  | _ => exact .fails _

end

theorem done_handle {catches : List Catch}
    (codes : ∀ c ∈ catches, Exec.DoneBy n (run (f c.code)) (run' c.code)) (flow : Flow) :
    Exec.DoneBy n (handle run (catches.map (Catch.mapCode f)) flow) (handle run' catches flow) := by
  cases flow with
  | throw value =>
    cases catches with
    | nil => exact .pure _
    | cons clause rest =>
      have code := codes clause List.mem_cons_self
      obtain ⟨_, caught, body⟩ := clause
      cases caught with
      | none => exact code
      | some id =>
        have stored : Exec.DoneBy n (Exec.setLocal id value : Exec σ Unit)
            (Exec.setLocal id value) := .update (fun _ => rfl) fun _ _ => rfl
        exact stored.bind fun _ => code
  | _ => exact .pure _

theorem done_cleanUp {cleanup cleanup' : List Stmt}
    (h : Exec.DoneBy n (run cleanup) (run' cleanup')) (flow : Flow) :
    Exec.DoneBy n (cleanUp run cleanup flow) (cleanUp run' cleanup' flow) := by
  refine h.bind fun ended => ?_
  cases ended <;> exact .pure _

/-- A statement is done alike if the lists that it is made of are, whatever they are mapped to. -/
theorem done_execStmt
    (methods : ∀ method ∈ env.methods, Exec.DoneBy n (run method.body.root)
      (run' method.body.root)) {s : Stmt}
    (parts : ∀ region ss, s.Part region ss → Exec.DoneBy n (run (f ss)) (run' ss)) :
    Exec.DoneBy n (env.execStmt run (s.mapParts f)) (env.execStmt run' s) := by
  cases s with
  | block stmts => exact parts _ _ .block
  | expr value => exact (done_evalExpr methods value).bind fun _ => .pure _
  | assign place value =>
    exact (done_evalExpr methods value).bind fun v =>
      (done_write methods v place).bind fun _ => .pure _
  | label | nop | goto => exact .pure _
  | condGoto cond jumpIf target => exact (done_evalBool methods cond).bind fun _ => .pure _
  | switch scrutinee cases default? =>
    exact (done_evalInt methods scrutinee).bind fun _ => .pure _
  | ret value =>
    cases value with
    | none => exact .pure _
    | some value => exact (done_evalExpr methods value).bind fun _ => .pure _
  | yield | yieldBreak => exact .fails _
  | tryCatch id body catches finally? =>
    have codes : ∀ c ∈ catches, Exec.DoneBy n (run (f c.code)) (run' c.code) :=
      fun _ among => parts _ _ (.catch_ among)
    refine (parts _ _ .body).bind fun flow => (done_handle codes flow).bind fun flow => ?_
    cases finally? with
    | none => exact .pure _
    | some cleanup => exact done_cleanUp (parts _ _ .finally_) flow
  | tryFault body fault =>
    refine (parts _ _ .faultBody).bind fun flow => ?_
    cases flow with
    | throw value => exact done_cleanUp (parts _ _ .fault) _
    | _ => exact .pure _
  | throw value => exact (done_evalExpr methods value).bind fun _ => .pure _

/-! Lists of statements. -/

theorem done_follow {go go' : Point → Exec σ Flow} {after after' : Point}
    (later : Exec.DoneBy n (go after) (go' after'))
    (jumps : ∀ l, (Point.jump? l after = none ∧ Point.jump? l after' = none) ∨
      ∃ p p', Point.jump? l after = some p ∧ Point.jump? l after' = some p' ∧
        Exec.DoneBy n (go p) (go' p')) (flow : Flow) :
    Exec.DoneBy n (follow go after flow) (follow go' after' flow) := by
  cases flow with
  | normal => exact later
  | goto label =>
    rcases jumps label with ⟨nowhere, nowhere'⟩ | ⟨p, p', found, found', there⟩
    · simp only [follow, nowhere, nowhere']
      exact .pure _
    · simp only [follow, found, found']
      exact there
  | _ => exact .pure _

/-- With more fuel, the same is done. -/
theorem done_runs (n : Nat) (p : Point) : Exec.DoneBy n (env.runs p) (env.runs p) := by
  induction n using Nat.strongRecOn generalizing p with
  | ind n ih =>
  cases hp : p.next? with
  | none =>
    rw [runs_done hp]
    exact .pure _
  | some due =>
    obtain ⟨s, after⟩ := due
    rw [runs_eq hp]
    refine .tick fun k less => Exec.DoneBy.bind (.update (fun _ => rfl) fun _ _ => rfl) fun _ => ?_
    have goes : ∀ q, Exec.DoneBy k (env.runs q) (env.runs q) := ih k less
    have step : Exec.DoneBy k (Exec.unwinding (env.execStmt env.runAll s) >>= follow env.runs after)
        (Exec.unwinding (env.execStmt env.runAll s) >>= follow env.runs after) := by
      have exec : Exec.DoneBy k (env.execStmt env.runAll (s.mapParts id))
          (env.execStmt env.runAll s) := done_execStmt (fun _ _ => goes _) fun _ _ _ => goes _
      rw [Stmt.mapParts_id] at exec
      refine exec.unwinding.bind fun flow => done_follow (goes after) (fun l => ?_) flow
      cases Point.jump? l after with
      | none => exact .inl ⟨rfl, rfl⟩
      | some q => exact .inr ⟨q, q, rfl, rfl, goes q⟩
    cases s with
    | block stmts => exact goes _
    | _ => exact step

end Environment

end ManagedCode
