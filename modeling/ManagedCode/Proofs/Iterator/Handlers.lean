import ManagedCode.Proofs.Iterator.NativeRun
import ManagedCode.Proofs.Run.Calls

namespace ManagedCode

variable {σ : Type}

/-- The content of the state field in a state. -/
def stateValue (state : Int) : Value := .int (Int64.ofInt state)

/-- A world in which the machine was put into a state. -/
def inState (state : Int) (w : World σ) : World σ :=
  { w with fields := w.fields.set 0 (stateValue state) }

theorem Alike.setState {state current : Option Value} {u w : World σ} (h : Alike state current u w)
    (after : Int) : Alike (some (stateValue after)) current u (inState after w) where
  host := h.host
  length := by
    rw [h.length]
    exact (List.length_set ..).symm
  wide := by
    refine Nat.le_trans h.wide (Nat.le_of_eq ?_)
    exact (List.length_set ..).symm
  same i hi := by
    rw [h.same i hi]
    exact (List.getElem?_set_ne (by omega)).symm
  state := by
    have wide := h.wide
    exact List.getElem?_set_self (by omega)
  current := by
    rw [← h.current]
    exact List.getElem?_set_ne (by omega)

namespace Lowering

variable {plan : Plan} {observer : Observer σ} {E M : Environment σ}

def handlerCall (g : Nat) : Stmt := .expr (.callSynthesized (handlerMethod g))

/-- What is left of two executions that have failed. -/
def SameHost (a b : Config σ) : Prop := a.world.host = b.world.host

/-- The environments of a body and of its machine, which has the handlers of its plan; what the
host is told about try statements on the one side, it is told about frames on the other. -/
structure Equipped (plan : Plan) (observer : Observer σ) (E M : Environment σ) : Prop where
  hosted : Hosted E M
  handlers : ∀ g code, plan.handlers[g]? = some code →
    ∃ m, M.methods[(handlerMethod g).index]? = some m ∧ m.body.root = code
  entered : ∀ s g id, s.entered? = some g → plan.tries[g]? = some id →
    M.watch s = observer.entered id
  leaving : ∀ g id, plan.tries[g]? = some id → M.watch (handlerCall g) = observer.leaving id

/-- Calls the handler of a frame as a statement. -/
def callHandler (M : Environment σ) (g : Nat) : Exec σ Flow := do
  Exec.onHost (M.watch (handlerCall g))
  Exec.unwinding (M.execStmt M.runAll (handlerCall g))

/-- What is left when a try statement was left with `flow`: that flow, for which the machine goes
on, or an exception. -/
def Unwound (flow flow' ended : Flow) : Prop :=
  flow' = flow ∧ ended = .normal ∨ ∃ value, flow' = .throw value ∧ ended = .throw value

/-- How a try statement is left with `flow` where the machine calls a handler that puts it into the
state `after`. -/
structure Left (after : Int) (current : Option Value) (flow : Flow) (b : Config σ) (flow' : Flow)
    (a' : Config σ) (ended : Flow) (b' : Config σ) : Prop where
  flows : Unwound flow flow' ended
  alike : Alike (some (stateValue after)) current a'.world b'.world
  kept : b'.activation = b.activation

/-- The handler of frame `g` does what leaving `try_` does, and puts the machine into `after`. -/
def Guards (observer : Observer σ) (E M : Environment σ) (try_ : OpenTry) (g : Nat) (after : Int) :
    Prop :=
  ∀ {state current : Option Value} {a b : Config σ} (flow : Flow), Alike state current a.world b.world →
    Simulates (Coroutine.leaveTry E observer try_ flow) a (callHandler M g) b SameHost
      (Left after current flow b)

theorem ends_setState (E : Environment σ) (state : Int) {c : Config σ}
    (room : 0 < c.world.fields.length) :
    (E.execStmt E.runAll (setState state)).Ends c 0 .normal
      { c with world := inState state c.world } := by
  refine .of_eq fun f => ?_
  have write : World.writeField stateField (stateValue state) (c.withFuel f).world =
      reached (.ok ()) (inState state (c.withFuel f).world) :=
    World.writeField_eq (stateValue state) room
  have done : Exec.onWorld (fun _ => World.writeField stateField (stateValue state)) (c.withFuel f) =
      reached (.ok ()) { c.withFuel f with world := inState state (c.withFuel f).world } :=
    Exec.onWorld_eq write
  exact bind_of_ok done

/-- The host is told the same on both sides. -/
theorem Simulates.told {α β : Type} {s : Exec σ α} {x : Exec σ β} {a b : Config σ} {f g : σ → σ}
    {bad : Config σ → Config σ → Prop} {good : α → Config σ → β → Config σ → Prop} (same : f = g)
    (h : Simulates s { a with world := { a.world with host := f a.world.host } } x
      { b with world := { b.world with host := f b.world.host } } bad good) :
    Simulates (Exec.onHost f >>= fun _ => s) a (Exec.onHost g >>= fun _ => x) b bad good := by
  subst same
  have first : Simulates (Exec.onHost f : Exec σ Unit) a (Exec.onHost f) b bad
      (fun _ a' _ b' => a' = { a with world := { a.world with host := f a.world.host } } ∧
        b' = { b with world := { b.world with host := f b.world.host } }) :=
    .update rfl (fun _ => rfl) ⟨rfl, rfl⟩
  refine first.bind fun _ a' _ b' _ same => ?_
  obtain ⟨rfl, rfl⟩ := same
  exact h

theorem leaveTry_eq {try_ : OpenTry} {cleanup : List Stmt} (plain : try_.catches = [])
    (last : try_.finally? = some cleanup) (flow : Flow) :
    Coroutine.leaveTry E observer try_ flow =
      Exec.onHost (observer.leaving try_.id) >>= fun _ =>
        Environment.cleanUp E.runAll cleanup flow := by
  have unhandled : Environment.handle E.runAll [] flow = pure flow := by cases flow <;> rfl
  unfold Coroutine.leaveTry
  rw [plain, last, unhandled]
  rfl

theorem surrounds_handler (hosted : Hosted E M) (state : Int) :
    Surrounds M [setState state] [.ret none] (.ret .unit) where
  before := rfl
  after := rfl
  ends L b := by
    have still : ∀ host, M.watch (.ret none) host = host := hosted.quiet _ ⟨rfl, rfl⟩
    have step : (M.runs [⟨L, [.ret none]⟩]).Reaches b (1 + 0)
        (Environment.follow M.runs [⟨L, []⟩] (.ret .unit)) b :=
      runs_reaches (s := .ret none) rfl nofun still (.refl _ b)
    exact ⟨1, step⟩

/-- The code of a handler leaves the frame and runs as the finally clause does. -/
theorem runs_handler (hosted : Hosted E M) {outer : Site} (fresh : Fresh plan outer)
    {cleanup clause : List Stmt} (hw : WrittenAll plan outer.cleaning cleanup clause)
    {state current : Option Value} {a b : Config σ} (alike : Alike state current a.world b.world) :
    Simulates (E.runAll cleanup) a
      (M.runAll (setState outer.state :: clause ++ [.ret none])) b
      (fun a' b' => Alike (some (stateValue outer.state)) current a'.world b'.world)
      (Ended plan outer.cleaning (.ret .unit) (Stmt.escapesAll cleanup) False
        (some (stateValue outer.state)) current) := by
  let code := setState outer.state :: clause ++ [.ret none]
  let b' : Config σ := { b with world := inState outer.state b.world }
  have wide := alike.wide
  have still : ∀ host, M.watch (setState outer.state) host = host := hosted.quiet _ ⟨rfl, rfl⟩
  have first : (M.runAll code).Reaches b (1 + 0)
      (Environment.follow M.runs [⟨code, clause ++ [.ret none]⟩] .normal) b' :=
    runs_reaches (s := setState outer.state) rfl nofun still
      (ends_setState M outer.state (by omega))
  have start : Aligned plan outer.cleaning [] [setState outer.state] [.ret none] cleanup code
      [⟨cleanup, cleanup⟩] [⟨code, clause ++ [.ret none]⟩] := .base (writtenAll_nil ..) hw rfl rfl rfl
  have near : Near outer.cleaning.result False (some (stateValue outer.state)) current a b' :=
    ⟨alike.setState outer.state, False.elim⟩
  refine .ahead first ?_
  refine (runsWell hosted a.fuel outer.cleaning rfl ⟨fresh.exit, fresh.proxies⟩ (Nat.le_refl _) start
    (surrounds_handler hosted outer.state) near).mono ?_ fun _ _ _ _ h => h
  exact fun _ _ near => near.alike

/-- The handler of a frame, as its try statement was written, does what leaving that does. -/
theorem guards (equipped : Equipped plan observer E M) {outer : Site} (fresh : Fresh plan outer)
    {g : Nat} {cleanup clause : List Stmt} {try_ : OpenTry} (plain : try_.catches = [])
    (last : try_.finally? = some cleanup) (number : plan.tries[g]? = some try_.id)
    (handler : plan.handlers[g]? = some (setState outer.state :: clause ++ [.ret none]))
    (hw : WrittenAll plan outer.cleaning cleanup clause) (closed : Stmt.escapesAll cleanup = []) :
    Guards observer E M try_ g outer.state := by
  intro state current a b flow alike
  rw [leaveTry_eq plain last]
  refine Simulates.told (equipped.leaving g _ number).symm ?_
  obtain ⟨target, found, root⟩ := equipped.handlers g _ handler
  let tell : Config σ → Config σ := fun c =>
    { c with world := { c.world with host := observer.leaving try_.id c.world.host } }
  have told : Alike state current (tell a).world (tell b).world := by
    have same := alike.onHost (observer.leaving try_.id a.world.host)
    unfold tell
    rwa [← alike.host]
  have inner := runs_handler equipped.hosted fresh hw (b := ⟨{ args := [] }, (tell b).world⟩) told
  rw [← root] at inner
  have call : Simulates (E.runAll cleanup) (tell a)
      (M.execStmt M.runAll (handlerCall g)).unwinding (tell b) SameHost
      (fun flow a' flow' b' =>
        (flow = .normal ∧ flow' = .normal ∨ ∃ value, flow = .throw value ∧ flow' = .throw value) ∧
          Alike (some (stateValue outer.state)) current a'.world b'.world ∧
          b'.activation = b.activation) := by
    refine Simulates.call found (Environment.contained_runAll cleanup (tell a)) inner
      (fun _ _ alike => alike.host) ?_
    intro flow a' flow' c ended
    obtain ⟨near, follows, jumps⟩ := ended
    cases follows with
    | normal => exact ⟨.normal, .ret _, .inl ⟨rfl, rfl⟩, near.alike, rfl⟩
    | goto =>
      have escapes := jumps _ rfl
      rw [closed] at escapes
      cases escapes
    | ret _ some => cases some
    | throw value => exact ⟨.throw value, .throw value, .inr ⟨value, rfl, rfl⟩, near.alike, rfl⟩
  refine call.conclude ?_
  rintro ended a' ended' b' ⟨⟨rfl, rfl⟩ | ⟨value, rfl, rfl⟩, alike', kept⟩
  · exact ⟨flow, rfl, .inl ⟨rfl, rfl⟩, alike', kept⟩
  · exact ⟨.throw value, rfl, .inr ⟨value, rfl, rfl⟩, alike', kept⟩

end Lowering

end ManagedCode
