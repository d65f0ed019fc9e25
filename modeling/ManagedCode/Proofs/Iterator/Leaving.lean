import ManagedCode.Proofs.Iterator.Nesting

namespace ManagedCode

theorem Simulates.congr_left {σ α β : Type} {s s' : Exec σ α} {a b : Config σ} {x : Exec σ β}
    {bad : Config σ → Config σ → Prop} {good : α → Config σ → β → Config σ → Prop}
    (same : s a = s' a) (h : Simulates s' a x b bad good) : Simulates s a x b bad good := by
  unfold Simulates
  rw [same]
  exact h

/-- A flow that leads out of every list. -/
def Flow.Exits : Flow → Prop
  | .ret _ | .throw _ => True
  | .normal | .goto _ => False

namespace Lowering

variable {σ : Type} {iterator : IteratorMethod} {machine : StateMachine}
  {assembly : Assembly iterator machine} {observer : Observer σ} {E M : Environment σ}
  {current : Option Value} {a b : Config σ}

/-! The dispose method. -/

def disposeCall : Stmt := .expr (.callSynthesized disposeMethod)

theorem ends_readState (M : Environment σ) (id : LocalId) {value : Value} {c : Config σ}
    (h : c.world.fields[0]? = some value) :
    (M.execStmt M.runAll (.assign (.local id) (.machineField stateField))).Ends c 0 .normal
      { c with activation := c.activation.writeLocal id value } := by
  refine .of_eq fun f => ?_
  have field : World.readField stateField (c.withFuel f).world =
      reached (.ok value) (c.withFuel f).world := by
    rw [World.readField_eq]
    unfold World.field
    rw [show (c.withFuel f).world.fields[stateField.index]? = some value from h]
    rfl
  have read : M.eval M.runAll (.machineField stateField) (c.withFuel f) =
      reached (.ok value) { c.withFuel f with world := (c.withFuel f).world } :=
    Exec.onWorld_eq field
  exact bind_of_ok read

/-- How a dispose method ends where try statements were left with `flow`. -/
inductive Disposed (current : Option Value) (flow : Flow) :
    Flow → Config σ → Flow → Config σ → Prop
  | through {a b : Config σ}
    (alike : Alike (some (stateValue finishedState)) current a.world b.world) :
    Disposed current flow flow a (.ret .unit) b
  | throw {a b : Config σ} (value : Value)
    (alike : Alike (some (stateValue runningState)) current a.world b.world) :
    Disposed current flow (.throw value) a (.throw value) b

/-- In a state that lies under a path, the dispose method leaves the try statements of that path. -/
theorem runs_dispose (setting : assembly.Setting observer E M) {s : Int} (fits : Fits s)
    {path : List Nat} (covers : assembly.plan.frames.Covers s path) {opened : List OpenTry}
    (tower : Tower observer E M opened path) (same : opened.length = path.length)
    (alike : Alike (some (stateValue s)) current a.world b.world) (flow : Flow) :
    Simulates (Coroutine.unwind E observer opened flow) a
      (M.runAll (disposeRoot assembly.dispatch)) b SameHost (Disposed current flow) := by
  have hosted := setting.hosted
  let post : List Stmt := [setState finishedState, .ret none]
  let whole := disposeRoot assembly.dispatch
  let b' : Config σ := { b with activation := b.activation.writeLocal ⟨0⟩ (stateValue s) }
  have read : (M.runAll whole).Reaches b (1 + 0)
      (M.runs [⟨whole, assembly.dispatch ++ post⟩]) b' :=
    runs_reaches (s := .assign (.local ⟨0⟩) (.machineField stateField)) rfl nofun
      (hosted.quiet _ ⟨rfl, rfl⟩) (ends_readState M ⟨0⟩ alike.state)
  have distinct : (Stmt.plainLabelsAll whole).Nodup := by
    have labels : Stmt.plainLabelsAll whole = Stmt.plainLabelsAll assembly.dispatch := by
      change Stmt.plainLabelsAll (assembly.dispatch ++ post) = _
      rw [Stmt.plainLabelsAll_append]
      exact List.append_nil _
    rw [labels]
    exact assembly.dueIn.nodup
  have tower' : Tower observer E M (opened ++ []) (path.reverse.reverse ++ []) := by
    simpa using tower
  refine .ahead read ?_
  rw [← bind_pure (Coroutine.unwind E observer opened flow)]
  refine dispatch hosted assembly.dueIn fits covers tower' (by simpa using same) (b := b') alike
    (Activation.lookup_writeLocal_self _ _ _)
    ⟨[.assign (.local ⟨0⟩) (.machineField stateField)], rfl⟩ distinct ?_ ?_
  · intro flow' a' b'' dispatched
    have flows : flow' = flow := by
      rcases dispatched.flows with ⟨same, -⟩ | ⟨value, -, ended⟩
      · exact same
      · cases ended
    subst flows
    let c : Config σ := { b'' with world := inState finishedState b''.world }
    have wide := dispatched.alike.wide
    have finish : (M.runs [⟨whole, post⟩]).Reaches b'' (1 + 0) (M.runs [⟨whole, [.ret none]⟩]) c :=
      runs_reaches (s := setState finishedState) rfl nofun (hosted.quiet _ ⟨rfl, rfl⟩)
        (ends_setState M finishedState (by omega))
    have leave : (M.runs [⟨whole, [.ret none]⟩]).Reaches c (1 + 0) (pure (.ret .unit)) c :=
      runs_reaches (s := .ret none) rfl nofun (hosted.quiet _ ⟨rfl, rfl⟩) (.refl _ c)
    exact .ahead (finish.trans leave) (.pure (.through (dispatched.alike.setState finishedState)))
  · intro value a' b'' dispatched
    have outside : b''.world.fields[0]? = some (stateValue runningState) := by
      rcases dispatched.outside with ended | outside
      · cases ended
      · exact outside
    have alike' := dispatched.alike
    rw [outside] at alike'
    exact .pure (.throw value alike')

/-- Where handlers guard the open try statements, a return or an exception leads out of all of
them. -/
theorem leave_exits {go : Point → List OpenTry → Exec σ Outcome} {opened : List OpenTry}
    {path : List Nat} (tower : Tower observer E M opened path) {state : Option Value}
    (alike : Alike state current a.world b.world) {flow : Flow} (exits : flow.Exits) :
    Coroutine.leave E observer go opened flow a =
      (Coroutine.unwind E observer opened flow >>= fun flow => pure (.ended flow)) a := by
  induction tower generalizing state a b flow with
  | nil => rfl
  | cons guards below ih =>
    rename_i try_ g opened path
    have step : Coroutine.leave E observer go (try_ :: opened) flow =
        Coroutine.leaveTry E observer try_ flow >>=
          Coroutine.land go (Coroutine.leave E observer go opened) try_.after opened := rfl
    have step' : (Coroutine.unwind E observer (try_ :: opened) flow >>= fun flow =>
        (pure (.ended flow) : Exec σ Outcome)) =
        Coroutine.leaveTry E observer try_ flow >>= fun flow =>
          Coroutine.unwind E observer opened flow >>= fun flow => pure (.ended flow) := by
      exact bind_assoc _ _ _
    rw [step, step']
    have left := guards flow alike
    cases hs : Coroutine.leaveTry E observer try_ flow a with
    | error error a' => rw [bind_of_error hs, bind_of_error hs]
    | ok flow' a' =>
      rw [bind_of_ok hs, bind_of_ok hs]
      rw [Simulates.of_ok hs] at left
      obtain ⟨-, -, ended, b', -, -, left⟩ := left
      have exits' : flow'.Exits := by
        rcases left.flows with ⟨rfl, -⟩ | ⟨value, rfl, -⟩
        · exact exits
        · trivial
      have further : Coroutine.land go (Coroutine.leave E observer go opened) try_.after opened flow' =
          Coroutine.leave E observer go opened flow' := by
        cases flow' with
        | normal | goto => exact exits'.elim
        | ret | throw => rfl
      rw [further]
      exact ih left.alike exits'

/-! How a step ends. -/

/-- A point inside open try statements, just after yield number `k + 1` of a body. -/
structure AfterYield (body : Body) (k : Nat) (point : Point) (opened : List OpenTry) : Prop where
  site : ∃ value list rest outer, point = ⟨list, rest⟩ :: outer ∧
    .yield (value.hoist body.params.length) :: rest <:+ list ∧
    (Stmt.yieldSitesAll [] body.root)[k]? = some (value, opened.map (·.id))
  number : k + 1 + Coroutine.yieldsAfter point opened = Stmt.yieldCount body.root

theorem Assembly.Nests.afterYield (nests : assembly.Nests level) {value : Expr}
    {list rest : List Stmt} {outer : Point} (here : .yield value :: rest <:+ list) {k : Nat}
    {around : List TryId} (site : assembly.plan.yields[k]? = some (value, around))
    (frames : level.site.path.map (assembly.plan.tries[·]?) = around.map some)
    (number : k + 1 + (level.site.followed (Point.yieldCount (⟨list, rest⟩ :: outer))).left =
      assembly.plan.yields.length) :
    AfterYield iterator.body k (⟨list, rest⟩ :: outer) level.opened := by
  have sites : assembly.plan.yields = (Stmt.yieldSitesAll [] iterator.body.root).map
      fun site => (site.1.hoist iterator.body.params.length, site.2) :=
    Stmt.yieldSitesAll_hoistAll _ _
  have same : around = level.opened.map (·.id) :=
    (List.map_inj_right fun _ _ => Option.some.inj).mp (frames.symm.trans nests.tries)
  rw [sites, List.getElem?_map] at site
  obtain ⟨⟨source, ids⟩, found, pair⟩ := Option.map_eq_some_iff.mp site
  cases pair
  refine ⟨⟨source, list, rest, outer, rfl, here, same ▸ found⟩, ?_⟩
  rw [sites, List.length_map] at number
  rw [← nests.left]
  exact number

/-- Where the machine waits after yield number `k + 1`: at the label of the state, from where it goes
on like the body from `point`. -/
structure Assembly.Resting (assembly : Assembly iterator machine) (level : Level) (k : Nat)
    (point : Point) : Prop where
  nests : assembly.Nests level
  covers : assembly.plan.frames.Covers (k + 1 : Nat) level.site.path
  goesOn : ∃ t t' outer value resume, level.Aligns assembly.plan point (⟨t, t'⟩ :: outer) ∧
    .assign (.machineField currentField) value :: setState (k + 1 : Nat) ::
      .ret (some (.bool true)) :: .label resume :: setState level.site.state :: t' <:+ t ∧
    assembly.plan.resumeLabels[k + 1]? = some resume
  after : AfterYield iterator.body k point level.opened

/-- How a step of the machine ends where the body was run up to its next yield. -/
inductive Assembly.Stopped (assembly : Assembly iterator machine) (current : Option Value) :
    Outcome → Config σ → Flow → Config σ → Prop
  | paused {a b : Config σ} {value : Value} {point : Point} {level : Level} {k : Nat}
    (resting : assembly.Resting level k point)
    (alike : Alike (some (stateValue (k + 1 : Nat))) (some value) a.world b.world) :
    Stopped assembly current (.paused value point level.opened) a (.ret (.bool true)) b
  | finished {a b : Config σ} {flow : Flow} (ended : flow = .normal ∨ flow = .ret .unit)
    (alike : Alike (some (stateValue finishedState)) current a.world b.world) :
    Stopped assembly current (.ended flow) a (.ret (.bool false)) b
  | threw {a b : Config σ} (value : Value) {state : Int}
    (dead : state = finishedState ∨ state = runningState)
    (alike : Alike (some (stateValue state)) current a.world b.world) :
    Stopped assembly current (.ended (.throw value)) a (.throw value) b
  | lost {a b : Config σ} {l : LabelId} (escapes : l ∈ Stmt.escapesAll assembly.hoisted)
    (same : SameHost a b) : Stopped assembly current (.ended (.goto l)) a (.goto l) b

/-- Ends a step method whose statements ended with a flow. -/
def finish (M : Environment σ) (hasFrames : Bool) : Flow → Exec σ Flow
  | .throw value =>
    if hasFrames then Environment.cleanUp M.runAll [disposeCall] (.throw value)
    else pure (.throw value)
  | flow => pure flow

theorem reaches_stepRoot (hosted : Hosted E M) (hasFrames : Bool) (stmts : List Stmt)
    (c : Config σ) : ∃ k, (M.runAll (stepRoot hasFrames stmts)).Reaches c k
      (M.runAll stmts >>= finish M hasFrames) c := by
  cases hasFrames with
  | false =>
    have same : M.runAll stmts >>= finish M false = M.runAll stmts := by
      have last : finish M false = (pure : Flow → Exec σ Flow) := by
        funext flow
        cases flow <;> rfl
      rw [last, bind_pure]
    rw [same]
    exact ⟨0, .refl _ c⟩
  | true =>
    let guard : Stmt := .tryFault stmts [disposeCall]
    have exec : M.execStmt M.runAll guard = M.runAll stmts >>= finish M true := by
      refine congrArg (M.runAll stmts >>= ·) (funext fun flow => ?_)
      cases flow <;> rfl
    have contained : (M.execStmt M.runAll guard).unwinding = M.runAll stmts >>= finish M true := by
      rw [exec]
      refine Exec.unwinding_of_contained (.bind (Environment.contained_runAll stmts) fun flow => ?_)
      cases flow with
      | throw thrown => exact Environment.contained_cleanUp [disposeCall] (.throw thrown)
      | _ => exact .pure _
    have last : ∀ flow, Environment.follow M.runs [⟨[guard], []⟩] flow = pure flow := by
      intro flow
      cases flow with
      | normal => exact Environment.runs_done rfl
      | _ => rfl
    have step : M.runAll [guard] = Exec.tick >>= fun _ => M.runAll stmts >>= finish M true := by
      unfold Environment.runAll
      rw [Environment.runs_eq rfl]
      refine congrArg (Exec.tick >>= ·) (funext fun _ => ?_)
      rw [Environment.advance_eq (hosted.quiet guard ⟨rfl, rfl⟩) nofun, funext last, bind_pure]
      exact contained
    change ∃ k, (M.runAll [guard]).Reaches c k (M.runAll stmts >>= finish M true) c
    rw [step]
    exact ⟨1, .tick _ c⟩

/-- An exception in a level leads out of the body, through the handlers that are due. -/
theorem finish_throw (setting : assembly.Setting observer E M) {level : Level}
    (nests : assembly.Nests level) {go : Point → List OpenTry → Exec σ Outcome}
    (alike : Alike (some (stateValue level.site.state)) current a.world b.world) (value : Value) :
    Simulates (Coroutine.leave E observer go level.opened (.throw value)) a
      (finish M assembly.facts.hasFrames (.throw value)) b SameHost (assembly.Stopped current) := by
  cases framed : assembly.facts.hasFrames with
  | false =>
    have nothing := nests.opened_eq_nil framed
    have outside : level.site.path = [] := by
      have length := nests.length_opened
      rw [nothing] at length
      exact List.length_eq_zero_iff.mp length.symm
    have state : level.site.state = runningState := by
      unfold Site.state
      rw [outside]
      rfl
    rw [nothing]
    rw [state] at alike
    exact .pure (.threw value (.inr rfl) alike)
  | true =>
    obtain ⟨covers, fits⟩ := nests.covers
    obtain ⟨m, found, -, root⟩ := assembly.dispose
    rw [← setting.methods] at found
    refine .congr_left (leave_exits (nests.tower setting) alike trivial) ?_
    have body := runs_dispose setting fits covers (nests.tower setting) nests.length_opened
      (b := ⟨{ args := [] }, b.world⟩) alike (.throw value)
    rw [← root] at body
    -- Each of the two ends as the dispose method does.
    let both : Flow → Config σ → Flow → Config σ → Prop := fun flow a' ended b' =>
      ∃ state, (state = finishedState ∨ state = runningState) ∧
        Alike (some (stateValue state)) current a'.world b'.world ∧
        Unwound (.throw value) flow ended
    have call : Simulates (Coroutine.unwind E observer level.opened (.throw value)) a
        (M.execStmt M.runAll disposeCall).unwinding b SameHost both := by
      refine Simulates.call found (Coroutine.contained_unwind _ _ a) body (fun _ _ same => same) ?_
      intro flow a' ended c disposed
      cases disposed with
      | through alike' =>
        exact ⟨.normal, .ret _, finishedState, .inl rfl, alike', .inl ⟨rfl, rfl⟩⟩
      | throw thrown alike' =>
        exact ⟨.throw thrown, .throw thrown, runningState, .inr rfl, alike', .inr ⟨thrown, rfl, rfl⟩⟩
    have ran : Simulates (Coroutine.unwind E observer level.opened (.throw value)) a
        (M.runAll [disposeCall]) b SameHost both := by
      have start : M.runAll [disposeCall] = Exec.tick >>= fun _ =>
          (M.execStmt M.runAll disposeCall).unwinding >>=
            Environment.follow M.runs [⟨[disposeCall], []⟩] := by
        unfold Environment.runAll
        rw [Environment.runs_eq rfl]
        exact congrArg (Exec.tick >>= ·) (funext fun _ =>
          Environment.advance_eq (setting.hosted.quiet _ ⟨rfl, rfl⟩) nofun)
      rw [start]
      refine .ahead (.tick _ b) (call.answer ?_)
      rintro flow a' ended b' ⟨state, dead, alike', ⟨rfl, rfl⟩ | ⟨thrown, rfl, rfl⟩⟩
      · exact ⟨.normal, Environment.runs_done rfl, state, dead, alike', .inl ⟨rfl, rfl⟩⟩
      · exact ⟨.throw thrown, rfl, state, dead, alike', .inr ⟨thrown, rfl, rfl⟩⟩
    refine ran.bind fun flow a' ended b' _ ⟨state, dead, alike', flows⟩ => ?_
    rcases flows with ⟨rfl, rfl⟩ | ⟨thrown, rfl, rfl⟩
    · exact .pure (.threw value dead alike')
    · exact .pure (.threw thrown dead alike')

end Lowering

end ManagedCode
