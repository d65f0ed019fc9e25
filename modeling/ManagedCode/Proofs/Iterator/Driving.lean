import ManagedCode.Proofs.Iterator.StepRun

namespace ManagedCode

theorem Alike.setCurrent {σ : Type} {state current : Option Value} {u w : World σ} (h : Alike state current u w)
    (value : Value) : Alike state (some value) u { w with fields := w.fields.set 1 value } where
  host := h.host
  length := by
    rw [h.length]
    exact (List.length_set ..).symm
  wide := Nat.le_trans h.wide (Nat.le_of_eq (List.length_set ..).symm)
  same i hi := by
    rw [h.same i hi]
    exact (List.getElem?_set_ne (by omega)).symm
  state := by
    rw [← h.state]
    exact List.getElem?_set_ne (by omega)
  current := by
    have wide := h.wide
    exact List.getElem?_set_self (by omega)

namespace Lowering

variable {σ : Type} {iterator : IteratorMethod} {machine : StateMachine}
  {assembly : Assembly iterator machine} {observer : Observer σ} {E M : Environment σ}
  {current : Option Value} {a b : Config σ} {level : Level} {n : Nat}

/-- A statement that neither holds statements nor suspends is executed as it always is. -/
theorem advance_of_plain {go : Point → List OpenTry → Exec σ Outcome} {s : Stmt}
    (plain : Ordinary s ∨ ∃ value, s = .ret value) (after : Point) (opened : List OpenTry) :
    Coroutine.advance E observer go s after opened =
      (E.execStmt E.runAll s).unwinding >>=
        Coroutine.land go (Coroutine.leave E observer go opened) after opened := by
  rcases plain with ordinary | ⟨value, rfl⟩
  · cases s with
    | tryCatch id body catches cleanup =>
      have quiet : Stmt.anyYields body = false := ordinary
      simp [Coroutine.advance, quiet]
    | block | ret | yield | yieldBreak => exact ordinary.elim
    | _ => rfl
  · rfl

/-- The entry of a frame is told from its state. -/
theorem entered?_frame {g : Nat} (fits : Fits (frameState g)) (more : List Stmt) :
    (Stmt.block (setState (frameState g) :: more)).entered? = some g := by
  have value : (Int64.ofInt (frameState g)).toInt = frameState g := fits
  change (if stateField = stateField ∧ (Int64.ofInt (frameState g)).toInt ≤ firstFinalizeState then
    some (firstFinalizeState - (Int64.ofInt (frameState g)).toInt).toNat else none) = some g
  rw [value]
  unfold frameState firstFinalizeState
  rw [if_pos ⟨rfl, by omega⟩]
  exact congrArg some (by omega)

/-- The value of a yield becomes the element of the machine. -/
theorem runs_element (hosted : Hosted E M) {value : Expr} (own : value.InFields)
    {state : Option Value} (alike : Alike state current a.world b.world) :
    Simulates (Exec.unwinding (do return Flow.ret (← E.eval E.runAll value))) a
      (M.execStmt M.runAll (.assign (.machineField currentField) value)).unwinding b SameHost
      (fun flow a' flow' b' =>
        (∃ v, flow = .ret v ∧ flow' = .normal ∧ Alike state (some v) a'.world b'.world) ∨
          ∃ v, flow = .throw v ∧ flow' = .throw v ∧ Alike state current a'.world b'.world) := by
  let both : Flow → Config σ → Flow → Config σ → Prop := fun flow a' flow' b' =>
    ∃ v, flow = .ret v ∧ flow' = .normal ∧ Alike state (some v) a'.world b'.world
  have near : Near none False state current a b := ⟨alike, False.elim⟩
  have evaluated : Simulates (do return Flow.ret (← E.eval E.runAll value)) a
      (M.execStmt M.runAll (.assign (.machineField currentField) value)) b
      (Near none False state current) both := by
    refine (near.eval hosted own E.runAll M.runAll).bind fun v a' w b' _ step => ?_
    obtain ⟨rfl, near'⟩ := step
    let c : Config σ := { b' with world := { b'.world with fields := b'.world.fields.set 1 v } }
    have wide := near'.alike.wide
    have write : (M.write M.runAll v (.machineField currentField) >>= fun _ =>
        (pure .normal : Exec σ Flow)).Reaches b' 0 (pure .normal) c := by
      refine .of_eq fun f => ?_
      have write : World.writeField currentField v (b'.withFuel f).world =
          reached (.ok ()) (c.withFuel f).world :=
        World.writeField_eq v (show 1 < b'.world.fields.length by omega)
      have done : Exec.onWorld (fun _ => World.writeField currentField v) (b'.withFuel f) =
          reached (.ok ()) { b'.withFuel f with world := (c.withFuel f).world } :=
        Exec.onWorld_eq write
      exact bind_of_ok done
    exact .ahead write (.pure ⟨v, rfl, rfl, near'.alike.setCurrent v⟩)
  have whole : Simulates (do return Flow.ret (← E.eval E.runAll value)) a
      (M.execStmt M.runAll (.assign (.machineField currentField) value)) b
      (Near none False state current) (fun flow a' flow' b' => both flow a' flow' b' ∨
        ∃ v, flow = .throw v ∧ flow' = .throw v ∧ Alike state current a'.world b'.world) :=
    evaluated.mono (fun _ _ h => h) fun _ _ _ _ h => .inl h
  refine (whole.unwinding fun v a' b' near' => .inr ⟨v, rfl, rfl, near'.alike⟩).mono ?_ ?_
  · exact fun _ _ near' => near'.alike.host
  · exact fun _ _ _ _ h => h

section

variable (setting : assembly.Setting observer E M)

include setting

/-- At a yield both stop, with the same element. -/
theorem yields (nests : assembly.Nests level)
    {after after' : Point} {s s' t t' : List Stmt} {value : Expr} {out : List Stmt}
    {p p' : Point} (due : p.next? = some (.yield value, ⟨s, s'⟩ :: after))
    (due' : p'.next? = Point.next? (⟨t, out ++ t'⟩ :: (after' ++ level.outer)))
    (hw : Written assembly.plan (level.site.followed (Point.yieldCount (⟨s, s'⟩ :: after)))
      (.yield value) out)
    (aligned : level.Aligns assembly.plan (⟨s, s'⟩ :: after) (⟨t, t'⟩ :: after'))
    (hs : .yield value :: s' <:+ s) (ht : out ++ t' <:+ t)
    (alike : Alike (some (stateValue level.site.state)) current a.world b.world) :
    Simulates (Coroutine.drives E observer p level.opened) a
      (M.runs p' >>= finish M assembly.facts.hasFrames) b SameHost (assembly.Stopped current) := by
  have hosted := setting.hosted
  rw [Written] at hw
  obtain ⟨-, own, k, resume, around, label, covers, site, number, frames, rfl⟩ := hw
  let rest : List Stmt := .ret (some (.bool true)) :: .label resume :: setState level.site.state :: t'
  let outer : Point := after' ++ level.outer
  have step' : M.runs p' >>= finish M assembly.facts.hasFrames = Exec.tick >>= fun _ =>
      (M.execStmt M.runAll (.assign (.machineField currentField) value)).unwinding >>= fun flow =>
        Environment.follow M.runs (⟨t, setState (k + 1 : Nat) :: rest⟩ :: outer) flow >>=
          finish M assembly.facts.hasFrames := by
    rw [Environment.runs_eq (due'.trans rfl), bind_assoc]
    refine congrArg (Exec.tick >>= ·) (funext fun _ => ?_)
    rw [Environment.advance_eq (hosted.quiet _ ⟨rfl, rfl⟩) (fun _ => by simp), bind_assoc]
    rfl
  rw [Coroutine.drives_eq due, step']
  refine Simulates.tick (k := 0) (Exec.Reaches.tick _ b) fun m _ => ?_
  have alike : Alike (some (stateValue level.site.state)) current (a.withFuel m).world b.world :=
    { alike with }
  change Simulates (Exec.unwinding (do return Flow.ret (← E.eval E.runAll value)) >>= _) _ _ _ _ _
  refine (runs_element hosted own alike).bind fun flow a' flow' b' _ element => ?_
  rcases element with ⟨v, rfl, rfl, alike'⟩ | ⟨v, rfl, rfl, alike'⟩
  · let c : Config σ := { b' with world := inState (k + 1 : Nat) b'.world }
    have wide := alike'.wide
    have first : (M.runs (⟨t, setState (k + 1 : Nat) :: rest⟩ :: outer)).Reaches b' (1 + 0)
        (M.runs (⟨t, rest⟩ :: outer)) c :=
      runs_reaches (s := setState (k + 1 : Nat)) rfl nofun (hosted.quiet _ ⟨rfl, rfl⟩)
        (ends_setState M (k + 1 : Nat) (by omega))
    have second : (M.runs (⟨t, rest⟩ :: outer)).Reaches c (1 + 0) (pure (.ret (.bool true))) c :=
      runs_reaches (s := .ret (some (.bool true))) rfl nofun (hosted.quiet _ ⟨rfl, rfl⟩)
        (.of_eq fun _ => rfl)
    refine .ahead (first.trans second).bind (.pure (.paused ?_ (alike'.setState (k + 1 : Nat))))
    exact ⟨nests, covers, ⟨t, t', after', value, resume, aligned, ht, label⟩,
      nests.afterYield hs site frames number⟩
  · exact finish_throw setting nests alike' v

/-- A return leaves through the handlers around it; outside every try statement it ends the step at
once. -/
theorem returns (wells : ∀ m < n, assembly.DrivesWell observer E M m) (nests : assembly.Nests level)
    {after after' : Point} {s s' t t' : List Stmt} {value : Option Expr} {out : List Stmt}
    {p p' : Point} (due : p.next? = some (.ret value, ⟨s, s'⟩ :: after))
    (due' : p'.next? = Point.next? (⟨t, out ++ t'⟩ :: (after' ++ level.outer)))
    (hw : Written assembly.plan (level.site.followed (Point.yieldCount (⟨s, s'⟩ :: after)))
      (.ret value) out)
    (aligned : level.Aligns assembly.plan (⟨s, s'⟩ :: after) (⟨t, t'⟩ :: after')) (less : a.fuel ≤ n)
    (alike : Alike (some (stateValue level.site.state)) current a.world b.world) :
    Simulates (Coroutine.drives E observer p level.opened) a
      (M.runs p' >>= finish M assembly.facts.hasFrames) b SameHost (assembly.Stopped current) := by
  have hosted := setting.hosted
  let outer : Point := after' ++ level.outer
  rw [Written] at hw
  obtain ⟨rfl, cases⟩ := hw
  have step : Coroutine.drives E observer p level.opened = Exec.tick >>= fun _ =>
      Coroutine.leave E observer (Coroutine.drives E observer) level.opened (.ret .unit) :=
    Coroutine.drives_eq due level.opened
  rw [step]
  rcases cases with ⟨-, r, l, result, routed, rfl⟩ | ⟨outside, -, rfl⟩
  · let c : Config σ := { b with activation := b.activation.writeLocal r (.bool false) }
    have answer : (M.runs p').Reaches b (1 + 0) (M.runs (⟨t, .goto l :: t'⟩ :: outer)) c :=
      runs_reaches (due'.trans rfl) (fun _ => by simp) (hosted.quiet _ ⟨rfl, rfl⟩)
        (ends_assignLocal M r (.bool false) b)
    have jump : (M.runs (⟨t, .goto l :: t'⟩ :: outer)).Reaches c (1 + 0)
        (Environment.follow M.runs (⟨t, t'⟩ :: outer) (.goto l)) c :=
      runs_reaches (s := .goto l) rfl nofun (hosted.quiet _ ⟨rfl, rfl⟩) (.refl _ c)
    have stands : assembly.Stands c (.ret .unit) assembly.plan.exit :=
      .ret (nests.result.symm.trans result) (Activation.lookup_writeLocal_self _ _ _)
    refine Simulates.tick (answer.trans jump).bind fun m fuel => ?_
    exact leaves setting (wells m (by omega)) nests stands (fun same => by cases same) routed
      (nests.at_ aligned) (Nat.le_refl m) { alike with }
  · have root : level.opened = [] := by
      cases nests with
      | root => rfl
      | frame _ frame => exact absurd (frame.framed.inTry.symm.trans outside) (by simp)
    let c : Config σ := { b with world := inState finishedState b.world }
    have wide := alike.wide
    have state : (M.runs p').Reaches b (1 + 0)
        (M.runs (⟨t, .ret (some (.bool false)) :: t'⟩ :: outer)) c :=
      runs_reaches (due'.trans rfl) (fun _ => by simp [setState]) (hosted.quiet _ ⟨rfl, rfl⟩)
        (ends_setState M finishedState (by omega))
    have leave : (M.runs (⟨t, .ret (some (.bool false)) :: t'⟩ :: outer)).Reaches c (1 + 0)
        (pure (.ret (.bool false))) c :=
      runs_reaches (s := .ret (some (.bool false))) rfl nofun (hosted.quiet _ ⟨rfl, rfl⟩)
        (.of_eq fun _ => rfl)
    rw [root]
    refine Simulates.tick (state.trans leave).bind fun m _ => ?_
    have done := alike.setState finishedState
    exact .pure (.finished (.inr rfl) { done with })

/-- A try statement that suspends is opened where its frame is entered. -/
theorem enters (wells : ∀ m < n, assembly.DrivesWell observer E M m) (nests : assembly.Nests level)
    {after after' : Point} {s s' t t' : List Stmt} {id : TryId} {body : List Stmt}
    {catches : List Catch} {finally? : Option (List Stmt)} {out : List Stmt}
    {p p' : Point} (due : p.next? = some (.tryCatch id body catches finally?, ⟨s, s'⟩ :: after))
    (due' : p'.next? = Point.next? (⟨t, out ++ t'⟩ :: (after' ++ level.outer)))
    (hw : Written assembly.plan (level.site.followed (Point.yieldCount (⟨s, s'⟩ :: after)))
      (.tryCatch id body catches finally?) out)
    (suspends : Stmt.anyYields body = true)
    (aligned : level.Aligns assembly.plan (⟨s, s'⟩ :: after) (⟨t, t'⟩ :: after'))
    (hs : .tryCatch id body catches finally? :: s' <:+ s) (ht : out ++ t' <:+ t) (less : a.fuel ≤ n)
    (alike : Alike (some (stateValue level.site.state)) current a.world b.world) :
    Simulates (Coroutine.drives E observer p level.opened) a
      (M.runs p' >>= finish M assembly.facts.hasFrames) b SameHost (assembly.Stopped current) := by
  have hosted := setting.hosted
  cases finally? with
  | none =>
    rw [Written] at hw
    exact absurd (hw.1.symm.trans suspends) (by simp)
  | some cleanup =>
  rw [Written] at hw
  rcases hw with ⟨quiet, -⟩ | ⟨-, -, rfl, inner, g, stmts, leave, clause, written, cleans, framed, rfl⟩
  · exact absurd (quiet.symm.trans suspends) (by simp)
  let frame : level.Frame assembly.plan :=
    { inner, g, id, body, cleanup, stmts, leave, clause, s, s', around := after, t, t'
      around' := after', written, cleans, framed, aligned, here := hs, here' := ht }
  have nests' := Assembly.Nests.frame nests frame
  have state : inner.state = frameState g := by
    unfold Site.state
    rw [framed.path]
    rfl
  have fits : Fits inner.state := nests'.covers.2
  have entered : M.watch (.block (setState inner.state :: stmts ++ leave)) = observer.entered id := by
    refine setting.entered _ g id ?_ framed.number
    rw [state] at fits ⊢
    exact entered?_frame fits _
  have step : Coroutine.drives E observer p level.opened = Exec.tick >>= fun _ =>
      Exec.onHost (observer.entered id) >>= fun _ =>
        Coroutine.drives E observer (.start body) frame.below.opened := by
    rw [Coroutine.drives_eq due]
    refine congrArg (Exec.tick >>= ·) (funext fun _ => ?_)
    simp only [Coroutine.advance, suspends, if_true]
    rfl
  have step' : M.runs p' >>= finish M assembly.facts.hasFrames = Exec.tick >>= fun _ =>
      Exec.onHost (M.watch (.block (setState inner.state :: stmts ++ leave))) >>= fun _ =>
        M.runs (⟨frame.below.code, frame.below.code⟩ :: frame.after') >>=
          finish M assembly.facts.hasFrames := by
    rw [Environment.runs_eq (due'.trans rfl), bind_assoc]
    exact congrArg (Exec.tick >>= ·) (funext fun _ => bind_assoc (Exec.onHost _) _ _)
  rw [step, step']
  refine Simulates.tick (k := 0) (Exec.Reaches.tick _ b) fun m fuel => ?_
  have alike' := alike.onHost (observer.entered id a.world.host)
  refine Simulates.told entered.symm ?_
  let b' : Config σ :=
    { b with world := { b.world with host := observer.entered id b.world.host } }
  let c : Config σ := { b' with world := inState inner.state b'.world }
  have wide := alike.wide
  have first : (M.runs (⟨frame.below.code, frame.below.code⟩ :: frame.after')).Reaches b' (1 + 0)
      (M.runs (⟨frame.below.code, stmts ++ leave⟩ :: frame.after')) c :=
    runs_reaches (s := setState inner.state) rfl (by simp [setState]) (hosted.quiet _ ⟨rfl, rfl⟩)
      (ends_setState M inner.state (c := b') (show 0 < b.world.fields.length by omega))
  have start : frame.below.Aligns assembly.plan [⟨body, body⟩]
      [⟨frame.below.code, stmts ++ leave⟩] := .base (writtenAll_nil ..) written rfl rfl rfl
  refine .ahead first.bind (wells m (by omega) nests' start (Nat.le_refl m) ?_)
  have same : a.world.host = b.world.host := alike.host
  have changed : Alike (some (stateValue inner.state)) current
      { a.world with host := observer.entered id a.world.host }
      (inState inner.state { b.world with host := observer.entered id b.world.host }) := by
    rw [← same]
    exact alike'.setState inner.state
  exact { changed with }

/-- Where a list is through, a frame is left, or the step ends. -/
theorem runs_out (wells : ∀ m < n, assembly.DrivesWell observer E M m) (nests : assembly.Nests level)
    {p p' : Point} (due : p.next? = none)
    (due' : p'.next? = Point.next? (⟨level.code, level.tail⟩ :: level.outer)) (less : a.fuel ≤ n)
    (alike : Alike (some (stateValue level.site.state)) current a.world b.world) :
    Simulates (Coroutine.drives E observer p level.opened) a
      (M.runs p' >>= finish M assembly.facts.hasFrames) b SameHost (assembly.Stopped current) := by
  have hosted := setting.hosted
  rw [runs_congr due']
  cases nests with
  | root =>
    have wide := alike.wide
    obtain ⟨k, c, ends, world⟩ := runs_end (c := b) hosted assembly.stepStmts
      ⟨iterator.body.labelCount⟩ assembly.progress.result? (by omega)
    have last : Coroutine.drives E observer p [] = pure (.ended .normal) := Coroutine.drives_done due
    change Simulates (Coroutine.drives E observer p []) _ _ _ _ _
    rw [last]
    refine .ahead ends.bind (.pure (.finished (.inl rfl) ?_))
    rw [world]
    exact alike.setState finishedState
  | frame around frame =>
    obtain ⟨k, call⟩ := falls_out hosted around frame b
    have step : Coroutine.drives E observer p frame.below.opened = Exec.tick >>= fun _ =>
        Coroutine.leave E observer (Coroutine.drives E observer) frame.below.opened .normal :=
      Coroutine.drives_leave due frame.opens _
    rw [step]
    refine Simulates.tick call.bind fun m fuel => ?_
    have alike : Alike (some (stateValue frame.inner.state)) current (a.withFuel m).world b.world :=
      { alike with }
    refine leaves_frame setting around frame alike .normal fun a' b' less' alike' _ => ?_
    have through : M.runs (⟨frame.below.code, []⟩ :: frame.after') = M.runs frame.after' :=
      runs_congr rfl
    rw [through]
    exact wells m (by omega) around frame.aligned less' alike'

/-- Up to its next yield a body runs as the step method of its machine does, from wherever they are. -/
theorem drivesWell (n : Nat) : assembly.DrivesWell observer E M n := by
  have hosted := setting.hosted
  induction n using Nat.strongRecOn with
  | ind n ih =>
  intro level p p' current a b nests aligned less alike
  rcases Aligned.next aligned with ⟨done, done'⟩ |
    ⟨stmt, s, s', after, t, t', out, after', due, hw, aligned', hs, ht, due'⟩
  · exact runs_out setting ih nests done (done' _) less alike
  have due' := due' level.outer
  by_cases isBlock : ∃ stmts, stmt = .block stmts
  · obtain ⟨stmts, rfl⟩ := isBlock
    rw [Written] at hw
    obtain ⟨stmts', hi, rfl⟩ := hw
    have step : Coroutine.drives E observer p level.opened = Exec.tick >>= fun _ =>
        Coroutine.drives E observer (⟨stmts, stmts⟩ :: ⟨s, s'⟩ :: after) level.opened :=
      Coroutine.drives_eq due level.opened
    have step' : M.runs (p' ++ level.outer) = Exec.tick >>= fun _ =>
        M.runs (⟨stmts', stmts'⟩ :: ⟨t, t'⟩ :: (after' ++ level.outer)) := by
      rw [Environment.runs_eq (due'.trans rfl)]
      exact congrArg (Exec.tick >>= ·)
        (funext fun _ => advance_block (hosted.quiet _ (quiet_block hi)))
    have start : level.Aligns assembly.plan (⟨stmts, stmts⟩ :: ⟨s, s'⟩ :: after)
        (⟨stmts', stmts'⟩ :: ⟨t, t'⟩ :: after') := .block (writtenAll_nil ..) hi rfl rfl aligned' hs ht
    rw [step, step']
    refine Simulates.tick (Exec.Reaches.tick _ b).bind fun m fuel => ?_
    exact ih m (by omega) nests start (Nat.le_refl m) { alike with }
  by_cases isYield : ∃ value, stmt = .yield value
  · obtain ⟨value, rfl⟩ := isYield
    exact yields setting nests due due' hw aligned' hs ht alike
  by_cases isRet : ∃ value, stmt = .ret value
  · obtain ⟨value, rfl⟩ := isRet
    exact returns setting ih nests due due' hw aligned' less alike
  by_cases ordinary : Ordinary stmt
  · obtain ⟨one, rfl, quiet, plain, exec⟩ := exec_written hosted (nests.fresh.followed _) hw ordinary
    have step : Coroutine.drives E observer p level.opened = Exec.tick >>= fun _ =>
        (E.execStmt E.runAll stmt).unwinding >>= Coroutine.land (Coroutine.drives E observer)
          (Coroutine.leave E observer (Coroutine.drives E observer) level.opened) (⟨s, s'⟩ :: after)
          level.opened := by
      rw [Coroutine.drives_eq due, advance_of_plain (.inl ordinary)]
    have step' : M.runs (p' ++ level.outer) >>= finish M assembly.facts.hasFrames =
        Exec.tick >>= fun _ => (M.execStmt M.runAll one).unwinding >>= fun flow =>
          Environment.follow M.runs (⟨t, t'⟩ :: (after' ++ level.outer)) flow >>=
            finish M assembly.facts.hasFrames := by
      rw [Environment.runs_eq (due'.trans rfl), bind_assoc]
      refine congrArg (Exec.tick >>= ·) (funext fun _ => ?_)
      rw [Environment.advance_eq (hosted.quiet one quiet) plain, bind_assoc]
      rfl
    rw [step, step']
    refine Simulates.tick (k := 0) (Exec.Reaches.tick _ b) fun m fuel => ?_
    have near : Near level.site.result False (some (stateValue level.site.state)) current
        (a.withFuel m) b := ⟨{ alike with }, False.elim⟩
    have ran : Simulates (Exec.unwinding (E.execStmt E.runAll stmt)) (a.withFuel m)
        (Exec.unwinding (M.execStmt M.runAll one)) b SameHost
        (Ended assembly.plan level.site .normal stmt.escapes False
          (some (stateValue level.site.state)) current) :=
      ((exec (a := a.withFuel m) (runsWell hosted m) (Nat.le_refl m) near).unwinding
        fun v a' b' near => ⟨near, .throw v, nofun⟩).mono
        (fun _ _ near => near.alike.host) fun _ _ _ _ h => h.of_followed
    refine ran.bind fun flow a' flow' b' less' ended => ?_
    rw [Config.fuel_withFuel] at less'
    refine lands setting (ih m (by omega)) nests aligned' ?_ less' ended
    exact fun l hl => (Aligned.home aligned').mem_escapesAll rfl (hs.mem List.mem_cons_self) hl
  · cases stmt with
    | block stmts => exact absurd ⟨stmts, rfl⟩ isBlock
    | yield value => exact absurd ⟨value, rfl⟩ isYield
    | ret value => exact absurd ⟨value, rfl⟩ isRet
    | yieldBreak =>
      rw [Written] at hw
      exact hw.elim
    | tryCatch id body catches finally? =>
      have suspends : Stmt.anyYields body = true := by
        cases quiet : Stmt.anyYields body with
        | true => rfl
        | false => exact absurd quiet ordinary
      exact enters setting ih nests due due' hw suspends aligned' hs ht less alike
    | _ => exact absurd trivial ordinary

end

end Lowering

end ManagedCode
