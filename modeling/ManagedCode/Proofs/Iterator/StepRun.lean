import ManagedCode.Proofs.Iterator.Leaving

namespace ManagedCode

namespace Lowering

variable {σ : Type} {iterator : IteratorMethod} {machine : StateMachine}
  {assembly : Assembly iterator machine} {observer : Observer σ} {E M : Environment σ}
  {current : Option Value} {a b : Config σ} {level : Level} {n : Nat}

/-- Within `n` units of fuel, the body runs up to its next yield as the step method does. -/
def Assembly.DrivesWell (assembly : Assembly iterator machine) (observer : Observer σ)
    (E M : Environment σ) (n : Nat) : Prop :=
  ∀ {level : Level} {p p' : Point} {current : Option Value} {a b : Config σ},
    assembly.Nests level → level.Aligns assembly.plan p p' → a.fuel ≤ n →
    Alike (some (stateValue level.site.state)) current a.world b.world →
    Simulates (Coroutine.drives E observer p level.opened) a
      (M.runs (p' ++ level.outer) >>= finish M assembly.facts.hasFrames) b SameHost
      (assembly.Stopped current)

/-! The end of the step method. -/

theorem ends_answer (M : Environment σ) (result? : Option LocalId) {c : Config σ}
    (answers : Answers result? c) :
    (M.execStmt M.runAll (.ret (some (answer result?)))).Ends c 0 (.ret (.bool false)) c := by
  refine .of_eq fun f => ?_
  have value : M.eval M.runAll (answer result?) (c.withFuel f) =
      .ok (.bool false) (c.withFuel f) := by
    cases result? with
    | none => rfl
    | some r => exact eval_local (answers r rfl)
  exact bind_of_ok value

/-- At the exit label the machine ends without an element. -/
theorem runs_exit (hosted : Hosted E M) (stmts : List Stmt) (exit : LabelId)
    {result? : Option LocalId} {c : Config σ} (answers : Answers result? c)
    (room : 0 < c.world.fields.length) :
    (M.runs [⟨stmts, epilogue exit result?⟩]).Ends c 3 (.ret (.bool false))
      { c with world := inState finishedState c.world } := by
  let c' : Config σ := { c with world := inState finishedState c.world }
  have label : (M.runs [⟨stmts, epilogue exit result?⟩]).Reaches c (1 + 0)
      (M.runs [⟨stmts, (epilogue exit result?).tail⟩]) c :=
    runs_reaches (s := .label exit) rfl nofun (hosted.quiet _ ⟨rfl, rfl⟩) (.refl _ c)
  have state : (M.runs [⟨stmts, (epilogue exit result?).tail⟩]).Reaches c (1 + 0)
      (M.runs [⟨stmts, [.ret (some (answer result?))]⟩]) c' :=
    runs_reaches (s := setState finishedState) rfl nofun (hosted.quiet _ ⟨rfl, rfl⟩)
      (ends_setState M finishedState room)
  have leave : (M.runs [⟨stmts, [.ret (some (answer result?))]⟩]).Reaches c' (1 + 0)
      (pure (.ret (.bool false))) c' :=
    runs_reaches (s := .ret (some (answer result?))) rfl nofun (hosted.quiet _ ⟨rfl, rfl⟩)
      (ends_answer M result? (c := c') answers)
  exact (label.trans state).trans leave

/-- Where the body falls through, the answer is cleared first. -/
theorem runs_end (hosted : Hosted E M) (stmts : List Stmt) (exit : LabelId)
    (result? : Option LocalId) {c : Config σ} (room : 0 < c.world.fields.length) :
    ∃ k c', (M.runs [⟨stmts, clearAnswer result? ++ epilogue exit result?⟩]).Ends c k
      (.ret (.bool false)) c' ∧ c'.world = inState finishedState c.world := by
  cases result? with
  | none => exact ⟨_, _, runs_exit hosted stmts exit (by rintro _ ⟨⟩) room, rfl⟩
  | some r =>
    let c' : Config σ := { c with activation := c.activation.writeLocal r (.bool false) }
    have clear : (M.runs [⟨stmts, clearAnswer (some r) ++ epilogue exit (some r)⟩]).Reaches c
        (1 + 0) (M.runs [⟨stmts, epilogue exit (some r)⟩]) c' :=
      runs_reaches (s := .assign (.local r) (.bool false)) rfl nofun (hosted.quiet _ ⟨rfl, rfl⟩)
        (ends_assignLocal M r (.bool false) c)
    have answers : Answers (some r) c' := by
      rintro _ ⟨⟩
      exact Activation.lookup_writeLocal_self _ _ _
    exact ⟨_, _, clear.trans (runs_exit hosted stmts exit answers room), rfl⟩

/-! The end of a frame. -/

/-- The statement after a handler call is due when the call ended normally. -/
theorem reaches_handlerCall (M : Environment σ) (g : Nat) (list rest : List Stmt) (outer : Point)
    (c : Config σ) : (M.runs (⟨list, handlerCall g :: rest⟩ :: outer)).Reaches c 1
      (callHandler M g >>= Environment.follow M.runs (⟨list, rest⟩ :: outer)) c := by
  have step : M.runs (⟨list, handlerCall g :: rest⟩ :: outer) = Exec.tick >>= fun _ =>
      callHandler M g >>= Environment.follow M.runs (⟨list, rest⟩ :: outer) := by
    rw [Environment.runs_eq rfl]
    rfl
  rw [step]
  exact .tick _ c

/-- The code of a proxy. -/
theorem Sections.mem {outer : Site} {g : Nat} {proxies : List (LabelId × LabelId)}
    {out : List Stmt} (h : Sections outer g proxies out) {target proxy : LabelId}
    (mem : (target, proxy) ∈ proxies) : ∃ next rest, outer.Routed target next ∧
      .label proxy :: handlerCall g :: .goto next :: rest <:+ out := by
  induction proxies generalizing out with
  | nil => cases mem
  | cons pair proxies ih =>
    obtain ⟨target', proxy'⟩ := pair
    obtain ⟨next, tail, routed, sections, rfl⟩ := h
    rcases List.mem_cons.mp mem with same | mem
    · cases same
      exact ⟨next, tail, routed, List.suffix_rfl⟩
    · obtain ⟨next', rest, routed', suffix⟩ := ih sections mem
      exact ⟨next', rest, routed', suffix.trans ⟨[_, _, _], rfl⟩⟩

/-- A flow for which the machine jumps to `target`. -/
inductive Assembly.Stands (assembly : Assembly iterator machine) (b : Config σ) :
    Flow → LabelId → Prop
  | goto (l : LabelId) : Stands assembly b (.goto l) l
  | ret {r : LocalId} (has : assembly.progress.result? = some r)
    (answers : b.activation.locals.lookup r = some (.bool false)) :
    Stands assembly b (.ret .unit) assembly.plan.exit

/-- At the end of its body a frame is left through its handler. -/
theorem falls_out (hosted : Hosted E M) (nests : assembly.Nests level)
    (frame : level.Frame assembly.plan) (c : Config σ) :
    ∃ k, (M.runs (⟨frame.below.code, frame.leave⟩ :: frame.after')).Reaches c (k + 1)
      (callHandler M frame.g >>=
        Environment.follow M.runs (⟨frame.below.code, []⟩ :: frame.after')) c := by
  have leaving := frame.framed.leaving
  rcases leaving with ⟨-, code⟩ | ⟨drop, sections, -, code⟩
  · rw [code]
    exact ⟨0, reaches_handlerCall M frame.g _ [] _ c⟩
  · have inner := (Assembly.Nests.frame nests frame).rooted
    have start : At assembly.stepStmts (⟨frame.below.code, sections ++ [.label drop, handlerCall
        frame.g]⟩ :: frame.after') := by
      refine inner _ ⟨setState frame.inner.state :: frame.stmts ++ [.goto drop], ?_⟩
      change _ = setState frame.inner.state :: frame.stmts ++ frame.leave
      rw [code]
      simp [handlerCall]
    have target : At assembly.stepStmts
        (⟨frame.below.code, [.label drop, handlerCall frame.g]⟩ :: frame.after') :=
      start.later (List.suffix_append _ _)
    have skip := reaches_goto assembly.nodup_stepStmts target start
      (hosted.quiet _ ⟨rfl, rfl⟩) (hosted.quiet _ ⟨rfl, rfl⟩) c
    rw [code]
    exact ⟨2, skip.trans (reaches_handlerCall M frame.g _ [] _ c)⟩

/-- A jump that the body makes to a label in the list of a level. -/
theorem jumps (wells : assembly.DrivesWell observer E M n) (nests : assembly.Nests level)
    {after after' q target : Point} {l : LabelId} (aligned : level.Aligns assembly.plan after after')
    (found : Point.jump? l after = some target) (here : At assembly.stepStmts q)
    (less : a.fuel ≤ n)
    (alike : Alike (some (stateValue level.site.state)) current a.world b.world) {l' : LabelId}
    (routed : level.site.Routed l l') :
    Simulates (Coroutine.drives E observer target level.opened) a
      (Environment.follow M.runs q (.goto l') >>= finish M assembly.facts.hasFrames) b SameHost
      (assembly.Stopped current) := by
  obtain ⟨t, t', outer, aligned', -, inside, -⟩ := Aligned.jump? aligned found
  cases routed.eq_of_inside inside
  have there := nests.at_ aligned'
  have found' : Point.jump? l q = some (⟨t, .label l :: t'⟩ :: (outer ++ level.outer)) :=
    (here.jump?_eq assembly.nodup_stepStmts).trans (there.find?_eq assembly.nodup_stepStmts)
  simp only [Environment.follow, found']
  exact wells nests aligned' less alike

section

variable (setting : assembly.Setting observer E M)

include setting

/-- When the handler of a frame has ended, both go on after the frame, or an exception leads
further out. -/
theorem leaves_frame (nests : assembly.Nests level) (frame : level.Frame assembly.plan)
    {state : Option Value} (alike : Alike state current a.world b.world) (flow : Flow)
    {rest : List Stmt} {go : Point → List OpenTry → Exec σ Outcome}
    (next : ∀ a' b', a'.fuel ≤ a.fuel →
      Alike (some (stateValue level.site.state)) current a'.world b'.world →
      b'.activation = b.activation →
      Simulates (Coroutine.land go (Coroutine.leave E observer go level.opened) frame.after
          level.opened flow) a'
        (M.runs (⟨frame.below.code, rest⟩ :: frame.after') >>=
          finish M assembly.facts.hasFrames) b' SameHost (assembly.Stopped current)) :
    Simulates (Coroutine.leave E observer go frame.below.opened flow) a
      ((callHandler M frame.g >>=
          Environment.follow M.runs (⟨frame.below.code, rest⟩ :: frame.after')) >>=
        finish M assembly.facts.hasFrames) b SameHost (assembly.Stopped current) := by
  have step : Coroutine.leave E observer go frame.below.opened flow =
      Coroutine.leaveTry E observer frame.opens flow >>=
        Coroutine.land go (Coroutine.leave E observer go level.opened) frame.after level.opened :=
    rfl
  rw [step, bind_assoc]
  refine (nests.guards setting frame flow alike).bind fun flow' a' ended b' less left => ?_
  obtain ⟨⟨rfl, rfl⟩ | ⟨value, rfl, rfl⟩, alike', kept⟩ := left
  · exact next a' b' less alike' kept
  · exact finish_throw setting nests alike' value

/-- A jump or a return that leads out of a level runs the handlers on its way. -/
theorem leaves (wells : assembly.DrivesWell observer E M n) (nests : assembly.Nests level)
    {flow : Flow} {target l : LabelId} (stands : assembly.Stands b flow target)
    (escapes : flow = .goto target → target ∈ Stmt.escapesAll level.source)
    (routed : level.site.Routed target l) {q : Point} (here : At assembly.stepStmts q)
    (less : a.fuel ≤ n)
    (alike : Alike (some (stateValue level.site.state)) current a.world b.world) :
    Simulates (Coroutine.leave E observer (Coroutine.drives E observer) level.opened flow) a
      (Environment.follow M.runs q (.goto l) >>= finish M assembly.facts.hasFrames) b SameHost
      (assembly.Stopped current) := by
  have hosted := setting.hosted
  induction nests generalizing a b l q with
  | root =>
    rcases routed with ⟨-, rfl⟩ | ⟨nested, -, -⟩
    case inr => exact absurd rfl nested
    cases stands with
    | goto =>
      have missing : Point.jump? l q = none := by
        rw [here.jump?_eq assembly.nodup_stepStmts, Point.find?_eq_none]
        exact assembly.not_mem_stepStmts (escapes rfl)
      simp only [Environment.follow, missing]
      exact .pure (.lost (escapes rfl) alike.host)
    | ret has answers =>
      rename_i r
      have there : At assembly.stepStmts
          [⟨assembly.stepStmts, epilogue assembly.plan.exit assembly.progress.result?⟩] :=
        .base ⟨_, rfl⟩
      have found : Point.jump? assembly.plan.exit q = some
          [⟨assembly.stepStmts, epilogue assembly.plan.exit assembly.progress.result?⟩] :=
        (here.jump?_eq assembly.nodup_stepStmts).trans (there.find?_eq assembly.nodup_stepStmts)
      have answered : Answers assembly.progress.result? b := by
        intro r' hr'
        cases has.symm.trans hr'
        exact answers
      have wide := alike.wide
      have last := runs_exit hosted assembly.stepStmts assembly.plan.exit
        answered (show 0 < b.world.fields.length by omega)
      simp only [Environment.follow, found]
      refine .ahead last.bind ?_
      exact .pure (.finished (.inr rfl) (alike.setState finishedState))
  | frame around frame ih =>
    rename_i level
    have nests := Assembly.Nests.frame around frame
    have outside : target ∉ frame.inner.inside := by
      cases stands with
      | goto => exact frame.framed.out _ (escapes rfl)
      | ret =>
        intro mem
        exact absurd (frame.framed.below _ mem) (Nat.not_lt.mpr assembly.fresh.exit)
    rcases routed with ⟨inside, -⟩ | ⟨-, -, proxy⟩
    · rcases inside with atRoot | inside
      · have path : frame.inner.path = [] := atRoot
        rw [frame.framed.path] at path
        cases path
      · exact absurd inside outside
    -- The jump goes to the proxy, which calls the handler and jumps on.
    have leaving := frame.framed.leaving
    rcases leaving with ⟨none, -⟩ | ⟨drop, sections, all, code⟩
    · have mem : (target, l) ∈ frame.inner.proxies := proxy
      rw [none] at mem
      cases mem
    obtain ⟨next, rest, routed', before, split⟩ := all.mem proxy
    let last : List Stmt := rest ++ [.label drop, handlerCall frame.g]
    have suffix : .label l :: handlerCall frame.g :: .goto next :: last <:+ frame.below.code := by
      refine ⟨setState frame.inner.state :: frame.stmts ++ .goto drop :: before, ?_⟩
      change _ = setState frame.inner.state :: frame.stmts ++ frame.leave
      rw [code, ← split]
      simp [last, handlerCall]
    have there : At assembly.stepStmts (⟨frame.below.code, .label l :: handlerCall frame.g ::
        .goto next :: last⟩ :: frame.after') := nests.rooted _ suffix
    have goes := reaches_jump assembly.nodup_stepStmts there here
      (hosted.quiet _ ⟨rfl, rfl⟩) b
    have call := goes.trans (reaches_handlerCall M frame.g _ _ _ b)
    refine .ahead call.bind (leaves_frame setting around frame alike flow ?_)
    intro a' b' less' alike' kept
    let q' : Point := ⟨frame.below.code, last⟩ :: frame.after'
    have here' : At assembly.stepStmts q' := there.later ⟨[_, _, _], rfl⟩
    have jump : (M.runs (⟨frame.below.code, .goto next :: last⟩ :: frame.after')).Reaches b' (1 + 0)
        (Environment.follow M.runs q' (.goto next)) b' :=
      runs_reaches (s := .goto next) rfl (by simp) (hosted.quiet _ ⟨rfl, rfl⟩) (.refl _ b')
    have stands' : assembly.Stands b' flow target := by
      cases stands with
      | goto => exact .goto _
      | ret has answers => exact .ret has (kept ▸ answers)
    refine .ahead jump.bind ?_
    cases stands with
    | goto =>
      cases found : Point.jump? target frame.after with
      | some there =>
        simp only [Coroutine.land, found]
        exact jumps wells around frame.aligned found here' (by omega) alike' routed'
      | none =>
        simp only [Coroutine.land, found]
        refine ih stands' (fun _ => ?_) routed' here' (by omega) alike'
        refine (Aligned.home frame.aligned).mem_escapesAll rfl (frame.here.mem List.mem_cons_self) ?_ found
        exact List.mem_append_left _ (List.mem_append_left _ (escapes rfl))
    | ret => exact ih stands' (fun same => by cases same) routed' here' (by omega) alike'

/-- After a statement that ended alike in both, both go on alike. -/
theorem lands (wells : assembly.DrivesWell observer E M n) (nests : assembly.Nests level)
    {after after' : Point} (aligned : level.Aligns assembly.plan after after') {targets : List LabelId}
    (escapes : ∀ l ∈ targets, Point.jump? l after = none → l ∈ Stmt.escapesAll level.source)
    (less : a.fuel ≤ n) {flow flow' : Flow}
    (ended : Ended assembly.plan level.site .normal targets False
      (some (stateValue level.site.state)) current flow a flow' b) :
    Simulates (Coroutine.land (Coroutine.drives E observer)
        (Coroutine.leave E observer (Coroutine.drives E observer) level.opened) after level.opened
        flow) a
      (Environment.follow M.runs (after' ++ level.outer) flow' >>=
        finish M assembly.facts.hasFrames) b SameHost (assembly.Stopped current) := by
  obtain ⟨near, follows, targets⟩ := ended
  have alike := near.alike
  have here := nests.at_ aligned
  cases follows with
  | normal => exact wells nests aligned less alike
  | goto routed =>
    rename_i l l'
    cases found : Point.jump? l after with
    | some target =>
      simp only [Coroutine.land, found]
      exact jumps wells nests aligned found here less alike routed
    | none =>
      simp only [Coroutine.land, found]
      refine leaves setting wells nests (.goto l) (fun _ => ?_) routed here less alike
      exact escapes l (targets l rfl) found
  | ret routed has answers =>
    obtain ⟨r, hr⟩ := Option.isSome_iff_exists.mp has
    have stands : assembly.Stands b (.ret .unit) assembly.plan.exit :=
      .ret (nests.result.symm.trans hr) (answers r hr)
    exact leaves setting wells nests stands (fun same => by cases same) routed here less alike
  | throw value => exact finish_throw setting nests alike value

end

end Lowering

end ManagedCode
