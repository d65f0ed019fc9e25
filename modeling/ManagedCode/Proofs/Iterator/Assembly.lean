import ManagedCode.Proofs.Body.SuspendingTries
import ManagedCode.Proofs.Iterator.DisposeCode
import ManagedCode.Proofs.Iterator.Lowered

namespace ManagedCode

/-- The locals and the statements of each method of a machine. -/
def StateMachine.code (machine : StateMachine) : List (List LocalDecl × List Stmt) :=
  machine.methods.map fun m => (m.body.locals, m.body.root)

theorem StateMachine.exists_method {machine : StateMachine} {i : Nat} {locals : List LocalDecl}
    {root : List Stmt} (h : machine.code[i]? = some (locals, root)) :
    ∃ m, machine.methods[i]? = some m ∧ m.body.locals = locals ∧ m.body.root = root := by
  unfold code at h
  rw [List.getElem?_map, Option.map_eq_some_iff] at h
  obtain ⟨m, hm, same⟩ := h
  cases same
  exact ⟨m, hm, rfl, rfl⟩

namespace Lowering

open Progress

/-! A whole machine. -/

/-- Where a step method reads its state and goes on from there. -/
def prologue (resumeLabels : List LabelId) (start : LabelId) : List Stmt :=
  [.assign (.local ⟨0⟩) (.machineField stateField),
    .switch (.local ⟨0⟩) (resumeLabels.mapIdx fun state label => (Int64.ofNat state, label)) none,
    .ret (some (.bool false)),
    .label start,
    setState runningState]

def clearAnswer (result? : Option LocalId) : List Stmt :=
  result?.elim [] fun result => [.assign (.local result) (.bool false)]

def answer (result? : Option LocalId) : Expr := result?.elim (.bool false) .local

def epilogue (exit : LabelId) (result? : Option LocalId) : List Stmt :=
  [.label exit, setState finishedState, .ret (some (answer result?))]

/-- The statements of a step method, inside its fault region if it has one. -/
def stepStmts (exit start : LabelId) (progress : Progress) (rewritten : List Stmt) : List Stmt :=
  prologue progress.resumeLabels start ++ rewritten ++ clearAnswer progress.result? ++
    epilogue exit progress.result?

/-- The step method: with frames around yields, an exception runs the handlers that are due. -/
def stepRoot (hasFrames : Bool) (stmts : List Stmt) : List Stmt :=
  if hasFrames then [.tryFault stmts [.expr (.callSynthesized disposeMethod)]] else stmts

theorem map_snd_dispatch (labels : List LabelId) :
    (labels.mapIdx fun state label => (Int64.ofNat state, label)).map (·.2) = labels := by
  refine List.ext_getElem? fun k => ?_
  rw [List.getElem?_map, List.getElem?_mapIdx]
  cases labels[k]? <;> rfl

/-- A step method offers its start, the labels of what was written and its end. -/
theorem plainLabelsAll_stepStmts (exit start : LabelId) (progress : Progress)
    (rewritten : List Stmt) : Stmt.plainLabelsAll (stepStmts exit start progress rewritten) =
      start :: (Stmt.plainLabelsAll rewritten ++ [exit]) := by
  have quiet : Stmt.plainLabelsAll (clearAnswer progress.result?) = [] := by
    cases progress.result? <;> rfl
  unfold stepStmts
  rw [Stmt.plainLabelsAll_append, Stmt.plainLabelsAll_append, Stmt.plainLabelsAll_append, quiet,
    List.append_nil]
  rfl

theorem labelsAll_stepRoot (hasFrames : Bool) (stmts : List Stmt) :
    Stmt.labelsAll (stepRoot hasFrames stmts) = Stmt.labelsAll stmts := by
  cases hasFrames with
  | true => exact (List.append_nil _).trans (List.append_nil _)
  | false => rfl

def disposeRoot (dispatch : List Stmt) : List Stmt :=
  .assign (.local ⟨0⟩) (.machineField stateField) :: dispatch ++ [setState finishedState, .ret none]

/-- Where the statements of a body are written: two labels and a local are taken, and state 0 is
the state before the first step. -/
def Progress.begun (body : Body) : Progress where
  ids := ⟨body.labelCount + 2, body.tryCount⟩
  resumeLabels := [⟨body.labelCount + 1⟩]
  locals := [{ name := none, ty := .int32 }]

theorem rewriteStep_eq_ok {body : Body} {facts : YieldFacts} {step : Body} {p' : Progress}
    (h : rewriteStep (.of body facts) body.root (.start body) = .ok (step, p')) :
    body.labelCount + 2 < idLimit ∧ ∃ rewritten,
      rewriteStmts (.of body facts) {} body.root (.begun body) = .ok (rewritten, p') ∧
      step.locals = p'.locals ∧
      step.root = stepRoot facts.hasFrames
        (stepStmts ⟨body.labelCount⟩ ⟨body.labelCount + 1⟩ p' rewritten) := by
  unfold rewriteStep at h
  rw [bind_eq_ok] at h
  obtain ⟨cached, _, ht, h⟩ := h
  obtain ⟨rfl, rfl⟩ := temp_eq_ok ht
  rw [bind_eq_ok] at h
  obtain ⟨⟨state, start⟩, _, hs, h⟩ := h
  obtain ⟨rfl, rfl, ⟨room, -⟩, rfl⟩ := addState_eq_ok hs
  rw [bind_eq_ok] at h
  obtain ⟨rewritten, p₁, hr, h⟩ := h
  cases h
  exact ⟨room, rewritten, hr, rfl, rfl⟩

theorem sound_begun {body : Body} (room : body.labelCount + 2 < idLimit) :
    (Progress.begun body).Sound body.labelCount where
  count := rfl
  nested :=
    { root := rfl
      paths := fun f room => ⟨[], by
        obtain ⟨i⟩ := f
        exact congrArg FrameId.mk (Nat.lt_one_iff.mp room), .root rfl Nat.one_pos⟩
      known := fun f state child found => by
        have none : (Progress.begun body).frames.known f state = none := by
          obtain ⟨i⟩ := f
          cases i <;> rfl
        rw [none] at found
        cases found
      unique := fun f => by
        obtain ⟨i⟩ := f
        cases i <;> exact List.nodup_nil }
  frame g hg := absurd hg (Nat.not_lt_zero g)
  proxies f pair hp := by
    obtain ⟨i⟩ := f
    cases i <;> cases hp
  labels := Nat.le_add_right _ _
  states := by
    change 1 ≤ body.labelCount + 2
    omega
  limit := room
  stateLimit := show 1 < stateLimit by decide

theorem build_eq_some {frames : FrameTree} {handler : Nat → SynthMethodId} {used : Int → Prop}
    (nested : frames.Nested used)
    (handlers : ∀ g path, frames.Lies (g :: path) →
      (frames.frame ⟨g + 1⟩).handler? = some (handler g)) (room : 0 < frames.frames.length)
    {ids ids' : FreshIds} {dispose : Body} (h : Dispose.build frames ids = some (dispose, ids')) :
    ∃ dispatch, Dispose.Due frames handler ⟨0⟩ FrameTree.root ids dispatch ids' ∧
      dispose.locals = [{ name := none, ty := .int32 }] ∧
      dispose.root = disposeRoot dispatch := by
  unfold Dispose.build at h
  rw [Dispose.bind_eq_some] at h
  obtain ⟨dispatch, _, hd, h⟩ := h
  cases h
  have outermost : (frames.frame FrameTree.root).ancestors = [] :=
    congrArg Frame.ancestors nested.root
  have unhandled : (frames.frame FrameTree.root).handler? = none :=
    congrArg Frame.handler? nested.root
  have lies : frames.Lies [] := .root outermost room
  obtain ⟨inner, _, due, handled⟩ :=
    Dispose.due_of_frameDispatch nested handlers lies (Nat.le_refl _) hd
  rw [show FrameTree.frameOf [] = FrameTree.root from rfl, unhandled] at handled
  cases handled
  exact ⟨_, due, rfl, rfl⟩

/-- What is made of distinct old ids below `low` and fresh ids from there on is distinct. -/
theorem distinct_of_count {α : Type} [DecidableEq α] {made old : List α} {index : α → Nat}
    {low high : Nat}
    (count : ∀ x, made.count x + (if high ≤ index x then 1 else 0) ≤
      old.count x + (if low ≤ index x then 1 else 0))
    (distinct : old.Nodup) (below : ∀ x ∈ old, index x < low) :
    made.Nodup ∧ ∀ x ∈ made, index x < high := by
  have atMost : ∀ x, made.count x + (if high ≤ index x then 1 else 0) ≤ 1 := by
    intro x
    have bound := count x
    by_cases mem : x ∈ old
    · have once := List.nodup_iff_count_le_one.mp distinct x
      rw [if_neg (Nat.not_le.mpr (below x mem))] at bound
      omega
    · have atMost : (if low ≤ index x then 1 else 0) ≤ 1 := by split <;> omega
      rw [List.count_eq_zero_of_not_mem mem] at bound
      omega
  refine ⟨List.nodup_iff_count_le_one.mpr fun x => ?_, fun x mem => ?_⟩
  · have bound := atMost x
    omega
  · have bound := atMost x
    have some := List.count_pos_iff.mpr mem
    split at bound <;> omega

/-- What lowering made of an iterator whose try statements have ids of their own. -/
structure Composition (iterator : IteratorMethod) (machine : StateMachine) where
  facts : YieldFacts
  /-- The written statements of the body. -/
  rewritten : List Stmt
  /-- What lowering had made of the body in the end. -/
  progress : Progress
  /-- What the dispose method does for the frames. -/
  dispatch : List Stmt
  ids : FreshIds
  analysed : YieldFacts.ofBody iterator.body = .ok facts
  known : Stmt.AnalysedAll facts iterator.body.root
  room : iterator.body.labelCount + 2 < idLimit
  rewrites : RewritesAll (.of iterator.body facts) {} (.begun iterator.body) iterator.body.root
    rewritten progress
  due : Dispose.Due progress.frames handlerMethod ⟨0⟩ FrameTree.root progress.ids dispatch ids
  fields : machine.fields = machineFields iterator
  code : machine.code =
    (progress.locals, stepRoot facts.hasFrames
      (stepStmts ⟨iterator.body.labelCount⟩ ⟨iterator.body.labelCount + 1⟩ progress rewritten)) ::
    ([{ name := none, ty := .int32 }], disposeRoot dispatch) ::
    progress.handlers.map fun m => (m.body.locals, m.body.root)
  handlers : machine.handlers = progress.handlers.map fun m =>
    { m with body := { m.body with labelCount := ids.labelCount, tryCount := ids.tryCount } }
  resumeStates : machine.resumeStates = (List.range progress.resumeLabels.length).map Int.ofNat
  finalizeStates : machine.finalizeStates =
    (List.range progress.handlers.length).map (fun i : Nat => firstFinalizeState - i)
  counts : ∀ m ∈ machine.methods,
    m.body.labelCount = ids.labelCount ∧ m.body.tryCount = ids.tryCount

variable {iterator : IteratorMethod} {machine : StateMachine}

theorem nonempty_composition {symbols : Symbols} {options : LoweringOptions}
    (unique : (Stmt.tryIdsAll iterator.body.root).Nodup)
    (h : lowerIterator symbols options iterator = .ok machine) :
    Nonempty (Composition iterator machine) := by
  obtain ⟨facts, step, progress, dispose, ids, analysed, -, hs, hd, -, -, fields, resumeStates,
    finalizeStates, methods⟩ := lowerIterator_eq_ok h
  obtain ⟨room, rewritten, hr, stepLocals, stepCode⟩ := rewriteStep_eq_ok hs
  have known := YieldFacts.analysed_ofBody unique analysed
  have rewrites := rewritesAll_of_ok _ known.described known.suspendable hr
  have sound := (RewritesAll.evolves rewrites known.suspendable (sound_begun room)
    Nat.one_pos).sound
  have handlers : ∀ g path, progress.frames.Lies (g :: path) →
      (progress.frames.frame ⟨g + 1⟩).handler? = some (handlerMethod g) := by
    intro g path lies
    have inside := lies.room
    rw [FrameTree.frameOf_cons, sound.count] at inside
    exact (sound.frame g (Nat.lt_of_succ_lt_succ inside)).2
  obtain ⟨dispatch, due, disposeLocals, disposeCode⟩ :=
    build_eq_some sound.nested handlers (by rw [sound.count]; exact Nat.succ_pos _) hd
  exact ⟨
    { facts, rewritten, progress, dispatch, ids, analysed, known, room, rewrites, due, fields,
      resumeStates, finalizeStates
      code := by
        unfold StateMachine.code
        rw [methods, List.map_map, List.map_cons, List.map_cons, ← stepLocals, ← stepCode,
          ← disposeLocals, ← disposeCode]
        rfl
      handlers := by
        rw [StateMachine.handlers, methods]
        rfl
      counts := fun m hm => by
        rw [methods] at hm
        obtain ⟨m', -, rfl⟩ := List.mem_map.mp hm
        exact ⟨rfl, rfl⟩ }⟩

namespace Composition

variable (c : Composition iterator machine)
include c

/-- The methods of a machine are the step method, the dispose method and the handlers. -/
theorem methods : machine.methods = machine.step :: machine.dispose :: machine.handlers := by
  have length := congrArg List.length c.code
  rw [StateMachine.code, List.length_map] at length
  unfold StateMachine.step StateMachine.dispose StateMachine.handlers
  match machine.methods, length with
  | _ :: _ :: _, _ => rfl

theorem step_root : machine.step.body.root = stepRoot c.facts.hasFrames (stepStmts
    ⟨iterator.body.labelCount⟩ ⟨iterator.body.labelCount + 1⟩ c.progress c.rewritten) := by
  have code := c.code
  rw [StateMachine.code, c.methods, List.map_cons] at code
  injection code with step
  exact congrArg Prod.snd step

theorem dispose_root : machine.dispose.body.root = disposeRoot c.dispatch := by
  have code := c.code
  rw [StateMachine.code, c.methods, List.map_cons, List.map_cons] at code
  injection code with _ code
  injection code with dispose
  exact congrArg Prod.snd dispose

end Composition

/-- What is written for a body weighs no more than the body and what can be drawn after it. -/
theorem weight_methods {body : Body} {facts : YieldFacts} {rewritten dispatch : List Stmt}
    {progress : Progress} {ids : FreshIds}
    (rewrites : RewritesAll (.of body facts) {} (.begun body) body.root rewritten progress)
    (due : Dispose.Due progress.frames handlerMethod ⟨0⟩ FrameTree.root progress.ids dispatch ids)
    (t : Tally) :
    t.stmts (stepRoot facts.hasFrames
          (stepStmts ⟨body.labelCount⟩ ⟨body.labelCount + 1⟩ progress rewritten)) +
        (t.stmts (disposeRoot dispatch) + (progress.handlers.map (t.stmts ·.body.root)).sum) +
        t.labels ids.labelCount + t.tries ids.tryCount ≤
      t.stmts body.root + t.labels body.labelCount + t.tries body.tryCount := by
  have written := RewritesAll.weight (t := t) rewrites
  have due := due.weight (t := t)
  have start : (Progress.begun body).weight t =
      t.labels (body.labelCount + 2) + t.tries body.tryCount := congrArg (· + _) (Nat.zero_add _)
  have first := t.drawLabel body.labelCount
  have second : t.labels (body.labelCount + 2) + t.label ⟨body.labelCount + 1⟩ ≤
      t.labels (body.labelCount + 1) := t.drawLabel _
  have stmts : t.stmts (stepStmts ⟨body.labelCount⟩ ⟨body.labelCount + 1⟩ progress rewritten) =
      t.label ⟨body.labelCount + 1⟩ + t.stmts rewritten + t.label ⟨body.labelCount⟩ := by
    have clear : t.stmts (clearAnswer progress.result?) = 0 := by
      cases progress.result? <;> rfl
    unfold stepStmts
    rw [t.stmts_append, t.stmts_append, t.stmts_append, clear]
    rfl
  have step : ∀ stmts, t.stmts (stepRoot facts.hasFrames stmts) = t.stmts stmts := by
    intro stmts
    unfold stepRoot
    split
    · rw [t.stmts_cons, t.stmt_tryFault]
      rfl
    · rfl
  have dispose : t.stmts (disposeRoot dispatch) = t.stmts dispatch := by
    unfold disposeRoot
    rw [List.cons_append, t.stmts_cons, t.stmts_append]
    exact (Nat.zero_add _).trans (Nat.add_zero _)
  rw [start] at written
  unfold Progress.weight at written
  rw [step, stmts, dispose]
  omega

/-- How a machine was made of an iterator. -/
structure Assembly (iterator : IteratorMethod) (machine : StateMachine) where
  facts : YieldFacts
  /-- The written statements of the body. -/
  rewritten : List Stmt
  /-- What lowering had made of the body in the end. -/
  progress : Progress
  /-- What the dispose method does for the frames. -/
  dispatch : List Stmt
  ids : FreshIds
  regular : iterator.body.Regular
  analysed : YieldFacts.ofBody iterator.body = .ok facts
  room : iterator.body.labelCount + 2 < idLimit
  rewrites : RewritesAll (.of iterator.body facts) {} (.begun iterator.body) iterator.body.root
    rewritten progress
  due : Dispose.Due progress.frames handlerMethod ⟨0⟩ FrameTree.root progress.ids dispatch ids
  fields : machine.fields = machineFields iterator
  code : machine.code =
    (progress.locals, stepRoot facts.hasFrames
      (stepStmts ⟨iterator.body.labelCount⟩ ⟨iterator.body.labelCount + 1⟩ progress rewritten)) ::
    ([{ name := none, ty := .int32 }], disposeRoot dispatch) ::
    progress.handlers.map fun m => (m.body.locals, m.body.root)
  counts : ∀ m ∈ machine.methods,
    m.body.labelCount = ids.labelCount ∧ m.body.tryCount = ids.tryCount

theorem nonempty_assembly {symbols : Symbols} {options : LoweringOptions}
    (regular : iterator.body.Regular) (h : lowerIterator symbols options iterator = .ok machine) :
    Nonempty (Assembly iterator machine) := by
  obtain ⟨c⟩ := nonempty_composition regular.tries h
  exact ⟨
    { facts := c.facts, rewritten := c.rewritten, progress := c.progress, dispatch := c.dispatch
      ids := c.ids, regular, analysed := c.analysed, room := c.room, rewrites := c.rewrites
      due := c.due, fields := c.fields, code := c.code, counts := c.counts }⟩

namespace Assembly

variable (a : Assembly iterator machine)

theorem readable : ReadableAll (.of iterator.body a.facts) iterator.body.labelCount
    iterator.body.root :=
  readable_body a.regular a.analysed

theorem evolves : Evolves iterator.body.labelCount (Stmt.anyBreaks iterator.body.root)
    (.begun iterator.body) a.progress :=
  RewritesAll.evolves a.rewrites a.readable.suspendable (sound_begun a.room) Nat.one_pos

theorem sound : a.progress.Sound iterator.body.labelCount := a.evolves.sound

/-- The body of the iterator over the fields of its machine. -/
def hoisted (_ : Assembly iterator machine) : List Stmt :=
  Stmt.hoistAll iterator.body.params.length iterator.body.root

def plan : Plan where
  base := iterator.body.labelCount
  exit := ⟨iterator.body.labelCount⟩
  resumeLabels := a.progress.resumeLabels
  handlers := a.progress.handlers.map (·.body.root)
  frames := a.progress.frames
  tries := frameIds (Stmt.triesAll iterator.body.root)
  yields := Stmt.yieldSitesAll [] a.hoisted

/-- The whole body lies outside all frames. -/
def site : Site where
  proxies := (a.progress.frames.frame FrameTree.root).proxies
  result := a.progress.result?

theorem context : Writes a.plan a.site {} (.begun iterator.body) a.progress []
    (Stmt.anyYields iterator.body.root) (Stmt.anyBreaks iterator.body.root)
    (frameIds (Stmt.triesAll iterator.body.root)) (Stmt.yieldSitesAll [] a.hoisted) where
  sound := sound_begun a.room
  lies := .root rfl Nat.one_pos
  started := Nat.le_refl _
  agrees :=
    { resume := List.prefix_rfl
      known := fun _ _ _ => rfl
      handlers := fun g _ _ => List.getElem?_map }
  frames := List.prefix_rfl
  sites := List.prefix_rfl
  left _ := Nat.add_comm 1 _
  around := rfl
  placed := ⟨rfl, rfl, fun nested => absurd rfl nested, fun _ hp => hp⟩
  before r hr := by
    refine .inr ⟨rfl, ?_⟩
    rcases a.evolves.grows.result with same | ⟨-, r', made, low, -⟩
    · cases same.symm.trans hr
    · cases made.symm.trans hr
      exact low
  after r hr := by
    refine .inl ⟨hr, ?_⟩
    rcases a.evolves.grows.result with same | ⟨-, r', made, -, high⟩
    · cases same.symm.trans hr
    · cases made.symm.trans hr
      exact high
  answer _ _ made := made
  native _ := rfl
  leaves _ _ := rfl

theorem written : WrittenAll a.plan a.site a.hoisted a.rewritten :=
  RewritesAll.written rfl a.rewrites a.readable a.context fun _ _ => .inl rfl

theorem fresh : Fresh a.plan a.site where
  exit := Nat.le_refl _
  proxies pair hp := (a.sound.proxies _ pair hp).1

/-- The statements of the step method. -/
def stepStmts : List Stmt :=
  Lowering.stepStmts ⟨iterator.body.labelCount⟩ ⟨iterator.body.labelCount + 1⟩ a.progress a.rewritten

theorem step : ∃ m, machine.methods[stepMethod.index]? = some m ∧
    m.body.locals = a.progress.locals ∧ m.body.root = stepRoot a.facts.hasFrames a.stepStmts := by
  refine StateMachine.exists_method ?_
  rw [a.code]
  rfl

theorem dispose : ∃ m, machine.methods[disposeMethod.index]? = some m ∧
    m.body.locals = [{ name := none, ty := .int32 }] ∧ m.body.root = disposeRoot a.dispatch := by
  refine StateMachine.exists_method ?_
  rw [a.code]
  rfl

theorem handler {g : Nat} {m : SynthesizedMethod} (h : a.progress.handlers[g]? = some m) :
    ∃ m', machine.methods[(handlerMethod g).index]? = some m' ∧ m'.body.locals = m.body.locals ∧
      m'.body.root = m.body.root := by
  refine StateMachine.exists_method ?_
  have shift : (handlerMethod g).index = g + 2 := Nat.add_comm 2 g
  rw [a.code, shift, List.getElem?_cons_succ, List.getElem?_cons_succ, List.getElem?_map, h]
  rfl

/-- The methods of a machine weigh no more than the body and what can be drawn after it. -/
theorem weight (t : Tally) :
    (machine.code.map fun code => t.stmts code.2).sum + t.labels a.ids.labelCount +
        t.tries a.ids.tryCount ≤
      t.stmts iterator.body.root + t.labels iterator.body.labelCount +
        t.tries iterator.body.tryCount := by
  have handlers : (List.map (fun code => t.stmts code.2)
      (a.progress.handlers.map fun m => (m.body.locals, m.body.root))).sum =
        (a.progress.handlers.map (t.stmts ·.body.root)).sum := by
    rw [List.map_map]
    rfl
  rw [a.code, List.map_cons, List.map_cons, List.sum_cons, List.sum_cons, handlers]
  exact weight_methods a.rewrites a.due t

theorem count_labels (l : LabelId) :
    (machine.code.flatMap fun code => Stmt.labelsAll code.2).count l +
        (if a.ids.labelCount ≤ l.index then 1 else 0) ≤
      (Stmt.labelsAll iterator.body.root).count l +
        (if iterator.body.labelCount ≤ l.index then 1 else 0) := by
  have weight := a.weight (.ofLabel l)
  simp only [Tally.stmts_ofLabel] at weight
  rw [List.count_flatMap]
  exact weight

theorem count_tries (id : TryId) :
    (machine.code.flatMap fun code => Stmt.tryIdsAll code.2).count id +
        (if a.ids.tryCount ≤ id.index then 1 else 0) ≤
      (Stmt.tryIdsAll iterator.body.root).count id +
        (if iterator.body.tryCount ≤ id.index then 1 else 0) := by
  have weight := a.weight (.ofTry id)
  simp only [Tally.stmts_ofTry] at weight
  rw [List.count_flatMap]
  have none : ∀ n, (Tally.ofTry id).labels n = 0 := fun _ => rfl
  rw [none, none, Nat.add_zero, Nat.add_zero] at weight
  exact weight

include a in
/-- No label of a machine is defined twice. -/
theorem nodup_labels : (machine.code.flatMap fun code => Stmt.labelsAll code.2).Nodup :=
  (distinct_of_count a.count_labels a.regular.labels a.regular.labelCount).1

theorem label_lt : ∀ l ∈ machine.code.flatMap fun code => Stmt.labelsAll code.2,
    l.index < a.ids.labelCount :=
  (distinct_of_count a.count_labels a.regular.labels a.regular.labelCount).2

include a in
theorem nodup_tries : (machine.code.flatMap fun code => Stmt.tryIdsAll code.2).Nodup :=
  (distinct_of_count a.count_tries a.regular.tries a.regular.tryCount).1

theorem try_lt : ∀ id ∈ machine.code.flatMap fun code => Stmt.tryIdsAll code.2,
    id.index < a.ids.tryCount :=
  (distinct_of_count a.count_tries a.regular.tries a.regular.tryCount).2

include a in
/-- The step method defines no label below those of the body but the labels of the body. -/
theorem label_of_body {c : List LocalDecl × List Stmt} (h : c ∈ machine.code) {l : LabelId}
    (defined : l ∈ Stmt.labelsAll c.2) (below : l.index < iterator.body.labelCount) :
    l ∈ Stmt.labelsAll iterator.body.root := by
  have count := a.count_labels l
  have mem : l ∈ machine.code.flatMap fun code => Stmt.labelsAll code.2 :=
    List.mem_flatMap.mpr ⟨c, h, defined⟩
  have some := List.count_pos_iff.mpr mem
  rw [if_neg (Nat.not_le.mpr below)] at count
  exact List.count_pos_iff.mp (by omega)

end Assembly

end Lowering

end ManagedCode
