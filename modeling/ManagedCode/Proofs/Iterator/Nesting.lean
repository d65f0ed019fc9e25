import Mathlib.Data.List.Perm.Subperm
import ManagedCode.Proofs.Iterator.Assembly

namespace ManagedCode

namespace Lowering

variable {σ : Type} {iterator : IteratorMethod} {machine : StateMachine}

/-! The states of a whole machine. -/

namespace Assembly

variable (a : Assembly iterator machine)

theorem draws : Counts a.plan.tries a.plan.yields (.begun iterator.body) a.progress :=
  RewritesAll.counts a.rewrites a.readable []

theorem length_handlers : a.progress.handlers.length = a.plan.tries.length :=
  a.draws.handlers.trans (Nat.zero_add _)

theorem length_resumeLabels : a.plan.resumeLabels.length = a.plan.yields.length + 1 :=
  a.draws.resume.trans (Nat.add_comm 1 _)

/-- The frames are try statements of the body. -/
theorem tries_sublist : a.plan.tries.Sublist (Stmt.tryIdsAll iterator.body.root) :=
  List.filter_sublist.map _

/-- The number of a frame is where it stands among the frames. -/
theorem idxOf_tries {g : Nat} {id : TryId} (h : a.plan.tries[g]? = some id) :
    a.plan.tries.idxOf id = g := by
  obtain ⟨room, rfl⟩ := List.getElem?_eq_some_iff.mp h
  exact (a.regular.tries.sublist a.tries_sublist).idxOf_getElem g room

/-- There are no more frames than try ids. -/
theorem length_tries_le : a.plan.tries.length ≤ idLimit := by
  have numbers : ((Stmt.tryIdsAll iterator.body.root).map (·.index)).Nodup := by
    refine List.Nodup.map ?_ a.regular.tries
    rintro ⟨i⟩ ⟨j⟩ same
    exact congrArg TryId.mk same
  have below : (Stmt.tryIdsAll iterator.body.root).map (·.index) ⊆
      List.range iterator.body.tryCount := by
    intro i hi
    obtain ⟨id, mem, rfl⟩ := List.mem_map.mp hi
    exact List.mem_range.mpr (a.regular.tryCount id mem)
  have few := (List.subperm_of_subset numbers below).length_le
  rw [List.length_map, List.length_range] at few
  exact Nat.le_trans (Nat.le_trans a.tries_sublist.length_le few) a.regular.tryLimit

/-- Every state is a number that the state field can hold. -/
theorem fits {s : Int} (h : a.progress.Allocated s) : Fits s := by
  have states := a.sound.states
  have labels := a.sound.limit
  have frames := a.length_tries_le
  rw [← a.length_handlers] at frames
  unfold idLimit at labels frames
  rcases h with ⟨k, hk, rfl⟩ | ⟨g, hg, rfl⟩
  · exact Int64.toInt_ofInt_of_le (by omega) (by omega)
  · unfold frameState firstFinalizeState
    exact Int64.toInt_ofInt_of_le (by omega) (by omega)

theorem dueIn : DueIn a.plan.frames handlerMethod ⟨0⟩ FrameTree.root a.dispatch :=
  a.due.dueIn a.sound.nested fun _ => a.fits

/-- A state that stands for no yield and no frame lies under no frame. -/
theorem covers_nil {s : Int} (other : ¬a.progress.Allocated s) : a.plan.frames.Covers s [] :=
  a.sound.known_eq_none other

theorem not_allocated {s : Int} (low : firstFinalizeState < s) (high : s < 0) :
    ¬a.progress.Allocated s := by
  rintro (⟨k, -, rfl⟩ | ⟨g, -, rfl⟩)
  · omega
  · unfold frameState at low
    omega

/-- So does the state before the first step. -/
theorem covers_initial : a.plan.frames.Covers initialState [] := by
  have first : (Progress.begun iterator.body).Allocated initialState :=
    .inl ⟨0, Nat.one_pos, rfl⟩
  exact a.evolves.grows.known FrameTree.root initialState first

theorem hasFrames {g : Nat} {id : TryId} (h : a.plan.tries[g]? = some id) :
    a.facts.hasFrames = true := by
  have mem : id ∈ frameIds (Stmt.triesAll iterator.body.root) := List.mem_of_getElem? h
  obtain ⟨t, ht, rfl⟩ := List.mem_map.mp mem
  obtain ⟨ht, yields⟩ := List.mem_filter.mp ht
  have known := (a.readable.described t ht).yields
  have suspends : t.id ∈ a.facts.suspending := by
    unfold YieldFacts.containsYield at known
    exact of_decide_eq_true (known.trans yields)
  unfold YieldFacts.hasFrames
  cases found : a.facts.suspending with
  | nil =>
    rw [found] at suspends
    cases suspends
  | cons => rfl

include a in
/-- No label that jumps of the step method can go to is defined twice. -/
theorem nodup_stepStmts : (Stmt.plainLabelsAll a.stepStmts).Nodup := by
  have whole := a.nodup_labels
  rw [a.code, List.flatMap_cons] at whole
  have root := (List.nodup_append.mp whole).1
  rw [labelsAll_stepRoot] at root
  exact root.sublist (Stmt.plainLabelsAll_sublist _)

/-- A jump that leads out of the body leads nowhere in the step method. -/
theorem not_mem_stepStmts {l : LabelId} (h : l ∈ Stmt.escapesAll a.hoisted) :
    l ∉ Stmt.plainLabelsAll a.stepStmts := by
  intro defined
  have escapes : l ∈ Stmt.escapesAll iterator.body.root := by
    rwa [hoisted, Stmt.escapesAll_hoistAll] at h
  obtain ⟨below, missing⟩ := a.regular.jumps l escapes
  have inCode := Stmt.plainLabelsAll_subset a.stepStmts l defined
  refine missing (a.label_of_body (c := (a.progress.locals, stepRoot a.facts.hasFrames
    a.stepStmts)) ?_ ?_ below)
  · rw [a.code]
    exact List.mem_cons_self
  · rwa [labelsAll_stepRoot]

end Assembly

/-- The environments in which the hoisted body and the machine are run. -/
structure Assembly.Setting (a : Assembly iterator machine) (observer : Observer σ)
    (E M : Environment σ) : Prop where
  hosted : Hosted E M
  methods : M.methods = machine.methods
  entered : ∀ s g id, s.entered? = some g → a.plan.tries[g]? = some id →
    M.watch s = observer.entered id
  leaving : ∀ g id, a.plan.tries[g]? = some id → M.watch (handlerCall g) = observer.leaving id

namespace Assembly

variable {a : Assembly iterator machine} {observer : Observer σ} {E M : Environment σ}

theorem Setting.equipped (setting : a.Setting observer E M) : Equipped a.plan observer E M where
  hosted := setting.hosted
  handlers g code h := by
    obtain ⟨m, found, rfl⟩ := Option.map_eq_some_iff.mp ((List.getElem?_map ..).symm.trans h)
    obtain ⟨m', here, -, root⟩ := a.handler found
    exact ⟨m', setting.methods ▸ here, root⟩
  entered := setting.entered
  leaving := setting.leaving

end Assembly

/-! Where an execution is inside open try statements. -/

/-- A list of the body whose statements are executed, inside try statements that are open, and what
it was written as. -/
structure Level where
  site : Site
  source : List Stmt
  /-- The written list: the statements of `source` stand between `head` and `tail`. -/
  code : List Stmt
  head : List Stmt
  tail : List Stmt
  opened : List OpenTry := []
  /-- Where the step method goes on after the written list. -/
  outer : Point := []

/-- Points in the list of a level and in what it was written as. -/
def Level.Aligns (plan : Plan) (level : Level) (p p' : Point) : Prop :=
  Aligned plan level.site [] level.head level.tail level.source level.code p p'

/-- A try statement of the body that became a frame, as it stands in a list and in what was
written. -/
structure Level.Frame (plan : Plan) (level : Level) where
  inner : Site
  g : Nat
  id : TryId
  body : List Stmt
  cleanup : List Stmt
  stmts : List Stmt
  leave : List Stmt
  clause : List Stmt
  /-- The list that holds the statement, what follows the statement, and the lists around it. -/
  s : List Stmt
  s' : List Stmt
  around : Point
  t : List Stmt
  t' : List Stmt
  around' : Point
  written : WrittenAll plan inner body stmts
  cleans : WrittenAll plan (level.site.followed (Point.yieldCount (⟨s, s'⟩ :: around))).cleaning
    cleanup clause
  framed : Framed plan (level.site.followed (Point.yieldCount (⟨s, s'⟩ :: around))) inner g id body
    cleanup leave clause
  aligned : level.Aligns plan (⟨s, s'⟩ :: around) (⟨t, t'⟩ :: around')
  here : .tryCatch id body [] (some cleanup) :: s' <:+ s
  here' : .block (setState inner.state :: stmts ++ leave) :: t' <:+ t

namespace Level.Frame

variable {plan : Plan} {level : Level} (frame : level.Frame plan)

def after : Point := ⟨frame.s, frame.s'⟩ :: frame.around

/-- Where the step method goes on after the frame. -/
def after' : Point := ⟨frame.t, frame.t'⟩ :: (frame.around' ++ level.outer)

def opens : OpenTry := ⟨frame.id, [], some frame.cleanup, frame.after⟩

/-- The level of the body of the try statement. -/
def below : Level where
  site := frame.inner
  source := frame.body
  code := setState frame.inner.state :: frame.stmts ++ frame.leave
  head := [setState frame.inner.state]
  tail := frame.leave
  opened := frame.opens :: level.opened
  outer := frame.after'

end Level.Frame

namespace Assembly

variable (a : Assembly iterator machine)

/-- The body itself in the step method. -/
def outermost : Level where
  site := a.site
  source := a.hoisted
  code := a.stepStmts
  head := prologue a.progress.resumeLabels ⟨iterator.body.labelCount + 1⟩
  tail := clearAnswer a.progress.result? ++ epilogue ⟨iterator.body.labelCount⟩ a.progress.result?

/-- The levels of a machine, each in a frame of the one around it. -/
inductive Nests : Level → Prop
  | root : Nests a.outermost
  | frame {level : Level} (around : Nests level) (frame : level.Frame a.plan) : Nests frame.below

end Assembly

namespace Assembly.Nests

variable {a : Assembly iterator machine} {level : Level}

theorem fresh (nests : a.Nests level) : Fresh a.plan level.site := by
  cases nests with
  | root => exact a.fresh
  | frame _ frame => exact ⟨a.fresh.exit, frame.framed.fresh⟩

theorem native (nests : a.Nests level) : level.site.native = false := by
  cases nests with
  | root => rfl
  | frame _ frame => exact frame.framed.native

theorem result (nests : a.Nests level) : level.site.result = a.progress.result? := by
  induction nests with
  | root => rfl
  | frame _ frame ih => exact frame.framed.result.trans ih

/-- Each written list is a block of the step method, or all of it. -/
theorem rooted (nests : a.Nests level) : Rooted a.stepStmts level.code level.outer := by
  induction nests with
  | root => exact fun _ le => .base le
  | frame _ frame ih => exact fun _ le => .block (frame.aligned.at_ ih) frame.here' le

theorem at_ (nests : a.Nests level) {p p' : Point} (aligned : level.Aligns a.plan p p') :
    At a.stepStmts (p' ++ level.outer) :=
  Aligned.at_ aligned nests.rooted

/-- The state in which the machine runs at a level lies under the frames of the level. -/
theorem covers (nests : a.Nests level) :
    a.plan.frames.Covers level.site.state level.site.path ∧ Fits level.site.state := by
  cases nests with
  | root =>
    have running : ¬a.progress.Allocated runningState := a.not_allocated (by decide) (by decide)
    exact ⟨a.covers_nil running, rfl⟩
  | frame _ frame =>
    have path := frame.framed.path
    have state : frame.inner.state = frameState frame.g := by
      unfold Site.state
      rw [path]
      rfl
    have known : frame.g < a.progress.handlers.length := by
      obtain ⟨room, -⟩ := List.getElem?_eq_some_iff.mp frame.framed.handler
      have length : a.plan.handlers.length = a.progress.handlers.length := List.length_map ..
      exact length ▸ room
    change a.plan.frames.Covers frame.inner.state frame.inner.path ∧ Fits frame.inner.state
    rw [state]
    exact ⟨frame.framed.covers, a.fits (.inr ⟨frame.g, known, rfl⟩)⟩

variable {σ : Type} {observer : Observer σ} {E M : Environment σ}

/-- The handler of a frame does what leaving its try statement does. -/
theorem guards (setting : a.Setting observer E M) (nests : a.Nests level)
    (frame : level.Frame a.plan) :
    Guards observer E M frame.opens frame.g level.site.state :=
  Lowering.guards setting.equipped (nests.fresh.followed _) rfl rfl frame.framed.number frame.framed.handler
    frame.cleans frame.framed.closed

theorem tower (setting : a.Setting observer E M) (nests : a.Nests level) :
    Tower observer E M level.opened level.site.path := by
  induction nests with
  | root => exact .nil
  | frame around frame ih =>
    change Tower observer E M (frame.opens :: _) frame.inner.path
    rw [frame.framed.path]
    exact .cons (around.guards setting frame) ih

/-- The yields that come after a level are those after its open try statements. -/
theorem left (nests : a.Nests level) (point : Point) :
    level.site.left + Point.yieldCount point = Coroutine.yieldsAfter point level.opened := by
  induction nests generalizing point with
  | root => exact Nat.zero_add _
  | frame around frame ih =>
    change frame.inner.left + _ = Point.yieldCount point + _
    rw [frame.framed.left, Nat.add_comm]
    exact congrArg (Point.yieldCount point + ·) (ih frame.after)

/-- The frames of a level are those of its open try statements. -/
theorem tries (nests : a.Nests level) :
    level.site.path.map (a.plan.tries[·]?) = (level.opened.map (·.id)).map some := by
  induction nests with
  | root => rfl
  | frame around frame ih =>
    change frame.inner.path.map _ = some frame.id :: _
    rw [frame.framed.path, List.map_cons, frame.framed.number]
    exact congrArg (some frame.id :: ·) ih

theorem length_opened (nests : a.Nests level) : level.opened.length = level.site.path.length := by
  have same := congrArg List.length nests.tries
  rw [List.length_map, List.length_map, List.length_map] at same
  exact same.symm

/-- Where no try statement is around that suspends, nothing is open. -/
theorem opened_eq_nil (nests : a.Nests level) (none : a.facts.hasFrames = false) :
    level.opened = [] := by
  cases nests with
  | root => rfl
  | frame _ frame =>
    have some := a.hasFrames frame.framed.number
    rw [none] at some
    cases some

end Assembly.Nests

end Lowering

end ManagedCode
