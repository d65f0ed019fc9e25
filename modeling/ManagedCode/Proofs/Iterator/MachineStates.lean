import ManagedCode.Proofs.Iterator.Numbering
import ManagedCode.Proofs.Iterator.Rejections
import ManagedCode.Proofs.Lists

namespace ManagedCode

open Lowering

/-- A machine has a state for each yield of a body and for each try statement around one. -/
structure StateMachine.Numbering (machine : StateMachine) (body : Body) : Prop where
  resumeStates : machine.resumeStates = (List.range (body.yielded.length + 1)).map Int.ofNat
  cases : machine.resumeDispatch.map (·.1.toInt) = machine.resumeStates
  distinct : (machine.resumeDispatch.map (·.2)).Nodup
  definedOnce : ∀ case ∈ machine.resumeDispatch,
    (Stmt.labelsAll machine.step.body.root).count case.2 = 1
  /-- The first label is where the machine starts, and the others are where it goes on. -/
  resumes : ∃ start rest, machine.resumeDispatch.map (·.2) = start :: rest ∧
    [.label start, setState runningState] <:+: machine.stepStmts ∧
    List.Forall₂ (fun site label => Stmt.InBlocks
        (resumption body.params.length body.finalizeState site.1 site.2 label) machine.stepStmts)
      (body.yieldSites.zipIdx 1) rest
  /-- No yield is left out, and all try statements around one have states. -/
  sites : body.yieldSites.map (·.1) = body.yielded
  around : ∀ site ∈ body.yieldSites, ∀ id ∈ site.2, id ∈ body.suspendingTries.map (·.id)
  finalizeStates : machine.finalizeStates =
    (List.range body.suspendingTries.length).map fun i : Nat => firstFinalizeState - i
  methods : machine.methods.length = 2 + body.suspendingTries.length
  handlers : ∀ (i : Nat) (try_ : SuspendingTry), body.suspendingTries[i]? = some try_ →
    body.finalizeState (some try_.id) = firstFinalizeState - i ∧
    ∃ m rest, machine.methods[(handlerMethod i).index]? = some m ∧
      m.kind = .handler (firstFinalizeState - i) ∧
      m.body.root = setState (body.finalizeState try_.outer?) :: rest
  /-- Only where there are handlers does an exception run the dispose method. -/
  region : machine.step.body.root = stepRoot (!body.suspendingTries.isEmpty) machine.stepStmts

namespace Lowering

theorem start_infix_stepStmts (exit start : LabelId) (progress : Progress) (rewritten : List Stmt) :
    [.label start, setState runningState] <:+: stepStmts exit start progress rewritten := by
  refine ⟨(prologue progress.resumeLabels start).take 3,
    rewritten ++ clearAnswer progress.result? ++ epilogue exit progress.result?, ?_⟩
  rw [stepStmts, ← List.append_assoc, ← List.append_assoc]
  rfl

theorem rewritten_infix_stepStmts (exit start : LabelId) (progress : Progress)
    (rewritten : List Stmt) : rewritten <:+: stepStmts exit start progress rewritten := by
  refine ⟨prologue progress.resumeLabels start,
    clearAnswer progress.result? ++ epilogue exit progress.result?, ?_⟩
  rw [stepStmts, ← List.append_assoc]

namespace Composition

variable {iterator : IteratorMethod} {machine : StateMachine} (c : Composition iterator machine)
include c

theorem sound : c.progress.Sound iterator.body.labelCount :=
  (RewritesAll.evolves c.rewrites c.known.suspendable (sound_begun c.room) Nat.one_pos).sound

theorem stepStmts : machine.stepStmts =
    stepStmts ⟨iterator.body.labelCount⟩ ⟨iterator.body.labelCount + 1⟩ c.progress c.rewritten := by
  unfold StateMachine.stepStmts
  rw [c.step_root]
  cases c.facts.hasFrames <;> rfl

theorem resumeDispatch : machine.resumeDispatch =
    c.progress.resumeLabels.mapIdx fun state label => (Int64.ofNat state, label) := by
  unfold StateMachine.resumeDispatch
  rw [c.stepStmts]
  rfl

theorem dispatched : machine.resumeDispatch.map (·.2) = c.progress.resumeLabels := by
  rw [c.resumeDispatch]
  exact map_snd_dispatch _

/-- The states are few enough to be told apart as 64-bit numbers. -/
theorem cases : machine.resumeDispatch.map (·.1.toInt) = machine.resumeStates := by
  rw [c.resumeDispatch, c.resumeStates]
  refine List.ext_getElem (by simp) fun i h _ => ?_
  have room : i < c.progress.resumeLabels.length := by simpa using h
  have few := c.sound.states
  have limit := c.sound.limit
  have small : i < 2 ^ 63 := by
    unfold idLimit at limit
    omega
  rw [List.getElem_map, List.getElem_mapIdx, List.getElem_map, List.getElem_range]
  exact Int64.toInt_ofNat_of_lt small

/-- The step method defines no label twice. -/
theorem nodup_labels_step (distinct : (Stmt.labelsAll iterator.body.root).Nodup)
    (below : ∀ l ∈ Stmt.labelsAll iterator.body.root, l.index < iterator.body.labelCount) :
    (Stmt.labelsAll machine.step.body.root).Nodup := by
  have count : ∀ l, (Stmt.labelsAll machine.step.body.root).count l +
      (if c.ids.labelCount ≤ l.index then 1 else 0) ≤
      (Stmt.labelsAll iterator.body.root).count l +
        (if iterator.body.labelCount ≤ l.index then 1 else 0) := by
    intro l
    have weight := weight_methods c.rewrites c.due (.ofLabel l)
    rw [← c.step_root] at weight
    simp only [Tally.stmts_ofLabel] at weight
    change _ + (if c.ids.labelCount ≤ l.index then 1 else 0) + 0 ≤
      _ + (if iterator.body.labelCount ≤ l.index then 1 else 0) + 0 at weight
    omega
  exact (distinct_of_count count distinct below).1

/-- The labels of the dispatch are among those of the step method, in the same order. -/
theorem dispatched_sublist {rest : List LabelId}
    (resume : c.progress.resumeLabels = ⟨iterator.body.labelCount + 1⟩ :: rest)
    (inOrder : rest.Sublist (Stmt.plainLabelsAll c.rewritten)) :
    (machine.resumeDispatch.map (·.2)).Sublist (Stmt.labelsAll machine.step.body.root) := by
  rw [c.dispatched, resume, c.step_root, labelsAll_stepRoot]
  refine List.Sublist.trans ?_ (Stmt.plainLabelsAll_sublist _)
  rw [plainLabelsAll_stepStmts]
  exact (inOrder.trans (List.sublist_append_left _ _)).cons_cons _

/-- The handlers of a machine are those that were made. -/
theorem handler {tries : List SuspendingTry}
    (houses : Houses (Finalizes iterator.body.finalizeState) tries (.begun iterator.body)
      c.progress) {i : Nat} {try_ : SuspendingTry} (h : tries[i]? = some try_) :
    ∃ m, machine.methods[(handlerMethod i).index]? = some m ∧
      Finalizes iterator.body.finalizeState try_ m := by
  obtain ⟨made, split, each⟩ := houses
  obtain ⟨m, found, finalizes⟩ := forall₂_getElem? each h
  have all : c.progress.handlers = made := split
  have shift : (handlerMethod i).index = i + 2 := Nat.add_comm 2 i
  refine ⟨{ m with body := { m.body with
    labelCount := c.ids.labelCount, tryCount := c.ids.tryCount } }, ?_, finalizes⟩
  rw [c.methods, shift, List.getElem?_cons_succ, List.getElem?_cons_succ, c.handlers, all,
    List.getElem?_map, found]
  rfl

theorem region : machine.step.body.root =
    stepRoot (!iterator.body.suspendingTries.isEmpty) machine.stepStmts := by
  have frames : c.facts.hasFrames = !iterator.body.suspendingTries.isEmpty := by
    rw [Bool.eq_iff_iff, Body.hasFrames_iff c.analysed, Bool.not_eq_true',
      List.isEmpty_eq_false_iff]
  rw [c.stepStmts, ← frames]
  exact c.step_root

/-- What the states of a machine are, for a body in which all labels and all ids of try statements
are distinct. -/
theorem numbering (labels : (Stmt.labelsAll iterator.body.root).Nodup)
    (below : ∀ l ∈ Stmt.labelsAll iterator.body.root, l.index < iterator.body.labelCount)
    (tries : (Stmt.tryIdsAll iterator.body.root).Nodup) : machine.Numbering iterator.body := by
  have fine := c.known.suspendable
  have distinct := Body.nodup_suspendingTries tries fine
  have numbers := c.numbers distinct
  have length := c.length_resumeLabels tries
  have once := c.nodup_labels_step labels below
  have sites : iterator.body.yieldSites.map (·.1) = iterator.body.yielded :=
    Stmt.map_fst_yieldSitesAll iterator.body.root fine []
  obtain ⟨rest, split, inOrder, each⟩ := numbers.resumes
  have resume : c.progress.resumeLabels = ⟨iterator.body.labelCount + 1⟩ :: rest := split
  have frames : c.progress.handlers.length = iterator.body.suspendingTries.length :=
    numbers.houses.length.trans (Nat.zero_add _)
  have states : machine.resumeStates =
      (List.range (iterator.body.yielded.length + 1)).map Int.ofNat := by
    rw [c.resumeStates, length]
  have among := c.dispatched_sublist resume inOrder
  exact
    { resumeStates := states
      cases := c.cases
      distinct := once.sublist among
      definedOnce := fun case mem =>
        List.count_eq_one_of_mem once (among.subset (List.mem_map_of_mem mem))
      resumes := by
        refine ⟨_, rest, c.dispatched.trans resume, ?_, each.imp fun _ _ h => h.mono ?_⟩
        · rw [c.stepStmts]
          exact start_infix_stepStmts _ _ _ _
        · rw [c.stepStmts]
          exact rewritten_infix_stepStmts _ _ _ _
      sites
      around := fun site mem id inside =>
        (Stmt.around_yieldSitesAll iterator.body.root site mem id inside).resolve_left
          List.not_mem_nil
      finalizeStates := by rw [c.finalizeStates, frames]
      methods := by
        rw [c.methods, c.handlers, List.length_cons, List.length_cons, List.length_map, frames]
        omega
      handlers := fun i try_ h => by
        have state := Body.finalizeState_getElem? distinct h
        obtain ⟨m, found, kind, rest, root⟩ := c.handler numbers.houses h
        exact ⟨state, m, rest, found, by rw [kind, state], root⟩
      region := c.region }

end Composition

end Lowering

/-- The states of the machine of a body with distinct labels and distinct ids of try statements are
numbered in the order of the source. A method of the program has a machine if its body is accepted,
leaves enough ids and has no more yields than there are numbers for their states. -/
theorem states_numbered (symbols : Symbols) (options : LoweringOptions) {iterator : IteratorMethod}
    (labels : (Stmt.labelsAll iterator.body.root).Nodup)
    (below : ∀ l ∈ Stmt.labelsAll iterator.body.root, l.index < iterator.body.labelCount)
    (tries : (Stmt.tryIdsAll iterator.body.root).Nodup) :
    (iterator.method.index < symbols.methods.length → iterator.body.LeavesRoom →
      iterator.body.yielded.length + 1 < stateLimit →
      (∃ facts, YieldFacts.ofBody iterator.body = .ok facts) →
      Stmt.UsesAll (.slotted iterator.body.params.length False) iterator.body.root →
      ∃ machine, lowerIterator symbols options iterator = .ok machine) ∧
    ∀ machine, lowerIterator symbols options iterator = .ok machine →
      machine.Numbering iterator.body := by
  constructor
  · intro known room states accepted uses
    exact exists_lowerIterator options known tries room states
      ((YieldFacts.exists_ofBody_iff tries).mp accepted) uses
  · intro machine lowered
    obtain ⟨c⟩ := nonempty_composition tries lowered
    exact c.numbering labels below tries

/-- `yield 1; try { yield 2; try { yield 3 } finally { } } finally { } try { } catch { } yield 4` -/
def mixedIterator : IteratorMethod where
  method := default
  elementTy := .int32
  body :=
    { root := [.yield (.int 1),
        .tryCatch ⟨0⟩ [.yield (.int 2), .tryCatch ⟨1⟩ [.yield (.int 3)] [] (some [.nop])] []
          (some [.nop]),
        .tryCatch ⟨2⟩ [.nop] [.mk none none [.nop]] none, .yield (.int 4)]
      tryCount := 3 }

theorem states_numbered_mixed : mixedIterator.body.yielded = [.int 1, .int 2, .int 3, .int 4] ∧
    mixedIterator.body.suspendingTries.map (fun t => (t.id, t.outer?)) =
      [(⟨0⟩, none), (⟨1⟩, some ⟨0⟩)] ∧
    ∃ machine, lowerIterator .oneMethod {} mixedIterator = .ok machine ∧
      machine.Numbering mixedIterator.body := by
  obtain ⟨exists_, numbered⟩ :=
    @states_numbered .oneMethod {} mixedIterator (by decide) (by decide) (by decide)
  obtain ⟨machine, lowered⟩ := exists_ (by decide) ⟨by decide, by decide⟩ (by decide) ⟨_, rfl⟩ (by
    simp [mixedIterator, Stmt.UsesAll, Stmt.Uses, Catch.UsesAll, Expr.int, Expr.Uses,
      Vocabulary.slotted, Vocabulary.any])
  exact ⟨rfl, rfl, machine, lowered, numbered machine lowered⟩

end ManagedCode
