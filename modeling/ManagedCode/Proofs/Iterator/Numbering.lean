import ManagedCode.Proofs.Body.YieldSites
import ManagedCode.Proofs.Iterator.Assembly
import ManagedCode.Proofs.Iterator.Housed

namespace ManagedCode

/-- Statements that come one after the other in a list or in a block inside it. -/
inductive Stmt.InBlocks (piece : List Stmt) : List Stmt → Prop
  | here {ss : List Stmt} (h : piece <:+: ss) : InBlocks piece ss
  | block {inner ss : List Stmt} (h : InBlocks piece inner) (mem : .block inner ∈ ss) :
    InBlocks piece ss

theorem Stmt.InBlocks.mono {piece ss ss' : List Stmt} (h : InBlocks piece ss) (le : ss <:+: ss') :
    InBlocks piece ss' := by
  cases h with
  | here h => exact .here (h.trans le)
  | block h mem => exact .block h (le.subset mem)

/-- Where an element is handed out and the next step goes on. -/
def resumption (n : Nat) (state : Option TryId → Int) (site : Expr × List TryId) (number : Nat)
    (label : LabelId) : List Stmt :=
  [.assign (.machineField currentField) (site.1.hoist n), setState number,
    .ret (some (.bool true)), .label label, setState (state site.2.head?)]

/-- A handler has the state of its try statement and begins in the state around it. -/
def Finalizes (state : Option TryId → Int) (try_ : SuspendingTry) (m : SynthesizedMethod) : Prop :=
  m.kind = .handler (state (some try_.id)) ∧
    ∃ rest, m.body.root = setState (state try_.outer?) :: rest

namespace Lowering

open Progress

/-! How lowering numbers the states of a machine. -/

variable {source : Source} {base n : Nat} {state : Option TryId → Int} {p p₁ p' : Progress}
  {tries tries' : List SuspendingTry} {sites sites' : List (Expr × List TryId)}
  {out out' : List Stmt}

/-- The try statements have the states of frames from `start` on. -/
def Numbered (state : Option TryId → Int) (tries : List SuspendingTry) (start : Nat) : Prop :=
  ∀ pair ∈ tries.zipIdx start, state (some pair.1.id) = frameState pair.2

theorem numbered_append {start : Nat} : Numbered state (tries ++ tries') start ↔
    Numbered state tries start ∧ Numbered state tries' (start + tries.length) := by
  rw [Numbered, List.zipIdx_append]
  exact List.forall_mem_append

theorem numbered_of_quiet {ss : List Stmt} {outer? : Option TryId}
    (quiet : Stmt.anyYields ss = false) (start : Nat) :
    Numbered state (Stmt.suspendingTriesAll outer? ss) start := by
  rw [Stmt.suspendingTriesAll_eq_nil outer? ss quiet]
  exact nofun

/-- For some try statements a handler was made, and for some yields a state with a label that is
defined in the code. -/
structure Numbers (n : Nat) (state : Option TryId → Int) (tries : List SuspendingTry)
    (sites : List (Expr × List TryId)) (out : List Stmt) (p p' : Progress) : Prop where
  houses : Houses (Finalizes state) tries p p'
  resumes : ∃ labels, p'.resumeLabels = p.resumeLabels ++ labels ∧
    labels.Sublist (Stmt.plainLabelsAll out) ∧
    List.Forall₂ (fun site label => Stmt.InBlocks (resumption n state site.1 site.2 label) out)
      (sites.zipIdx p.resumeLabels.length) labels

theorem Idle.numbers (h : Idle p p') (out : List Stmt) : Numbers n state [] [] out p p' :=
  ⟨.same h.handlers, [], by rw [h.resume, List.append_nil], List.nil_sublist _, .nil⟩

theorem Idle.numbers_of_quiet (h : Idle p p') {s : Stmt} (quiet : s.yields = false)
    (outer? : Option TryId) (around : List TryId) (out : List Stmt) :
    Numbers n state (s.suspendingTries outer?) (s.yieldSites around) out p p' := by
  rw [Stmt.suspendingTries_eq_nil outer? s quiet, yieldSites_eq_nil s quiet]
  exact h.numbers out

namespace Numbers

theorem idle (h : Numbers n state [] [] out p p') : Idle p p' := by
  obtain ⟨labels, split, -, none⟩ := h.resumes
  cases none
  exact ⟨h.houses.eq_of_nil, split.trans (List.append_nil _)⟩

theorem idle_of_quiet {ss : List Stmt} {outer? : Option TryId} {around : List TryId}
    (h : Numbers n state (Stmt.suspendingTriesAll outer? ss) (Stmt.yieldSitesAll around ss) out
      p p') (quiet : Stmt.anyYields ss = false) : Idle p p' := by
  rw [Stmt.suspendingTriesAll_eq_nil outer? ss quiet, yieldSitesAll_eq_nil ss quiet] at h
  exact h.idle

theorem andThen (h : Numbers n state tries sites out p p₁)
    (h' : Numbers n state tries' sites' out' p₁ p') :
    Numbers n state (tries ++ tries') (sites ++ sites') (out ++ out') p p' := by
  obtain ⟨labels, split, inOrder, each⟩ := h.resumes
  obtain ⟨labels', split', inOrder', each'⟩ := h'.resumes
  have count : p₁.resumeLabels.length = p.resumeLabels.length + sites.length := by
    rw [split, List.length_append, ← each.length_eq, List.length_zipIdx]
  refine ⟨h.houses.trans h'.houses, labels ++ labels', ?_, ?_, ?_⟩
  · rw [split', split, List.append_assoc]
  · rw [Stmt.plainLabelsAll_append]
    exact inOrder.append inOrder'
  · rw [List.zipIdx_append, ← count]
    exact List.rel_append (each.imp fun _ _ h => h.mono (List.prefix_append _ _).isInfix)
      (each'.imp fun _ _ h => h.mono (List.suffix_append _ _).isInfix)

/-- Blocks are seen through. -/
theorem block (h : Numbers n state tries sites out p p') :
    Numbers n state tries sites [.block out] p p' := by
  obtain ⟨labels, split, inOrder, each⟩ := h.resumes
  refine ⟨h.houses, labels, split, ?_, each.imp fun _ _ h => .block h List.mem_cons_self⟩
  rw [Stmt.plainLabelsAll, Stmt.plainLabels, Stmt.plainLabelsAll, List.append_nil]
  exact inOrder

/-- A try statement that suspends gets the handler that is made before those inside it. -/
theorem frame {parent frame : FrameId} {id : TryId} {index : Nat} {p₂ p₃ : Progress}
    (hp : pushFrame source parent id p = .ok ((frame, index), p₁))
    (resume : p₁.resumeLabels = p.resumeLabels)
    (finalize : state (some id) = frameState p.handlers.length)
    (body : Numbers n state tries sites out p₁ p₂) (idle : Idle p₂ p₃) {outer? : Option TryId}
    {cleanup : List Stmt} (enter : Stmt) (leave rest : List Stmt) (locals : List LocalDecl) :
    Numbers n state (⟨id, outer?, cleanup⟩ :: tries) sites [.block (enter :: out ++ leave)] p
      (p₃.withHandler index locals (setState (state outer?) :: rest)) := by
  obtain ⟨labels, split, inOrder, each⟩ := body.resumes
  rw [resume] at split each
  refine .block ⟨?_, labels, idle.resume.trans split, ?_, each.imp fun _ _ h => h.mono ?_⟩
  · exact .frame hp body.houses idle.handlers locals fun _ =>
      ⟨congrArg MethodKind.handler finalize.symm, rest, rfl⟩
  · rw [List.cons_append, Stmt.plainLabelsAll, Stmt.plainLabelsAll_append]
    exact inOrder.trans ((List.sublist_append_left _ _).trans (List.sublist_append_right _ _))
  · exact ⟨[enter], leave, rfl⟩

end Numbers

/-- Lowering is at a place in frame `frame`, which stands for the try statement `outer?`. -/
structure InFrame (base : Nat) (state : Option TryId → Int) (frame : FrameId)
    (outer? : Option TryId) (p : Progress) : Prop where
  sound : p.Sound base
  room : frame.index < p.frames.frames.length
  finalizeState : (p.frames.frame frame).finalizeState = state outer?

theorem InFrame.later {frame : FrameId} {outer? : Option TryId}
    (h : InFrame base state frame outer? p) (grows : Grows p p') (sound : p'.Sound base) :
    InFrame base state frame outer? p' where
  sound
  room := Nat.lt_of_lt_of_le h.room grows.length
  finalizeState := (Frame.finalizeState_eq (grows.fixed frame h.room)).trans h.finalizeState

/-- The frame of a try statement has its state. -/
theorem InFrame.push {parent frame : FrameId} {id : TryId} {index : Nat} {outer? : Option TryId}
    (h : InFrame base state parent outer? p)
    (hp : pushFrame source parent id p = .ok ((frame, index), p₁))
    (finalize : state (some id) = frameState p.handlers.length) :
    ∃ path, Grows p p₁ ∧ Pushed source path id p frame index p₁ ∧
      InFrame base state frame (some id) p₁ := by
  obtain ⟨path, same, lies⟩ := h.sound.nested.paths _ h.room
  obtain ⟨grown, sound, pushed⟩ := pushFrame_grows h.sound lies (same ▸ hp)
  exact ⟨path, grown, pushed, sound, pushed.room, by
    rw [pushed.finalize, finalize, pushed.number]⟩

/-- When a frame is left, lowering is back in the one around it, where it begins a method. -/
theorem InFrame.leave {parent frame : FrameId} {id : TryId} {index : Nat} {outer? : Option TryId}
    {path : List Nat} {p₂ p₃ : Progress} {breaks : Bool} (h : InFrame base state parent outer? p)
    (grown : Grows p p₁) (pushed : Pushed source path id p frame index p₁)
    (body : Evolves base breaks p₁ p₂) (left : Evolves base false (p₂.takeProxies frame) p₃) :
    InFrame base state parent outer? { p₃ with locals := [] } := by
  have before : Grows p p₃ := (pushed.takes h.sound (grown.trans body.grows)).trans left.grows
  have back := h.later before left.sound
  exact ⟨back.sound.of_frames rfl rfl rfl (Nat.le_refl _) back.sound.limit, back.room,
    back.finalizeState⟩

mutual

/-- Each yield has the next state and each try statement around yields the next frame. -/
theorem Rewrites.numbers {s : Stmt} {out : List Stmt} {position : Position} {p p' : Progress}
    {around : List TryId} (h : Rewrites source position p s out p')
    (known : s.Analysed source.facts) (inFrame : InFrame base state position.frame around.head? p)
    (numbered : Numbered state (s.suspendingTries around.head?) p.handlers.length) :
    Numbers source.paramCount state (s.suspendingTries around.head?) (s.yieldSites around) out
      p p' := by
  cases h with
  | block h => exact (RewritesAll.numbers h known.block inFrame numbered).block
  | expr | assign | label | throw | nop | breakOut => exact (Idle.refl p).numbers _
  | goto h | condGoto h => exact (idle_route h).numbers _
  | switch hc hd => exact (hc.idle.trans hd.idle).numbers _
  | yield h =>
    rename_i value number resume
    obtain ⟨path, same, lies⟩ := inFrame.sound.nested.paths _ inFrame.room
    have grown : Grows p p' := (addState_grows lies (same ▸ h)).1
    have finalize := (Frame.finalizeState_eq (grown.fixed _ inFrame.room)).trans
      inFrame.finalizeState
    rw [finalize]
    obtain ⟨rfl, -, -, rfl⟩ := addState_eq_ok h
    exact ⟨.same rfl, [resume], rfl, List.Sublist.refl _, .cons (.here List.infix_rfl) .nil⟩
  | breakTry inside hr h => exact ((idle_resultLocal hr).trans (idle_route h)).numbers _
  | tryCatch plain hb hc =>
    rename_i p₁ id body body' catches catches'
    obtain ⟨quiet, quiet', fineBody, -⟩ := known.suspendable
    have evolves := RewritesAll.evolves hb fineBody inFrame.sound inFrame.room
    have body := RewritesAll.numbers hb known.inBody inFrame (numbered_of_quiet quiet _)
    have catches := RewritesCatches.idle hc known.inCatches quiet'
      (inFrame.later evolves.grows evolves.sound)
    refine ((body.idle_of_quiet quiet).trans catches).numbers_of_quiet ?_ _ _ _
    exact Bool.or_eq_false_iff.mpr ⟨quiet, quiet'⟩
  | tryFinally plain hb hc hf =>
    rename_i p₁ p₂ id body body' cleanup cleanup' catches catches'
    obtain ⟨-, quiet', quiet'', -, fineBody, fineCatches, -⟩ := known.suspendable
    have quiet : Stmt.anyYields body = false := known.containsYield.symm.trans plain
    have evolves := RewritesAll.evolves hb fineBody inFrame.sound inFrame.room
    have inFrame₁ := inFrame.later evolves.grows evolves.sound
    have evolves₁ := RewritesCatches.evolves hc fineCatches inFrame₁.sound inFrame₁.room
    have body := RewritesAll.numbers hb known.inBody inFrame (numbered_of_quiet quiet _)
    have catches := RewritesCatches.idle hc known.inCatches quiet' inFrame₁
    have cleanup := RewritesAll.numbers hf known.inCleanup
      (inFrame₁.later evolves₁.grows evolves₁.sound) (numbered_of_quiet quiet'' _)
    have first := (body.idle_of_quiet quiet).trans catches
    refine (first.trans (cleanup.idle_of_quiet quiet'')).numbers_of_quiet ?_ _ _ _
    exact Bool.or_eq_false_iff.mpr ⟨Bool.or_eq_false_iff.mpr ⟨quiet, quiet'⟩, quiet''⟩
  | frame suspends hp hb hl hc =>
    rename_i p₁ p₂ p₃ p₄ id frame index body stmts cleanup clause leave catches
    obtain ⟨plain, -, quiet, -, fineBody, -⟩ := known.suspendable
    have some : Stmt.anyYields body = true := known.containsYield.symm.trans suspends
    obtain rfl := plain some
    rw [Stmt.suspendingTries, SuspendingTry.here, SuspendingTry.inside, some, if_pos rfl,
      if_pos rfl, Catch.suspendingTriesAll, Stmt.suspendingTriesAll_eq_nil _ cleanup quiet,
      List.append_nil, List.append_nil] at numbered ⊢
    obtain ⟨itself, within⟩ := numbered_append.mp numbered
    have finalize : state (Option.some id) = frameState p.handlers.length :=
      itself _ List.mem_cons_self
    obtain ⟨path, grown, pushed, inside⟩ := inFrame.push hp finalize
    have evolves := RewritesAll.evolves hb fineBody inside.sound inside.room
    have numbers : Numbers _ _ _ (Stmt.yieldSitesAll (id :: around) body) _ _ _ :=
      RewritesAll.numbers hb known.inBody inside (pushed.handlers ▸ within)
    -- the clause is written into the handler, back in the frame around
    have outside := inFrame.leave grown pushed evolves (hl.evolves evolves.sound)
    have cleaned := (RewritesAll.numbers hc known.inCleanup outside
      (numbered_of_quiet quiet _)).idle_of_quiet quiet
    have entered : (p₃.frames.frame position.frame).finalizeState = state around.head? :=
      outside.finalizeState
    rw [entered]
    exact .frame hp pushed.resume finalize numbers (hl.idle.trans ⟨cleaned.handlers, cleaned.resume⟩)
      _ _ _ _
  | tryFault hb hf =>
    rename_i p₁ body body' fault fault'
    obtain ⟨quiet, quiet', fineBody, -⟩ := known.suspendable
    have evolves := RewritesAll.evolves hb fineBody inFrame.sound inFrame.room
    have body := RewritesAll.numbers hb known.inFaultBody inFrame (numbered_of_quiet quiet _)
    have fault := RewritesAll.numbers hf known.inFault
      (inFrame.later evolves.grows evolves.sound) (numbered_of_quiet quiet' _)
    have both := (body.idle_of_quiet quiet).trans (fault.idle_of_quiet quiet')
    refine both.numbers_of_quiet ?_ _ _ _
    exact Bool.or_eq_false_iff.mpr ⟨quiet, quiet'⟩

theorem RewritesAll.numbers {ss out : List Stmt} {position : Position} {p p' : Progress}
    {around : List TryId} (h : RewritesAll source position p ss out p')
    (known : Stmt.AnalysedAll source.facts ss)
    (inFrame : InFrame base state position.frame around.head? p)
    (numbered : Numbered state (Stmt.suspendingTriesAll around.head? ss) p.handlers.length) :
    Numbers source.paramCount state (Stmt.suspendingTriesAll around.head? ss)
      (Stmt.yieldSitesAll around ss) out p p' := by
  cases h with
  | nil => exact (Idle.refl p).numbers _
  | cons hs hss =>
    obtain ⟨first, rest⟩ := numbered_append.mp numbered
    have head := Rewrites.numbers hs known.head inFrame first
    have evolves := Rewrites.evolves hs known.suspendable.1 inFrame.sound inFrame.room
    rw [← head.houses.length] at rest
    exact head.andThen (RewritesAll.numbers hss known.tail
      (inFrame.later evolves.grows evolves.sound) rest)

theorem RewritesCatches.idle {cs out : List Catch} {position : Position} {p p' : Progress}
    {around : List TryId} (h : RewritesCatches source position p cs out p')
    (known : Catch.AnalysedAll source.facts cs) (quiet : Catch.anyYields cs = false)
    (inFrame : InFrame base state position.frame around.head? p) : Idle p p' := by
  cases h with
  | nil => exact .refl p
  | plain hb hcs =>
    obtain ⟨first, rest⟩ := Bool.or_eq_false_iff.mp quiet
    have evolves := RewritesAll.evolves hb known.suspendable.1 inFrame.sound inFrame.room
    have body := RewritesAll.numbers hb known.head inFrame (numbered_of_quiet first _)
    exact (body.idle_of_quiet first).trans (RewritesCatches.idle hcs known.tail rest
      (inFrame.later evolves.grows evolves.sound))
  | caught ht hb hcs =>
    obtain ⟨first, rest⟩ := Bool.or_eq_false_iff.mp quiet
    have start := evolves_temp inFrame.sound ht
    have inFrame₁ := inFrame.later start.grows start.sound
    have evolves := RewritesAll.evolves hb known.suspendable.1 inFrame₁.sound inFrame₁.room
    have body := RewritesAll.numbers hb known.head inFrame₁ (numbered_of_quiet first _)
    exact ((idle_temp ht).trans (body.idle_of_quiet first)).trans
      (RewritesCatches.idle hcs known.tail rest (inFrame₁.later evolves.grows evolves.sound))

end

namespace Composition

variable {iterator : IteratorMethod} {machine : StateMachine} (c : Composition iterator machine)
include c

theorem numbers (distinct : (iterator.body.suspendingTries.map (·.id)).Nodup) :
    Numbers iterator.body.params.length iterator.body.finalizeState iterator.body.suspendingTries
      iterator.body.yieldSites c.rewritten (.begun iterator.body) c.progress := by
  have outside : InFrame iterator.body.labelCount iterator.body.finalizeState FrameTree.root
      ([] : List TryId).head? (.begun iterator.body) :=
    ⟨sound_begun c.room, Nat.one_pos, rfl⟩
  refine RewritesAll.numbers c.rewrites c.known outside ?_
  rintro ⟨try_, i⟩ mem
  exact Body.finalizeState_getElem? distinct (List.mem_zipIdx_iff_getElem?.mp mem)

/-- There is a state to begin in and one for each yield. -/
theorem length_resumeLabels (unique : (Stmt.tryIdsAll iterator.body.root).Nodup) :
    c.progress.resumeLabels.length = iterator.body.yielded.length + 1 := by
  have fine := c.known.suspendable
  have sites : iterator.body.yieldSites.map (·.1) = iterator.body.yielded :=
    Stmt.map_fst_yieldSitesAll iterator.body.root fine []
  obtain ⟨rest, split, -, each⟩ := (c.numbers (Body.nodup_suspendingTries unique fine)).resumes
  rw [split, List.length_append, ← each.length_eq, List.length_zipIdx, ← sites, List.length_map]
  exact Nat.add_comm _ _

end Composition

end Lowering

end ManagedCode
