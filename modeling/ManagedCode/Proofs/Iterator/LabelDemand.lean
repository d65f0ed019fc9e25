import ManagedCode.Proofs.Body.YieldSites
import ManagedCode.Proofs.Iterator.Growth
import ManagedCode.Proofs.Iterator.Slots

namespace ManagedCode

/-! How many labels, frames and states lowering uses, and that it gets through as long as there are
any. -/

mutual

/-- How many labels lowering may draw for a statement that lies in `depth` frames: one for each
yield, one for each frame that a jump may leave, and one to fall out of each frame. -/
def Stmt.labelDemand (depth : Nat) : Stmt → Nat
  | .block stmts => Stmt.labelDemandAll depth stmts
  | .goto _ | .condGoto _ _ _ | .yieldBreak => depth
  | .switch _ cases default? => (cases.length + default?.toList.length) * depth
  | .yield _ => 1
  | .tryCatch _ body catches none =>
    Stmt.labelDemandAll depth body + Catch.labelDemandAll depth catches
  | .tryCatch _ body catches (some cleanup) =>
    if Stmt.anyYields body then
      Stmt.labelDemandAll (depth + 1) body + 1 + Stmt.labelDemandAll depth cleanup
    else
      Stmt.labelDemandAll depth body + Catch.labelDemandAll depth catches +
        Stmt.labelDemandAll depth cleanup
  | .tryFault body fault => Stmt.labelDemandAll depth body + Stmt.labelDemandAll depth fault
  | _ => 0

def Stmt.labelDemandAll (depth : Nat) : List Stmt → Nat
  | [] => 0
  | s :: ss => s.labelDemand depth + Stmt.labelDemandAll depth ss

def Catch.labelDemandAll (depth : Nat) : List Catch → Nat
  | [] => 0
  | .mk _ _ body :: cs => Stmt.labelDemandAll depth body + Catch.labelDemandAll depth cs

end

section

open Lowering

mutual

/-- A frame has a label of its own. -/
theorem Stmt.length_frameIds_le (s : Stmt) (fine : s.Suspendable) (depth : Nat) :
    (frameIds s.tries).length ≤ s.labelDemand depth := by
  cases s with
  | block ss => exact Stmt.length_frameIdsAll_le ss fine depth
  | tryCatch id body catches finally? =>
    cases finally? with
    | none =>
      obtain ⟨quiet, quiet', fineBody, fineCatches⟩ := fine
      have plain : (Stmt.tryCatch id body catches none).yields = false := by
        rw [Stmt.yields, quiet, quiet']
        rfl
      rw [frameIds_tryCatch plain, List.length_append, Stmt.labelDemand]
      exact Nat.add_le_add (Stmt.length_frameIdsAll_le body fineBody depth)
        (Catch.length_frameIdsAll_le catches fineCatches depth)
    | some cleanup =>
      obtain ⟨plain, quiet, quiet', -, fineBody, fineCatches, fineCleanup⟩ := fine
      have yields :
          (Stmt.tryCatch id body catches (some cleanup)).yields = Stmt.anyYields body := by
        rw [Stmt.yields, quiet, quiet', Bool.or_false, Bool.or_false]
      have inCleanup := Stmt.length_frameIdsAll_le cleanup fineCleanup depth
      by_cases suspends : Stmt.anyYields body = true
      · obtain rfl := plain suspends
        have inBody := Stmt.length_frameIdsAll_le body fineBody (depth + 1)
        rw [frameIds_frame (yields.trans suspends), List.length_cons, List.length_append,
          Stmt.labelDemand, if_pos suspends]
        omega
      · have inBody := Stmt.length_frameIdsAll_le body fineBody depth
        have inCatches := Catch.length_frameIdsAll_le catches fineCatches depth
        rw [frameIds_tryFinally (yields.trans (Bool.eq_false_iff.mpr suspends)),
          List.length_append, List.length_append, Stmt.labelDemand, if_neg suspends]
        omega
  | tryFault body fault =>
    obtain ⟨-, -, fineBody, fineFault⟩ := fine
    rw [Stmt.tries, frameIds_append, List.length_append, Stmt.labelDemand]
    exact Nat.add_le_add (Stmt.length_frameIdsAll_le body fineBody depth)
      (Stmt.length_frameIdsAll_le fault fineFault depth)
  | _ => exact Nat.zero_le _

theorem Stmt.length_frameIdsAll_le (ss : List Stmt) (fine : Stmt.SuspendableAll ss) (depth : Nat) :
    (frameIds (Stmt.triesAll ss)).length ≤ Stmt.labelDemandAll depth ss := by
  cases ss with
  | nil => exact Nat.le_refl _
  | cons s ss =>
    rw [Stmt.triesAll, frameIds_append, List.length_append, Stmt.labelDemandAll]
    exact Nat.add_le_add (Stmt.length_frameIds_le s fine.1 depth)
      (Stmt.length_frameIdsAll_le ss fine.2 depth)

theorem Catch.length_frameIdsAll_le (cs : List Catch) (fine : Catch.SuspendableAll cs)
    (depth : Nat) : (frameIds (Catch.triesAll cs)).length ≤ Catch.labelDemandAll depth cs := by
  cases cs with
  | nil => exact Nat.le_refl _
  | cons c cs =>
    obtain ⟨ty, caught, body⟩ := c
    rw [Catch.triesAll, frameIds_append, List.length_append, Catch.labelDemandAll]
    exact Nat.add_le_add (Stmt.length_frameIdsAll_le body fine.1 depth)
      (Catch.length_frameIdsAll_le cs fine.2 depth)

end

end

/-- How many labels are still to be drawn for the proxies of the frames along a path: the end of
each frame routes its proxies through the frames around it. -/
def FrameTree.pending (tree : FrameTree) : List Nat → Nat
  | [] => 0
  | g :: outer => (tree.frame ⟨g + 1⟩).proxies.length * outer.length + tree.pending outer

theorem FrameTree.pending_congr {tree tree' : FrameTree} {path : List Nat}
    (same : ∀ g ∈ path, (tree'.frame ⟨g + 1⟩).proxies = (tree.frame ⟨g + 1⟩).proxies) :
    tree'.pending path = tree.pending path := by
  induction path with
  | nil => rfl
  | cons g outer ih =>
    rw [pending, pending, same g List.mem_cons_self,
      ih fun g hg => same g (List.mem_cons_of_mem _ hg)]

theorem FrameTree.Lies.later {tree : FrameTree} {g : Nat} {path : List Nat}
    (h : tree.Lies (g :: path)) : ∀ g' ∈ path, g' < g := by
  cases h with
  | frame _ _ _ later => exact later

namespace Lowering

open Progress

variable {source : Source} {base : Nat} {path : List Nat} {p p₁ p' : Progress}

/-- The labels drawn so far, and those that are to be drawn for the proxies along a path. -/
def Progress.labelDebt (p : Progress) (path : List Nat) : Nat :=
  p.ids.labelCount + p.frames.pending path

/-- From `p` to `p'`, lowering draws at most so many labels, and makes so many frames and states. -/
structure Spends (path : List Nat) (labels frames states : Nat) (p p' : Progress) : Prop where
  labels : p'.labelDebt path ≤ p.labelDebt path + labels
  handlers : p'.handlers.length = p.handlers.length + frames
  resumes : p'.resumeLabels.length = p.resumeLabels.length + states

/-- So many labels may still be drawn, and so many frames and states made. -/
structure Affords (path : List Nat) (labels frames states : Nat) (p : Progress) : Prop where
  labels : p.labelDebt path + labels < idLimit
  frames : p.handlers.length + frames + 2 < stateLimit
  states : p.resumeLabels.length + states < stateLimit

section

variable {labels labels' frames frames' states states' : Nat}

theorem Spends.refl (path : List Nat) (p : Progress) : Spends path 0 0 0 p p :=
  ⟨Nat.le_refl _, rfl, rfl⟩

theorem Spends.trans (h : Spends path labels frames states p p₁)
    (h' : Spends path labels' frames' states' p₁ p') :
    Spends path (labels + labels') (frames + frames') (states + states') p p' where
  labels := by
    have first := h.labels
    have second := h'.labels
    omega
  handlers := by rw [h'.handlers, h.handlers, Nat.add_assoc]
  resumes := by rw [h'.resumes, h.resumes, Nat.add_assoc]

theorem Affords.first
    (h : Affords path (labels + labels') (frames + frames') (states + states') p) :
    Affords path labels frames states p :=
  ⟨by have := h.labels; omega, by have := h.frames; omega, by have := h.states; omega⟩

/-- What was spent first leaves room for the rest. -/
theorem Affords.after
    (h : Affords path (labels + labels') (frames + frames') (states + states') p)
    (spent : Spends path labels frames states p p₁) : Affords path labels' frames' states' p₁ where
  labels := by
    have before := h.labels
    have drawn := spent.labels
    omega
  frames := by
    have before := h.frames
    have made := spent.handlers
    omega
  states := by
    have before := h.states
    have made := spent.resumes
    omega

end

/-- Steps that draw nothing and leave the proxies along the path alone. -/
theorem Spends.of_same (ids : p'.ids = p.ids) (handlers : p'.handlers.length = p.handlers.length)
    (resumes : p'.resumeLabels = p.resumeLabels) (proxies : ∀ g ∈ path, (p'.frames.frame ⟨g + 1⟩).proxies = (p.frames.frame ⟨g + 1⟩).proxies) :
    Spends path 0 0 0 p p' where
  labels := by
    unfold labelDebt
    rw [ids, FrameTree.pending_congr proxies]
    exact Nat.le_refl _
  handlers := handlers
  resumes := congrArg List.length resumes

theorem lower_bind_of_ok {α β : Type} {step : LowerM α} {next : α → LowerM β} {a : α}
    (h : step p = .ok (a, p₁)) : (step >>= next) p = next a p₁ := by
  change (step p >>= fun (a, middle) => next a middle) = _
  rw [h]
  rfl

/-- One more label is drawn. -/
def Progress.withLabel (p : Progress) : Progress :=
  { p with ids := { p.ids with labelCount := p.ids.labelCount + 1 } }

theorem labelDebt_withLabel (p : Progress) (path : List Nat) :
    p.withLabel.labelDebt path = p.labelDebt path + 1 :=
  Nat.add_right_comm ..

theorem freshLabel_of_room (room : p.ids.labelCount + 1 < idLimit) :
    freshLabel p = .ok (⟨p.ids.labelCount⟩, p.withLabel) := by
  have drawn : p.ids.label? =
      some (⟨p.ids.labelCount⟩, { p.ids with labelCount := p.ids.labelCount + 1 }) := if_pos room
  have given : orOverflow p.ids.label? p =
      .ok ((⟨p.ids.labelCount⟩, { p.ids with labelCount := p.ids.labelCount + 1 }), p) := by
    rw [drawn]
    rfl
  unfold freshLabel
  have read : (get : LowerM Progress) p = .ok (p, p) := rfl
  rw [lower_bind_of_ok read, lower_bind_of_ok given]
  rfl

/-- Whatever was made before, a step gets through if there is room for so many labels, frames and
states, and makes just so many frames and states. -/
def GetsThrough (base : Nat) (path : List Nat) {α : Type} (step : LowerM α)
    (labels frames states : Nat) : Prop :=
  ∀ p : Progress, p.Sound base → p.frames.Lies path → Affords path labels frames states p →
    ∃ a p', step p = .ok (a, p') ∧ p'.Sound base ∧ p'.frames.Lies path ∧
      Spends path labels frames states p p'

namespace GetsThrough

variable {α β : Type} {step : LowerM α} {next : α → LowerM β}
  {labels labels' frames frames' states states' : Nat}

theorem pure (a : α) : GetsThrough base path (Pure.pure a) 0 0 0 :=
  fun p sound lies _ => ⟨a, p, rfl, sound, lies, .refl path p⟩

theorem bind (first : GetsThrough base path step labels frames states)
    (then_ : ∀ a, GetsThrough base path (next a) labels' frames' states') :
    GetsThrough base path (step >>= next) (labels + labels') (frames + frames')
      (states + states') := by
  intro p sound lies room
  obtain ⟨a, p₁, h, sound₁, lies₁, spent⟩ := first p sound lies room.first
  obtain ⟨b, p', h', sound', lies', spent'⟩ := then_ a p₁ sound₁ lies₁ (room.after spent)
  exact ⟨b, p', (lower_bind_of_ok h).trans h', sound', lies', spent.trans spent'⟩

theorem free (first : GetsThrough base path step 0 0 0)
    (then_ : ∀ a, GetsThrough base path (next a) labels frames states) :
    GetsThrough base path (step >>= next) labels frames states := by
  have both := first.bind then_
  rwa [Nat.zero_add, Nat.zero_add, Nat.zero_add] at both

theorem mono (h : GetsThrough base path step labels frames states) (more : labels ≤ labels') :
    GetsThrough base path step labels' frames states := by
  intro p sound lies room
  have enough : p.labelDebt path + labels < idLimit :=
    Nat.lt_of_le_of_lt (Nat.add_le_add_left more _) room.labels
  obtain ⟨a, p', ran, sound', lies', spent⟩ := h p sound lies ⟨enough, room.frames, room.states⟩
  exact ⟨a, p', ran, sound', lies', Nat.le_trans spent.labels (Nat.add_le_add_left more _),
    spent.handlers, spent.resumes⟩

end GetsThrough

theorem getsThrough_hoistExpr {e : Expr} {returns : Prop}
    (uses : e.Uses (.slotted source.paramCount returns)) :
    GetsThrough base path (hoistExpr source e) 0 0 0 := by
  rw [hoistExpr_eq uses]
  exact .pure _

theorem getsThrough_hoistPlace {place : Place} {returns : Prop}
    (uses : place.Uses (.slotted source.paramCount returns)) :
    GetsThrough base path (hoistPlace source place) 0 0 0 := by
  rw [hoistPlace_eq uses]
  exact .pure _

theorem getsThrough_freshLabel : GetsThrough base path freshLabel 1 0 0 := by
  intro p sound lies room
  have limit : p.ids.labelCount + 1 < idLimit := by
    have labels := room.labels
    unfold labelDebt at labels
    omega
  have drawn := freshLabel_of_room limit
  exact ⟨_, p.withLabel, drawn, (freshLabel_grows drawn).2 sound, lies,
    Nat.le_of_eq (labelDebt_withLabel p path), rfl, rfl⟩

theorem getsThrough_temp (ty : Ty) : GetsThrough base path (temp ty) 0 0 0 := by
  intro p sound lies _
  obtain ⟨id, p', h⟩ : ∃ id p', temp ty p = .ok (id, p') := ⟨_, _, rfl⟩
  refine ⟨id, p', h, (temp_grows h).2 sound, (temp_grows h).1.lies lies, ?_⟩
  obtain ⟨-, rfl⟩ := temp_eq_ok h
  exact .of_same rfl rfl rfl fun _ _ => rfl

theorem getsThrough_resultLocal : GetsThrough base path resultLocal 0 0 0 := by
  intro p sound lies _
  obtain ⟨result, p', h, spent⟩ :
      ∃ result p', resultLocal p = .ok (result, p') ∧ Spends path 0 0 0 p p' := by
    have read : (get : LowerM Progress) p = .ok (p, p) := rfl
    unfold resultLocal
    rw [lower_bind_of_ok read]
    cases p.result? with
    | some result => exact ⟨result, p, rfl, .refl path p⟩
    | none => exact ⟨_, _, rfl, .of_same rfl rfl rfl fun _ _ => rfl⟩
  exact ⟨result, p', h, (resultLocal_grows h).2 sound, (resultLocal_grows h).1.lies lies, spent⟩

/-- A jump out of the frames along a path draws at most one label for each of them, now or when the
frame ends. -/
theorem exists_route (lies : p.frames.Lies path) (target : LabelId)
    (room : p.labelDebt path + path.length < idLimit) :
    ∃ l p', route (FrameTree.frameOf path) target p = .ok (l, p') ∧
      Spends path path.length 0 0 p p' := by
  have free : Spends path path.length 0 0 p p := ⟨Nat.le_add_right _ _, rfl, rfl⟩
  have read : (get : LowerM Progress) p = .ok (p, p) := rfl
  unfold route
  rw [lower_bind_of_ok read]
  by_cases reaches : p.frames.reaches (FrameTree.frameOf path) target = true
  · rw [if_pos reaches]
    exact ⟨target, p, rfl, free⟩
  rw [if_neg reaches]
  cases known : p.frames.proxy? (FrameTree.frameOf path) target with
  | some proxy => exact ⟨proxy, p, rfl, free⟩
  | none =>
    cases path with
    | nil =>
      -- Nothing is out of reach of a jump outside all frames.
      unfold FrameTree.reaches at reaches
      rw [lies.isEmpty] at reaches
      exact absurd rfl reaches
    | cons g outer =>
      have debt : p.ids.labelCount + 1 < idLimit := by
        unfold labelDebt at room
        rw [List.length_cons] at room
        omega
      dsimp only
      rw [lower_bind_of_ok (freshLabel_of_room debt)]
      refine ⟨_, _, rfl, ?_, rfl, rfl⟩
      let add : Frame → Frame := fun f =>
        { f with proxies := f.proxies ++ [(target, ⟨p.ids.labelCount⟩)] }
      have inside : g + 1 < p.frames.frames.length := lies.mem_room g List.mem_cons_self
      have own : ((p.frames.modify ⟨g + 1⟩ add).frame ⟨g + 1⟩).proxies =
          (p.frames.frame ⟨g + 1⟩).proxies ++ [(target, ⟨p.ids.labelCount⟩)] := by
        rw [FrameTree.frame_modify_self add inside]
      have others : (p.frames.modify ⟨g + 1⟩ add).pending outer = p.frames.pending outer := by
        refine FrameTree.pending_congr fun g' hg' => ?_
        have other : (⟨g' + 1⟩ : FrameId) ≠ ⟨g + 1⟩ := by
          have less := lies.later g' hg'
          rintro ⟨⟩
          exact Nat.lt_irrefl _ less
        rw [FrameTree.frame_modify_of_ne add other]
      change p.ids.labelCount + 1 + ((p.frames.modify ⟨g + 1⟩ add).pending (g :: outer)) ≤
        p.ids.labelCount + p.frames.pending (g :: outer) + (outer.length + 1)
      rw [FrameTree.pending, FrameTree.pending, own, others, List.length_append,
        List.length_singleton, Nat.succ_mul]
      omega

theorem getsThrough_route (target : LabelId) :
    GetsThrough base path (route (FrameTree.frameOf path) target) path.length 0 0 := by
  intro p sound lies room
  obtain ⟨l, p', h, spent⟩ := exists_route lies target room.labels
  exact ⟨l, p', h, (route_grows h).2 sound, (route_grows h).1.lies lies, spent⟩

theorem getsThrough_routesCases (cases : List (Int64 × LabelId)) :
    GetsThrough base path (cases.mapM fun ((value, target) : Int64 × LabelId) =>
      (do return (value, ← route (FrameTree.frameOf path) target) : LowerM (Int64 × LabelId)))
      (cases.length * path.length) 0 0 := by
  induction cases with
  | nil => exact (GetsThrough.pure _).mono (Nat.zero_le _)
  | cons pair cases ih =>
    rw [List.mapM_cons, List.length_cons, Nat.succ_mul, Nat.add_comm]
    exact ((getsThrough_route pair.2).bind fun _ => .pure _).bind fun _ => ih.bind fun _ => .pure _

theorem getsThrough_routesDefault (default? : Option LabelId) :
    GetsThrough base path (default?.mapM (route (FrameTree.frameOf path)))
      (default?.toList.length * path.length) 0 0 := by
  cases default? with
  | none => exact (GetsThrough.pure _).mono (Nat.zero_le _)
  | some target =>
    have one : (some target).toList.length * path.length = path.length := Nat.one_mul _
    rw [one]
    exact (getsThrough_route target).bind fun l => .pure (some l)

theorem getsThrough_proxySections (handler : SynthMethodId) (proxies : List (LabelId × LabelId)) :
    GetsThrough base path (proxySections (FrameTree.frameOf path) handler proxies)
      (proxies.length * path.length) 0 0 := by
  induction proxies with
  | nil => exact (GetsThrough.pure []).mono (Nat.zero_le _)
  | cons pair proxies ih =>
    rw [proxySections, List.length_cons, Nat.succ_mul, Nat.add_comm]
    exact (getsThrough_route pair.1).bind fun _ => ih.bind fun _ => .pure _

/-- The end of a frame is written when its proxies are taken. -/
theorem leaveFrame_eq (parent frame : FrameId) (handler : SynthMethodId) (p : Progress) :
    leaveFrame parent frame handler p =
      (if (p.frames.frame frame).proxies.isEmpty then
        return [.expr (.callSynthesized handler)]
      else do
        let drop ← freshLabel
        let sections ← proxySections parent handler (p.frames.frame frame).proxies
        return .goto drop :: sections ++ [.label drop, .expr (.callSynthesized handler)] :
          LowerM (List Stmt)) (p.takeProxies frame) :=
  rfl

/-- The end of a frame draws one label to fall out of it, and pays for its proxies. -/
theorem exists_leaveFrame {g : Nat} (handler : SynthMethodId) (sound : p.Sound base)
    (lies : p.frames.Lies (g :: path)) (room : Affords (g :: path) 1 0 0 p) :
    ∃ out p', leaveFrame (FrameTree.frameOf path) ⟨g + 1⟩ handler p = .ok (out, p') ∧
      p'.Sound base ∧ p'.frames.Lies path ∧ p'.labelDebt path ≤ p.labelDebt (g :: path) + 1 ∧
      p'.handlers.length = p.handlers.length ∧
      p'.resumeLabels.length = p.resumeLabels.length := by
  have around : p.frames.Lies path := by
    cases lies with
    | frame around => exact around
  have others : ∀ g' ∈ path, ((p.takeProxies ⟨g + 1⟩).frames.frame ⟨g' + 1⟩).proxies =
      (p.frames.frame ⟨g' + 1⟩).proxies := by
    intro g' hg'
    have other : (⟨g' + 1⟩ : FrameId) ≠ ⟨g + 1⟩ := by
      have less := lies.later g' hg'
      rintro ⟨⟩
      exact Nat.lt_irrefl _ less
    rw [p.frame_takeProxies_of_ne other]
  have taken : (p.takeProxies ⟨g + 1⟩).labelDebt path +
      (p.frames.frame ⟨g + 1⟩).proxies.length * path.length = p.labelDebt (g :: path) := by
    unfold labelDebt
    rw [FrameTree.pending_congr others, FrameTree.pending]
    change p.ids.labelCount + _ + _ = _
    omega
  have lies₁ : (p.takeProxies ⟨g + 1⟩).frames.Lies path :=
    around.mono (Nat.le_of_eq (p.length_takeProxies _).symm) fun f _ =>
      Frame.ancestors_eq (p.fixed_takeProxies _ f)
  have written : GetsThrough base path
      (if (p.frames.frame ⟨g + 1⟩).proxies.isEmpty then
        return [.expr (.callSynthesized handler)]
      else do
        let drop ← freshLabel
        let sections ← proxySections (FrameTree.frameOf path) handler
          (p.frames.frame ⟨g + 1⟩).proxies
        return .goto drop :: sections ++ [.label drop, .expr (.callSynthesized handler)] :
          LowerM (List Stmt))
      (1 + (p.frames.frame ⟨g + 1⟩).proxies.length * path.length) 0 0 := by
    split
    · exact (GetsThrough.pure _).mono (Nat.zero_le _)
    · exact getsThrough_freshLabel.bind fun _ =>
        (getsThrough_proxySections handler _).bind fun _ => .pure _
  have labels := room.labels
  obtain ⟨out, p', h, sound', lies', spent⟩ :=
    written _ (sound.takeProxies ⟨g + 1⟩) lies₁ ⟨by omega, room.frames, room.states⟩
  have drawn := spent.labels
  exact ⟨out, p', (leaveFrame_eq ..).trans h, sound', lies', by omega, spent.handlers,
    spent.resumes⟩

/-- A new frame draws nothing. -/
theorem exists_pushFrame (source : Source) (sound : p.Sound base) (lies : p.frames.Lies path)
    (id : TryId) (few : p.handlers.length + 3 < stateLimit) :
    ∃ g p₁, pushFrame source (FrameTree.frameOf path) id p = .ok ((⟨g + 1⟩, g), p₁) ∧
      p₁.Sound base ∧ p₁.frames.Lies (g :: path) ∧
      p₁.labelDebt (g :: path) = p.labelDebt path ∧
      p₁.handlers.length = p.handlers.length + 1 ∧ p₁.resumeLabels = p.resumeLabels := by
  obtain ⟨frame, index, p₁, hp, frames⟩ : ∃ frame index p₁,
      pushFrame source (FrameTree.frameOf path) id p = .ok ((frame, index), p₁) ∧
        p₁.frames = (p.frames.push (FrameTree.frameOf path) (firstFinalizeState - p.handlers.length)
          ⟨2 + p.handlers.length⟩ (source.facts.labels id)).2 := by
    have read : (get : LowerM Progress) p = .ok (p, p) := rfl
    unfold pushFrame
    rw [lower_bind_of_ok read, lower_bind_of_ok (require_of few _)]
    exact ⟨_, _, _, rfl, rfl⟩
  obtain ⟨-, sound₁, pushed⟩ := pushFrame_grows sound lies hp
  obtain rfl := pushed.new
  refine ⟨index, p₁, hp, sound₁, pushed.lies, ?_, pushed.handlers, pushed.resume⟩
  have older : ∀ g' ∈ path, (p₁.frames.frame ⟨g' + 1⟩).proxies =
      (p.frames.frame ⟨g' + 1⟩).proxies := by
    intro g' hg'
    have inside : g' + 1 < p.frames.frames.length := lies.mem_room g' hg'
    rw [frames]
    change ((FrameTree.addState _ _ _).frame _).proxies = _
    rw [FrameTree.addState_eq, FrameTree.frame_tell_keeps Frame.proxies fun _ _ => rfl]
    exact congrArg Frame.proxies (FrameTree.frame_append_of_ne (Nat.ne_of_lt inside))
  unfold labelDebt
  rw [FrameTree.pending, pushed.proxies, FrameTree.pending_congr older, pushed.ids]
  simp

theorem addState_of_room (frame : FrameId) (labels : p.ids.labelCount + 1 < idLimit)
    (states : p.resumeLabels.length + 1 < stateLimit) :
    ∃ state p', addState frame p = .ok ((state, ⟨p.ids.labelCount⟩), p') := by
  have read : (get : LowerM Progress) p = .ok (p, p) := rfl
  unfold addState
  rw [lower_bind_of_ok read, lower_bind_of_ok (require_of states _),
    lower_bind_of_ok (freshLabel_of_room labels)]
  exact ⟨_, _, rfl⟩

/-- A new state draws one label. -/
theorem getsThrough_addState :
    GetsThrough base path (addState (FrameTree.frameOf path)) 1 0 1 := by
  intro p sound lies room
  have free : p.ids.labelCount + 1 < idLimit := by
    have labels := room.labels
    unfold labelDebt at labels
    omega
  obtain ⟨state, p', ha⟩ := addState_of_room (FrameTree.frameOf path) free room.states
  have grows := addState_grows lies ha
  refine ⟨_, p', ha, grows.2 sound, grows.1.lies lies, ?_⟩
  obtain ⟨-, -, -, rfl⟩ := addState_eq_ok ha
  have kept : ∀ g ∈ path, ((p.frames.addState (FrameTree.frameOf path) state).frame
      ⟨g + 1⟩).proxies = (p.frames.frame ⟨g + 1⟩).proxies := by
    intro g hg
    rw [FrameTree.addState_eq, FrameTree.frame_tell_keeps Frame.proxies fun _ _ => rfl]
  refine ⟨?_, rfl, List.length_append⟩
  unfold labelDebt
  dsimp only
  rw [FrameTree.pending_congr kept]
  omega

/-- A try statement that suspends is lowered if its parts are. -/
theorem suspendingTry_of_ok {position : Position} {id : TryId} {frame : FrameId} {index : Nat}
    (body : Position → LowerM (List Stmt)) (finallyClause : LowerM (List Stmt))
    {stmts leave clause : List Stmt} {p₂ p₃ p₄ : Progress}
    (hp : pushFrame source position.frame id p = .ok ((frame, index), p₁))
    (hb : body { frame, inTry := true } p₁ = .ok (stmts, p₂))
    (hl : leaveFrame position.frame frame ⟨2 + index⟩ p₂ = .ok (leave, p₃))
    (hc : finallyClause { p₃ with locals := [] } = .ok (clause, p₄)) :
    suspendingTry source position id body finallyClause p =
      .ok ([.block (setState (p₁.frames.frame frame).finalizeState :: stmts ++ leave)],
        p₄.withHandler index p₃.locals
          (setState (p₃.frames.frame position.frame).finalizeState :: clause ++ [.ret none])) := by
  have entry : finalizeState frame p₁ = .ok ((p₁.frames.frame frame).finalizeState, p₁) := rfl
  have around : finalizeState position.frame p₃ =
      .ok ((p₃.frames.frame position.frame).finalizeState, p₃) := rfl
  have save : (modifyGet fun p : Progress => (p.locals, { p with locals := [] }) : LowerM _) p₃ =
      .ok (p₃.locals, { p₃ with locals := [] }) := rfl
  have written : writeHandler position.frame index finallyClause p₃ =
      .ok ((), p₄.withHandler index p₃.locals
        (setState (p₃.frames.frame position.frame).finalizeState :: clause ++ [.ret none])) := by
    rw [writeHandler, lower_bind_of_ok around, lower_bind_of_ok save, lower_bind_of_ok hc]
    rfl
  rw [suspendingTry, lower_bind_of_ok hp]
  dsimp only
  rw [lower_bind_of_ok entry, lower_bind_of_ok hb, lower_bind_of_ok hl, lower_bind_of_ok written]
  rfl

/-- A frame costs what its body costs in it, a label to fall out of it, and what its finally clause
costs outside. -/
theorem getsThrough_suspendingTry {position : Position}
    (here : position.frame = FrameTree.frameOf path) (id : TryId)
    {body : Position → LowerM (List Stmt)} {finallyClause : LowerM (List Stmt)}
    {labels labels' frames frames' states : Nat}
    (hb : ∀ g, GetsThrough base (g :: path) (body { frame := ⟨g + 1⟩, inTry := true }) labels frames
      states)
    (hc : GetsThrough base path finallyClause labels' frames' 0) :
    GetsThrough base path (suspendingTry source position id body finallyClause)
      (labels + 1 + labels') (frames + frames' + 1) states := by
  intro p sound lies room
  obtain ⟨roomLabels, roomFrames, roomStates⟩ := room
  obtain ⟨g, p₁, pushed, sound₁, lies₁, debt₁, handlers₁, resumes₁⟩ :=
    exists_pushFrame source sound lies id (by omega)
  have states₁ := congrArg List.length resumes₁
  obtain ⟨stmts, p₂, inBody, sound₂, lies₂, spentBody⟩ :=
    hb g p₁ sound₁ lies₁ ⟨by omega, by omega, by omega⟩
  obtain ⟨debt₂, handlers₂, states₂⟩ := spentBody
  obtain ⟨leave, p₃, left, sound₃, lies₃, debt₃, handlers₃, states₃⟩ :=
    exists_leaveFrame ⟨2 + g⟩ sound₂ lies₂ ⟨by omega, by omega, by omega⟩
  have begun : Progress.Sound base { p₃ with locals := [] } :=
    sound₃.of_frames rfl rfl rfl (Nat.le_refl _) sound₃.limit
  have affords : Affords path labels' frames' 0 { p₃ with locals := [] } := by
    refine ⟨?_, ?_, sound₃.stateLimit⟩
    · change p₃.labelDebt path + labels' < idLimit
      omega
    · change p₃.handlers.length + frames' + 2 < stateLimit
      omega
  obtain ⟨clause, p₄, inClause, sound₄, lies₄, spentClause⟩ := hc _ begun lies₃ affords
  refine ⟨_, _, suspendingTry_of_ok body finallyClause (here ▸ pushed) inBody (here ▸ left) inClause,
    sound₄.of_frames rfl (List.length_modify ..) rfl (Nat.le_refl _) sound₄.limit, lies₄, ?_, ?_, ?_⟩
  · have debt₄ : p₄.labelDebt path ≤ p₃.labelDebt path + labels' := spentClause.labels
    change p₄.labelDebt path ≤ _
    omega
  · have handlers₄ : p₄.handlers.length = p₃.handlers.length + frames' := spentClause.handlers
    change (List.modify _ _ _).length = _
    rw [List.length_modify]
    omega
  · have states₄ : p₄.resumeLabels.length = p₃.resumeLabels.length := spentClause.resumes
    change p₄.resumeLabels.length = _
    omega

mutual

/-- Lowering gets through a statement that suspends only where it may and whose names have slots,
if there are as many labels as it may draw. -/
theorem getsThrough_rewriteStmt (s : Stmt) (known : ∀ t ∈ s.tries, source.facts.Describe t)
    (fine : s.Suspendable) (uses : s.Uses (.slotted source.paramCount False))
    {position : Position} {path : List Nat} (here : position.frame = FrameTree.frameOf path) :
    GetsThrough base path (rewriteStmt source position s) (s.labelDemand path.length)
      (frameIds s.tries).length s.yielded.length := by
  cases s with
  | block ss =>
    rw [rewriteStmt]
    exact (getsThrough_rewriteStmts ss known fine uses here).bind fun _ => .pure _
  | expr value | throw value =>
    rw [rewriteStmt]
    exact (getsThrough_hoistExpr uses).free fun _ => .pure _
  | assign place value =>
    rw [rewriteStmt]
    exact (getsThrough_hoistPlace uses.1).free fun _ =>
      (getsThrough_hoistExpr uses.2).free fun _ => .pure _
  | label l | nop =>
    rw [rewriteStmt]
    exact .pure _
  | goto target =>
    rw [rewriteStmt, here]
    exact (getsThrough_route target).bind fun _ => .pure _
  | condGoto cond jumpIf target =>
    rw [rewriteStmt, here]
    exact (getsThrough_hoistExpr uses).free fun _ =>
      (getsThrough_route target).bind fun _ => .pure _
  | switch scrutinee cases default? =>
    rw [rewriteStmt, here, Stmt.labelDemand, Nat.add_mul]
    exact (getsThrough_hoistExpr uses).free fun _ => (getsThrough_routesCases cases).bind fun _ =>
      (getsThrough_routesDefault default?).bind fun _ => .pure _
  | ret value => cases value <;> simp [Stmt.Uses, Vocabulary.slotted] at uses
  | yield value =>
    rw [rewriteStmt]
    refine (getsThrough_hoistExpr uses.2).free fun _ => ?_
    rw [yieldValue, here]
    change GetsThrough base path _ (1 + 0) (0 + 0) (1 + 0)
    refine getsThrough_addState.bind fun _ p sound lies _ => ?_
    exact ⟨_, p, rfl, sound, lies, .refl path p⟩
  | yieldBreak =>
    rw [rewriteStmt, yieldBreak]
    split
    · rw [here]
      exact getsThrough_resultLocal.free fun _ => (getsThrough_route _).bind fun _ => .pure _
    · exact (GetsThrough.pure _).mono (Nat.zero_le _)
  | tryCatch id body catches finally? =>
    have inner : ({ position with inTry := true } : Position).frame = FrameTree.frameOf path := here
    have described := (known _ (by cases finally? <;> exact List.mem_cons_self) :
      source.facts.Describe ⟨id, (Stmt.tryCatch id body catches finally?).yields,
        (Stmt.tryCatch id body catches finally?).labels⟩).yields
    cases finally? with
    | none =>
      have knownBody : ∀ t ∈ Stmt.triesAll body, source.facts.Describe t := fun t ht =>
        known t (List.mem_cons_of_mem _ (List.mem_append_left _ ht))
      have knownCatches : ∀ t ∈ Catch.triesAll catches, source.facts.Describe t := fun t ht =>
        known t (List.mem_cons_of_mem _ (List.mem_append_right _ ht))
      obtain ⟨quiet, quiet', fineBody, fineCatches⟩ := fine
      have plain : (Stmt.tryCatch id body catches none).yields = false := by
        rw [Stmt.yields, quiet, quiet']
        rfl
      rw [plain] at described
      rw [rewriteStmt, if_neg (Bool.eq_false_iff.mp described), frameIds_tryCatch plain,
        Stmt.yielded, List.length_append, List.length_append]
      exact (getsThrough_rewriteStmts body knownBody fineBody uses.1 inner).bind fun _ =>
        (getsThrough_rewriteCatches catches knownCatches fineCatches uses.2 inner).bind fun _ =>
          .pure _
    | some cleanup =>
      have knownBody : ∀ t ∈ Stmt.triesAll body, source.facts.Describe t := fun t ht =>
        known t (List.mem_cons_of_mem _ (List.mem_append_left _ (List.mem_append_left _ ht)))
      have knownCatches : ∀ t ∈ Catch.triesAll catches, source.facts.Describe t := fun t ht =>
        known t (List.mem_cons_of_mem _ (List.mem_append_left _ (List.mem_append_right _ ht)))
      have knownCleanup : ∀ t ∈ Stmt.triesAll cleanup, source.facts.Describe t := fun t ht =>
        known t (List.mem_cons_of_mem _ (List.mem_append_right _ ht))
      obtain ⟨plain, quiet, quiet', -, fineBody, fineCatches, fineCleanup⟩ := fine
      have yields :
          (Stmt.tryCatch id body catches (some cleanup)).yields = Stmt.anyYields body := by
        rw [Stmt.yields, quiet, quiet', Bool.or_false, Bool.or_false]
      by_cases suspends : Stmt.anyYields body = true
      · obtain rfl := plain suspends
        rw [suspends] at yields
        rw [yields] at described
        have silent := Stmt.yieldedAll_eq_nil cleanup quiet'
        have clause := getsThrough_rewriteStmts cleanup knownCleanup fineCleanup uses.2.2 here
        rw [silent] at clause
        rw [rewriteStmt, if_pos described, Stmt.labelDemand, if_pos suspends,
          frameIds_frame yields, List.length_cons, List.length_append, Stmt.yielded, silent,
          Catch.yieldedAll, List.append_nil, List.append_nil]
        exact getsThrough_suspendingTry here id
          (fun _ => getsThrough_rewriteStmts body knownBody fineBody uses.1 rfl) clause
      · have native : (Stmt.tryCatch id body catches (some cleanup)).yields = false :=
          yields.trans (Bool.eq_false_iff.mpr suspends)
        rw [native] at described
        rw [rewriteStmt, if_neg (Bool.eq_false_iff.mp described), Stmt.labelDemand,
          if_neg suspends, frameIds_tryFinally native, Stmt.yielded, List.length_append,
          List.length_append, List.length_append, List.length_append, Nat.add_assoc, Nat.add_assoc]
        exact (getsThrough_rewriteStmts body knownBody fineBody uses.1 inner).bind fun _ =>
          (getsThrough_rewriteCatches catches knownCatches fineCatches uses.2.1 inner).bind fun _ =>
            (getsThrough_rewriteStmts cleanup knownCleanup fineCleanup uses.2.2 inner).bind fun _ =>
              .pure _
  | tryFault body fault =>
    have knownBody : ∀ t ∈ Stmt.triesAll body, source.facts.Describe t := fun t ht =>
      known t (List.mem_append_left _ ht)
    have knownFault : ∀ t ∈ Stmt.triesAll fault, source.facts.Describe t := fun t ht =>
      known t (List.mem_append_right _ ht)
    obtain ⟨-, -, fineBody, fineFault⟩ := fine
    have inner : ({ position with inTry := true } : Position).frame = FrameTree.frameOf path := here
    rw [rewriteStmt, Stmt.tries, frameIds_append, Stmt.yielded, List.length_append,
      List.length_append]
    exact (getsThrough_rewriteStmts body knownBody fineBody uses.1 inner).bind fun _ =>
      (getsThrough_rewriteStmts fault knownFault fineFault uses.2 inner).bind fun _ => .pure _

theorem getsThrough_rewriteStmts (ss : List Stmt)
    (known : ∀ t ∈ Stmt.triesAll ss, source.facts.Describe t) (fine : Stmt.SuspendableAll ss)
    (uses : Stmt.UsesAll (.slotted source.paramCount False) ss) {position : Position}
    {path : List Nat} (here : position.frame = FrameTree.frameOf path) :
    GetsThrough base path (rewriteStmts source position ss)
      (Stmt.labelDemandAll path.length ss) (frameIds (Stmt.triesAll ss)).length
      (Stmt.yieldedAll ss).length := by
  cases ss with
  | nil =>
    rw [rewriteStmts]
    exact .pure _
  | cons s ss =>
    have knownFirst : ∀ t ∈ s.tries, source.facts.Describe t := fun t ht =>
      known t (List.mem_append_left _ ht)
    have knownRest : ∀ t ∈ Stmt.triesAll ss, source.facts.Describe t := fun t ht =>
      known t (List.mem_append_right _ ht)
    rw [rewriteStmts, Stmt.triesAll, frameIds_append, Stmt.yieldedAll, List.length_append,
      List.length_append]
    exact (getsThrough_rewriteStmt s knownFirst fine.1 uses.1 here).bind fun _ =>
      (getsThrough_rewriteStmts ss knownRest fine.2 uses.2 here).bind fun _ => .pure _

theorem getsThrough_rewriteCatches (cs : List Catch)
    (known : ∀ t ∈ Catch.triesAll cs, source.facts.Describe t) (fine : Catch.SuspendableAll cs)
    (uses : Catch.UsesAll (.slotted source.paramCount False) cs) {position : Position}
    {path : List Nat} (here : position.frame = FrameTree.frameOf path) :
    GetsThrough base path (rewriteCatches source position cs)
      (Catch.labelDemandAll path.length cs) (frameIds (Catch.triesAll cs)).length
      (Catch.yieldedAll cs).length := by
  cases cs with
  | nil =>
    rw [rewriteCatches]
    exact .pure _
  | cons c cs =>
    obtain ⟨ty, caught, body⟩ := c
    have knownBody : ∀ t ∈ Stmt.triesAll body, source.facts.Describe t := fun t ht =>
      known t (List.mem_append_left _ ht)
    have knownRest : ∀ t ∈ Catch.triesAll cs, source.facts.Describe t := fun t ht =>
      known t (List.mem_append_right _ ht)
    have inBody : GetsThrough base path (rewriteStmts source position body) _ _ _ :=
      getsThrough_rewriteStmts body knownBody fine.1 uses.2.1 here
    have first : GetsThrough base path (rewriteCatch source position (.mk ty caught body))
        (Stmt.labelDemandAll path.length body) (frameIds (Stmt.triesAll body)).length
        (Stmt.yieldedAll body).length := by
      cases caught with
      | none =>
        rw [rewriteCatch]
        exact inBody.bind fun _ => .pure _
      | some caught =>
        have place : (Place.local caught).Uses (.slotted source.paramCount False) :=
          uses.1 caught rfl
        rw [rewriteCatch]
        exact (getsThrough_temp _).free fun _ => (getsThrough_hoistPlace place).free fun _ =>
          inBody.bind fun _ => .pure _
    rw [rewriteCatches, Catch.triesAll, frameIds_append, Catch.yieldedAll, List.length_append,
      List.length_append]
    exact first.bind fun _ =>
      (getsThrough_rewriteCatches cs knownRest fine.2 uses.2.2 here).bind fun _ => .pure _

end

end Lowering

end ManagedCode
