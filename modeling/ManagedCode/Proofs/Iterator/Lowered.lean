import ManagedCode.Proofs.Iterator.Placement
import ManagedCode.Proofs.Iterator.ProxyTargets

namespace ManagedCode

namespace Lowering

open Progress

/-! What lowering writes. -/

variable {source : Source} {plan : Plan} {site : Site} {position : Position} {p p₁ p' : Progress}

theorem RoutesCases.routed {cases cases' : List (Int64 × LabelId)}
    (h : RoutesCases position.frame p cases cases' p') (sound : p.Sound plan.base)
    (lies : p.frames.Lies site.path) (placed : Placed site position p') :
    List.Forall₂ (fun x y => y.1 = x.1 ∧ site.Routed x.2 y.2) cases cases' := by
  induction h with
  | nil => exact .nil
  | cons h rest ih =>
    have first := evolves_route sound h
    have lies' := first.grows.lies lies
    have here := placed.of_grows lies' (rest.evolves first.sound).grows
    exact .cons ⟨rfl, here.routed lies h⟩ (ih first.sound lies' placed)

theorem RoutesDefault.routed {default? default' : Option LabelId}
    (h : RoutesDefault position.frame p default? default' p') (lies : p.frames.Lies site.path)
    (placed : Placed site position p') : Option.Rel site.Routed default? default' := by
  cases h with
  | none => exact .none
  | some h => exact .some (placed.routed lies h)

theorem ProxiesEnd.sections {index : Nat} {proxies : List (LabelId × LabelId)} {out : List Stmt}
    (h : ProxiesEnd position.frame ⟨2 + index⟩ p proxies out p') (sound : p.Sound plan.base)
    (lies : p.frames.Lies site.path) (placed : Placed site position p') :
    Sections site index proxies out := by
  induction h with
  | nil => rfl
  | cons h more ih =>
    have first := evolves_route sound h
    have lies' := first.grows.lies lies
    have here := placed.of_grows lies' (more.evolves first.sound).grows
    exact ⟨_, _, here.routed lies h, ih first.sound lies' placed, rfl⟩

theorem FrameEnds.leaving {frame : FrameId} {index : Nat} {out : List Stmt}
    (h : FrameEnds position.frame frame ⟨2 + index⟩ p out p') (sound : p.Sound plan.base)
    (lies : p.frames.Lies site.path) (placed : Placed site position p') :
    Leaving site index (p.frames.frame frame).proxies out := by
  cases h with
  | plain none => exact .inl ⟨none, rfl⟩
  | proxies some h more =>
    have drop := freshLabel_grows h
    have taken := lies.mono (Nat.le_of_eq (p.length_takeProxies frame).symm) fun f _ =>
      Frame.ancestors_eq (p.fixed_takeProxies frame f)
    exact .inr ⟨_, _, more.sections (drop.2 (sound.takeProxies frame)) (drop.1.lies taken) placed, rfl⟩

section

variable {around : List TryId} {yields breaks : Bool} {frames : List TryId}
  {sites : List (Expr × List TryId)}

/-- Where nothing suspends, a part of a try statement lies at the same site but for that. -/
theorem Writes.within (h : Writes plan site position p p' around yields breaks frames sites)
    {frames' : List TryId} (same : frames = frames') :
    Writes plan site.within { position with inTry := true } p p' around false breaks frames' [] where
  sound := h.sound
  lies := h.lies
  started := h.started
  agrees := h.agrees
  frames := same ▸ h.frames
  sites := ⟨_, rfl⟩
  left none := by cases none
  around := h.around
  placed := h.placed.within
  before := h.before
  after := h.after
  answer := h.answer
  native none := by cases none
  leaves _ outside := by cases outside

/-- The lists of a statement that does not suspend hold no yields. -/
theorem Writes.of_plain {ss : List Stmt} {n : Nat} (none : Stmt.anyYields ss = false)
    (h : Writes plan site position p p' around false breaks frames []) :
    Writes plan site position p p' around (Stmt.anyYields ss) breaks frames
      (Stmt.yieldSitesAll around (Stmt.hoistAll n ss)) := by
  rw [none, yieldSitesAll_eq_nil _ (by rwa [Stmt.anyYields_hoistAll])]
  exact h

end

theorem written_yield {value : Expr} {around : List TryId} {breaks : Bool} {frames : List TryId}
    {state : Int} {resume : LabelId} (own : value.InFields)
    (context : Writes plan site position p p' around true breaks frames [(value, around)])
    (h : addState position.frame p = .ok ((state, resume), p')) :
    Written plan site (.yield value)
      [.assign (.machineField currentField) value, setState state, .ret (some (.bool true)),
        .label resume, setState (p'.frames.frame position.frame).finalizeState] := by
  have started := context.started
  rw [context.placed.frame] at h ⊢
  have covers := covers_addState context.sound context.lies h
  obtain ⟨grown, sound⟩ := addState_grows context.lies h
  have finalize := (sound context.sound).finalizeState (grown.lies context.lies)
  obtain ⟨rfl, -, -, made⟩ := addState_eq_ok h
  have resumes : p'.resumeLabels = p.resumeLabels ++ [resume] := by rw [made]
  obtain ⟨k, number⟩ := Nat.exists_eq_add_of_le' started
  rw [number] at covers ⊢
  rw [finalize, Written]
  refine ⟨context.native rfl, own, k, resume, around, ?_, ?_, ?_, ?_, context.around, rfl⟩
  · have room : k + 1 < p'.resumeLabels.length := by simp [resumes, number]
    rw [getElem?_of_longer context.agrees.resume room, resumes, ← number]
    simp
  · refine covers.congr fun f => context.agrees.known f _ (.inl ⟨k + 1, ?_, rfl⟩)
    simp [resumes, number]
  · obtain ⟨rest, split⟩ := context.sites
    rw [number, Nat.add_sub_cancel] at split
    have first : (plan.yields.drop k)[0]? = some (value, around) := by rw [← split]; rfl
    simpa using first
  · have left := context.left rfl
    rw [number, List.length_singleton] at left
    omega

/-- Inside a new frame that lies here. -/
def Site.enter (site : Site) (g : Nat) (inside : List LabelId)
    (proxies : List (LabelId × LabelId)) : Site :=
  { path := g :: site.path, inTry := true, inside, proxies, result := site.result,
    left := site.left }

/-- What lowering goes through for a try statement that suspends: it pushes the frame (`p₁`), writes
the body (`p₂`), the end of the frame (`p₃`) and the clause (`p₄`). -/
structure FrameSteps (source : Source) (base : Nat) (path : List Nat) (id : TryId) (p : Progress)
    (frame : FrameId) (index : Nat) (p₁ p₂ p₃ p₄ : Progress) (breaks : Bool) (frames : List TryId)
    (sites : List (Expr × List TryId)) : Prop where
  grown : Grows p p₁
  sound : p₁.Sound base
  pushed : Pushed source path id p frame index p₁
  body : Evolves base breaks p₁ p₂
  counted : Counts frames sites p₁ p₂
  leave : Evolves base false (p₂.takeProxies frame) p₃
  left : Counts [] [] p₂ p₃
  clause : Evolves base false { p₃ with locals := [] } p₄

namespace FrameSteps

variable {id : TryId} {frame : FrameId} {index : Nat} {p₂ p₃ p₄ : Progress}
  {breaks breaks' : Bool} {frames frames' around : List TryId} {sites : List (Expr × List TryId)}
  {code : List Stmt}

theorem index_lt (h : FrameSteps source plan.base site.path id p frame index p₁ p₂ p₃ p₄ breaks
    frames sites) : index < p₁.handlers.length := by
  rw [h.pushed.handlers, h.pushed.number]
  exact Nat.lt_succ_self _

theorem handlers_le (h : FrameSteps source plan.base site.path id p frame index p₁ p₂ p₃ p₄ breaks
    frames sites) :
    p₁.handlers.length ≤ p₂.handlers.length ∧ p₂.handlers.length ≤ p₃.handlers.length ∧
      p₃.handlers.length ≤ p₄.handlers.length :=
  ⟨h.body.grows.handlers.length_le, h.leave.grows.handlers.length_le,
    h.clause.grows.handlers.length_le⟩

theorem later_clause (h : FrameSteps source plan.base site.path id p frame index p₁ p₂ p₃ p₄ breaks
    frames sites) {low : Nat} : Later low p₃ p₄ :=
  (Later.withLocals p₃ []).trans (.of_grows h.clause.grows)

theorem later_body (h : FrameSteps source plan.base site.path id p frame index p₁ p₂ p₃ p₄ breaks
    frames sites) {low : Nat} : Later low p₂ p₄ :=
  ((Later.takeProxies p₂ frame).trans (.of_grows h.leave.grows)).trans h.later_clause

theorem result_eq (h : FrameSteps source plan.base site.path id p frame index p₁ p₂ p₃ p₄ breaks
    frames sites) : p₄.result? = p₂.result? :=
  (h.clause.result rfl).trans (h.leave.result rfl)

theorem lies (h : FrameSteps source plan.base site.path id p frame index p₁ p₂ p₃ p₄ breaks
    frames sites) (around : p.frames.Lies site.path) : p₃.frames.Lies site.path := by
  have before := h.body.grows.lies (h.grown.lies around)
  refine h.leave.grows.lies (before.mono (Nat.le_of_eq (p₂.length_takeProxies frame).symm) ?_)
  exact fun f _ => Frame.ancestors_eq (p₂.fixed_takeProxies frame f)

theorem number (h : FrameSteps source plan.base site.path id p frame index p₁ p₂ p₃ p₄ breaks
      frames sites)
    (context : Writes plan site position p p' around true breaks' (id :: (frames ++ frames')) sites) :
    plan.tries[index]? = some id := by
  obtain ⟨rest, split⟩ := context.frames
  have first : (plan.tries.drop p.handlers.length)[0]? = some id := by rw [← split]; rfl
  rw [h.pushed.number]
  simpa using first

theorem inBody (h : FrameSteps source plan.base site.path id p frame index p₁ p₂ p₃ p₄ breaks
      frames sites)
    (context : Writes plan site position p (p₄.withHandler index p₃.locals code) around true breaks'
      (id :: (frames ++ frames')) sites) (more : breaks = true → breaks' = true) (yields : Bool) :
    Writes plan (site.enter index (source.facts.labels id) (p₂.frames.frame frame).proxies)
      { frame, inTry := true } p₁ p₂ (id :: around) yields breaks frames sites where
  sound := h.sound
  lies := h.pushed.lies
  started := by
    rw [h.pushed.resume]
    exact context.started
  agrees := by
    refine (context.agrees.second h.grown.handlers.length_le).first ?_
    exact h.later_body.trans (.withHandler p₄ h.index_lt p₃.locals code)
  frames := by
    obtain ⟨rest, split⟩ := context.frames
    refine ⟨frames' ++ rest, ?_⟩
    rw [h.pushed.handlers, ← List.drop_drop, ← split]
    simp
  sites := by
    rw [h.pushed.resume]
    exact context.sites
  left _ := by
    rw [h.pushed.resume]
    exact context.left rfl
  around := by
    change plan.tries[index]? :: site.path.map (plan.tries[·]?) = _
    rw [h.number context, context.around]
    rfl
  placed :=
    { frame := h.pushed.new
      inTry := rfl
      inside := fun _ l => by
        rw [Frame.definedLabels_eq (h.body.grows.fixed _ h.pushed.room), h.pushed.labels]
        exact Iff.rfl
      proxies := fun _ hp => hp }
  before r hr := by
    rw [h.pushed.result, h.pushed.locals]
    exact context.before r hr
  after := by
    refine context.before.between context.after (h.grown.trans h.body.grows).widens ?_
    exact ⟨h.leave.grows.locals.length_le, .inl h.result_eq⟩
  answer some r made := context.answer (more some) r (h.result_eq.trans made)
  native _ := rfl
  leaves _ outside := by cases outside

theorem inClause (h : FrameSteps source plan.base site.path id p frame index p₁ p₂ p₃ p₄ breaks
      frames sites)
    (context : Writes plan site position p (p₄.withHandler index p₃.locals code) around true breaks'
      (id :: (frames ++ frames')) sites) {some : Bool} (none : some = false) :
    Writes plan site.cleaning position { p₃ with locals := [] } p₄ around false some frames' []
    where
  sound := h.leave.sound.of_frames rfl rfl rfl (Nat.le_refl _) h.leave.sound.limit
  lies := h.lies context.lies
  started := by
    have started := context.started
    rw [← h.pushed.resume] at started
    exact Nat.le_trans started (Nat.le_trans h.body.grows.resume.length_le
      h.leave.grows.resume.length_le)
  agrees := by
    have lengths := h.handlers_le
    refine (context.agrees.second ?_).first
      (.withHandler p₄ (Nat.lt_of_lt_of_le h.index_lt ?_) p₃.locals code)
    · exact Nat.le_trans h.grown.handlers.length_le (Nat.le_trans lengths.1 lengths.2.1)
    · exact Nat.le_trans lengths.1 lengths.2.1
  frames := by
    obtain ⟨rest, split⟩ := context.frames
    refine ⟨rest, ?_⟩
    have count : p₃.handlers.length = p.handlers.length + (1 + frames.length) := by
      rw [h.left.handlers, h.counted.handlers, h.pushed.handlers, List.length_nil]
      omega
    dsimp only
    rw [count, ← List.drop_drop, ← split, Nat.add_comm 1]
    simp
  sites := ⟨_, rfl⟩
  left yields := by cases yields
  around := context.around
  placed :=
    ⟨context.placed.frame, context.placed.inTry, context.placed.inside, context.placed.proxies⟩
  before := settled_none _
  after := settled_none _
  answer breaks := by
    rw [none] at breaks
    cases breaks
  native yields := by cases yields
  leaves breaks := by
    rw [none] at breaks
    cases breaks

theorem framed (h : FrameSteps source plan.base site.path id p frame index p₁ p₂ p₃ p₄ breaks
      frames sites) {body cleanup clause leave : List Stmt}
    (ends : FrameEnds position.frame frame ⟨2 + index⟩ p₂ leave p₃)
    (context : Writes plan site position p (p₄.withHandler index p₃.locals
      (setState (p₃.frames.frame position.frame).finalizeState :: clause ++ [.ret none])) around true
      breaks' (id :: (frames ++ frames')) sites)
    (below : ∀ l ∈ source.facts.labels id, l.index < plan.base)
    (targets : ∀ pair ∈ (p₂.frames.frame frame).proxies,
      pair.1 ∈ Stmt.escapesAll body ∨ pair.1 = plan.exit)
    (out : ∀ l ∈ Stmt.escapesAll body, l ∉ source.facts.labels id)
    (closed : Stmt.escapesAll cleanup = []) :
    Framed plan site (site.enter index (source.facts.labels id) (p₂.frames.frame frame).proxies)
      index id body cleanup leave clause where
  path := rfl
  inTry := rfl
  native := rfl
  result := rfl
  left := rfl
  below := below
  fresh pair hp := (h.body.sound.proxies frame pair hp).1
  targets := targets
  leaving := by
    have room := (h.lies context.lies).room
    rw [← context.placed.frame] at room
    refine ends.leaving h.body.sound (h.body.grows.lies (h.grown.lies context.lies)) ?_
    exact context.placed.before (h.clause.grows.fixed position.frame room)
      (h.clause.grows.proxies position.frame room)
  handler := by
    have room : index < p₄.handlers.length := by
      have lengths := h.handlers_le
      have here := h.index_lt
      omega
    rw [context.agrees.handlers index (Nat.le_of_eq h.pushed.number.symm)
      (by simpa [Progress.withHandler] using room)]
    unfold Progress.withHandler
    dsimp only
    rw [List.getElem?_modify_eq, List.getElem?_eq_getElem room, context.placed.frame,
      h.leave.sound.finalizeState (h.lies context.lies)]
    rfl
  number := h.number context
  covers := by
    have used : p₁.Allocated (frameState index) := .inr ⟨index, h.index_lt, rfl⟩
    have later : Later p₁.handlers.length p₁ _ := (Later.of_grows h.body.grows).trans
      (h.later_body.trans (.withHandler p₄ h.index_lt p₃.locals
        (setState (p₃.frames.frame position.frame).finalizeState :: clause ++ [.ret none])))
    refine h.pushed.covers.congr fun f => ?_
    rw [context.agrees.known f _ (used.mono later.resume.length_le later.length)]
    exact later.known f _ used
  out := out
  closed := closed

theorem of_rewrites {body stmts cleanup clause leave : List Stmt} {catches : List Catch}
    {path : List Nat}
    (readable : Readable source plan.base (.tryCatch id body catches (some cleanup)))
    (sound : p.Sound plan.base) (lies : p.frames.Lies path)
    (same : position.frame = FrameTree.frameOf path)
    (hp : pushFrame source position.frame id p = .ok ((frame, index), p₁))
    (hb : RewritesAll source { frame, inTry := true } p₁ body stmts p₂)
    (hl : FrameEnds position.frame frame ⟨2 + index⟩ p₂ leave p₃)
    (hc : RewritesAll source position { p₃ with locals := [] } cleanup clause p₄)
    (around : List TryId) :
    FrameSteps source plan.base path id p frame index p₁ p₂ p₃ p₄ (Stmt.anyBreaks body)
      (frameIds (Stmt.triesAll body))
      (Stmt.yieldSitesAll (id :: around) (Stmt.hoistAll source.paramCount body)) := by
  rw [same] at hp
  obtain ⟨grown, sound₁, pushed⟩ := pushFrame_grows sound lies hp
  have body := RewritesAll.evolves hb readable.inBody.suspendable sound₁ pushed.room
  have leave := hl.evolves body.sound
  have room : position.frame.index < p₃.frames.frames.length := by
    have longer := leave.grows.length
    rw [Progress.length_takeProxies] at longer
    rw [same]
    exact Nat.lt_of_lt_of_le lies.room
      (Nat.le_trans grown.length (Nat.le_trans body.grows.length longer))
  have clause := RewritesAll.evolves hc readable.inCleanup.suspendable
    (leave.sound.of_frames rfl rfl rfl (Nat.le_refl _) leave.sound.limit) room
  exact
    { grown, sound := sound₁, pushed, body
      counted := RewritesAll.counts hb readable.inBody (id :: around)
      leave
      left := hl.counts
      clause := clause.mono fun _ => readable.suspendable.2.2.2.1 }

end FrameSteps

theorem Settled.ne {result : Option LocalId} {ty : Ty} {id : LocalId} (h : Settled result p)
    (later : Settled result p₁) (made : temp ty p = .ok (id, p₁)) : result ≠ some id := by
  rintro rfl
  obtain ⟨rfl, rfl⟩ := temp_eq_ok made
  rcases h _ rfl with ⟨-, room⟩ | ⟨none, -⟩
  · exact absurd room (Nat.lt_irrefl _)
  · rcases later _ rfl with ⟨some, -⟩ | ⟨-, high⟩
    · rw [some] at none
      cases none
    · exact absurd high (by simp)

mutual

/-- Lowering writes each statement as it should. -/
theorem Rewrites.written (exit : plan.exit = source.exitLabel) {s : Stmt} {out : List Stmt}
    {position : Position} {p p' : Progress} (h : Rewrites source position p s out p')
    (readable : Readable source plan.base s) {site : Site} {around : List TryId}
    (context : Writes plan site position p p' around s.yields s.breaks (frameIds s.tries)
      ((s.hoist source.paramCount).yieldSites around))
    (inside : ∀ l ∈ s.labels, site.path = [] ∨ l ∈ site.inside) :
    Written plan site (s.hoist source.paramCount) out := by
  cases h with
  | block h =>
    rw [Stmt.hoist, Written]
    exact ⟨_, RewritesAll.written exit h readable.block context inside, rfl⟩
  | expr =>
    rw [Stmt.hoist, Written]
    exact ⟨Expr.inFields_hoist _ readable.uses, rfl⟩
  | assign =>
    rw [Stmt.hoist, Written]
    exact ⟨Place.inFields_hoist _ readable.uses.1, Expr.inFields_hoist _ readable.uses.2, rfl⟩
  | label =>
    rw [Stmt.hoist, Written]
    exact ⟨readable.labels _ List.mem_cons_self, inside _ List.mem_cons_self, rfl⟩
  | goto h =>
    rw [Stmt.hoist, Written]
    exact ⟨_, context.placed.routed context.lies h, rfl⟩
  | condGoto h =>
    rw [Stmt.hoist, Written]
    exact ⟨Expr.inFields_hoist _ readable.uses, _, context.placed.routed context.lies h, rfl⟩
  | switch hc hd =>
    have first := hc.evolves context.sound
    have lies := first.grows.lies context.lies
    rw [Stmt.hoist, Written]
    refine ⟨Expr.inFields_hoist _ readable.uses, _, _, ?_, hd.routed lies context.placed, rfl⟩
    exact hc.routed context.sound context.lies
      (context.placed.of_grows lies (hd.evolves first.sound).grows)
  | yield h => exact written_yield (Expr.inFields_hoist _ readable.uses.2) context h
  | breakOut outside =>
    have free : site.inTry = false := context.placed.inTry.trans outside
    rw [Stmt.hoist, Written]
    exact ⟨rfl, .inr ⟨free, context.leaves rfl free, rfl⟩⟩
  | breakTry within hr h =>
    rename_i p₁ result l
    have made : p'.result? = some result := by
      rw [result_of_route h]
      rcases resultLocal_eq_ok hr with ⟨made, rfl⟩ | ⟨-, -, rfl⟩
      · exact made
      · rfl
    rw [Stmt.hoist, Written]
    refine ⟨rfl, .inl ⟨context.placed.inTry.trans within, _, _, context.answer rfl _ made, ?_, rfl⟩⟩
    rw [exit]
    exact context.placed.routed ((resultLocal_grows hr).1.lies context.lies) h
  | tryCatch plain hb hc =>
    rename_i p₁ id body body' catches catches'
    obtain ⟨none, none', -⟩ := readable.suspendable
    have whole := context.within (frameIds_tryCatch (Bool.or_eq_false_iff.mpr ⟨none, none'⟩))
    have first := RewritesAll.evolves hb readable.inBody.suspendable context.sound context.room
    have room := Nat.lt_of_lt_of_le context.room first.grows.length
    have second := RewritesCatches.evolves hc readable.inCatches.suspendable first.sound room
    have counted := counts_plain none hb readable.inBody
    rw [Stmt.hoist, Written]
    refine ⟨by rwa [Stmt.anyYields_hoistAll], _, _, ?_, ?_, rfl⟩
    · exact RewritesAll.written exit hb readable.inBody
        (.of_plain none (whole.part first second.grows)) fun l hl =>
          inside l (List.mem_append_left _ hl)
    · exact RewritesCatches.written exit hc readable.inCatches none'
        (whole.rest first counted second.grows) fun l hl => inside l (List.mem_append_right _ hl)
  | tryFinally plain hb hc hf =>
    rename_i p₁ p₂ id body body' cleanup cleanup' catches catches'
    have none : Stmt.anyYields body = false := readable.containsYield.symm.trans plain
    obtain ⟨-, none', none'', -⟩ := readable.suspendable
    have yields : (Stmt.tryCatch id body catches (some cleanup)).yields = false :=
      Bool.or_eq_false_iff.mpr ⟨Bool.or_eq_false_iff.mpr ⟨none, none'⟩, none''⟩
    have whole := context.within (frameIds_tryFinally yields)
    have first := RewritesAll.evolves hb readable.inBody.suspendable context.sound context.room
    have room₁ := Nat.lt_of_lt_of_le context.room first.grows.length
    have second := RewritesCatches.evolves hc readable.inCatches.suspendable first.sound room₁
    have room₂ := Nat.lt_of_lt_of_le room₁ second.grows.length
    have third := RewritesAll.evolves hf readable.inCleanup.suspendable second.sound room₂
    have counted := counts_plain none hb readable.inBody
    have counted' := RewritesCatches.counts hc readable.inCatches none'
    have both := whole.part (first.trans second) third.grows
    rw [Stmt.hoist, Written]
    refine .inl ⟨by rwa [Stmt.anyYields_hoistAll], _, _, _, ?_, ?_, ?_, rfl⟩
    · exact RewritesAll.written exit hb readable.inBody
        (.of_plain none (both.part first second.grows)) fun l hl =>
          inside l (List.mem_append_left _ (List.mem_append_left _ hl))
    · exact RewritesCatches.written exit hc readable.inCatches none'
        (both.rest first counted second.grows) fun l hl =>
          inside l (List.mem_append_left _ (List.mem_append_right _ hl))
    · exact RewritesAll.written exit hf readable.inCleanup
        (.of_plain none'' (whole.rest (first.trans second) (counted.trans counted') third.grows))
        fun l hl => inside l (List.mem_append_right _ hl)
  | frame suspends hp hb hl hc =>
    rename_i p₁ p₂ p₃ p₄ id frame index body stmts cleanup clause leave catches
    have some : Stmt.anyYields body = true := readable.containsYield.symm.trans suspends
    obtain ⟨plain, none, none', quiet, -⟩ := readable.suspendable
    obtain rfl := plain some
    have yields : (Stmt.tryCatch id body [] (Option.some cleanup)).yields = true :=
      (readable.described _ List.mem_cons_self).yields.symm.trans suspends
    have steps := FrameSteps.of_rewrites readable context.sound context.lies context.placed.frame
      hp hb hl hc around
    rw [yields, frameIds_frame yields] at context
    have within := steps.inBody context (fun some => by
      change (Stmt.anyBreaks body || _ || _) = true
      rw [some]
      rfl) (Stmt.anyYields body)
    have cleaning := steps.inClause context quiet
    rw [Stmt.hoist, Written]
    refine .inr ⟨by rwa [Stmt.anyYields_hoistAll], context.native rfl, rfl,
      site.enter index (source.facts.labels id) (p₂.frames.frame frame).proxies, index, stmts, leave,
      clause, ?_, ?_, ?_, ?_⟩
    · refine RewritesAll.written exit hb readable.inBody within fun l hl => .inr ?_
      exact readable.mem_labels.mpr (List.mem_append_left _ (List.mem_append_left _ hl))
    · exact RewritesAll.written exit hc readable.inCleanup (.of_plain none' cleaning) fun l hl =>
        inside l (List.mem_append_right _ hl)
    · refine steps.framed hl context (fun l hl => readable.labels l (readable.mem_labels.mp hl)) ?_
        ?_ ?_
      · have room := steps.pushed.room
        have inBody := steps.pushed.inside readable
        rw [Stmt.escapesAll_hoistAll, exit]
        exact (RewritesAll.makes hb readable.inBody steps.sound room inBody).of_new room
          steps.pushed.proxies inBody
      · intro l hl
        rw [Stmt.escapesAll_hoistAll] at hl
        exact fun within => readable.apart.body_outside hl (readable.mem_labels.mp within)
      · rw [Stmt.escapesAll_hoistAll]
        exact readable.contained.2.2.2
    · rw [steps.pushed.finalize]
      rfl
  | tryFault hb hf =>
    rename_i p₁ body body' fault fault'
    obtain ⟨none, none', -⟩ := readable.suspendable
    have whole := context.within (frameIds_append _ _)
    have first := RewritesAll.evolves hb readable.inFaultBody.suspendable context.sound context.room
    have room := Nat.lt_of_lt_of_le context.room first.grows.length
    have second := RewritesAll.evolves hf readable.inFault.suspendable first.sound room
    have counted := counts_plain none hb readable.inFaultBody
    rw [Stmt.hoist, Written]
    refine ⟨_, _, ?_, ?_, rfl⟩
    · exact RewritesAll.written exit hb readable.inFaultBody
        (.of_plain none (whole.part first second.grows)) fun l hl =>
          inside l (List.mem_append_left _ hl)
    · exact RewritesAll.written exit hf readable.inFault
        (.of_plain none' (whole.rest first counted second.grows)) fun l hl =>
          inside l (List.mem_append_right _ hl)
  | throw =>
    rw [Stmt.hoist, Written]
    exact ⟨Expr.inFields_hoist _ readable.uses, rfl⟩
  | nop =>
    rw [Stmt.hoist, Written]

theorem RewritesAll.written (exit : plan.exit = source.exitLabel) {ss out : List Stmt}
    {position : Position} {p p' : Progress} (h : RewritesAll source position p ss out p')
    (readable : ReadableAll source plan.base ss) {site : Site} {around : List TryId}
    (context : Writes plan site position p p' around (Stmt.anyYields ss) (Stmt.anyBreaks ss)
      (frameIds (Stmt.triesAll ss))
      (Stmt.yieldSitesAll around (Stmt.hoistAll source.paramCount ss)))
    (inside : ∀ l ∈ Stmt.labelsAll ss, site.path = [] ∨ l ∈ site.inside) :
    WrittenAll plan site (Stmt.hoistAll source.paramCount ss) out := by
  cases h with
  | nil =>
    rw [Stmt.hoistAll, WrittenAll]
  | cons hs hss =>
    rw [Stmt.triesAll, frameIds_append, Stmt.hoistAll, Stmt.yieldSitesAll] at context
    have room := context.room
    have first := Rewrites.evolves hs readable.head.suspendable context.sound room
    have room' := Nat.lt_of_lt_of_le room first.grows.length
    have later := RewritesAll.evolves hss readable.tail.suspendable first.sound room'
    rw [Stmt.hoistAll, WrittenAll]
    have head := context.first first later.grows
    rw [Stmt.length_yieldSitesAll] at head
    refine ⟨_, _, Rewrites.written exit hs readable.head head ?_,
      RewritesAll.written exit hss readable.tail
        (context.second first (Rewrites.counts hs readable.head around) later.grows) ?_, rfl⟩
    · exact fun l hl => inside l (List.mem_append_left _ hl)
    · exact fun l hl => inside l (List.mem_append_right _ hl)

theorem RewritesCatches.written (exit : plan.exit = source.exitLabel) {cs out : List Catch}
    {position : Position} {p p' : Progress} (h : RewritesCatches source position p cs out p')
    (readable : ReadableCatches source plan.base cs) (none : Catch.anyYields cs = false)
    {site : Site} {around : List TryId}
    (context : Writes plan site position p p' around false (Catch.anyBreaks cs)
      (frameIds (Catch.triesAll cs)) [])
    (inside : ∀ l ∈ Catch.labelsAll cs, site.path = [] ∨ l ∈ site.inside) :
    WrittenCatches plan site (Catch.hoistAll source.paramCount cs) out := by
  cases h with
  | nil => rw [Catch.hoistAll, WrittenCatches]
  | plain hb hcs =>
    obtain ⟨first, rest⟩ := Bool.or_eq_false_iff.mp none
    rw [Catch.triesAll, frameIds_append] at context
    have step := RewritesAll.evolves hb readable.head.suspendable context.sound context.room
    have room := Nat.lt_of_lt_of_le context.room step.grows.length
    have later := (RewritesCatches.evolves hcs readable.tail.suspendable step.sound room).grows
    have counted := counts_plain first hb readable.head
    rw [Catch.hoistAll, Catch.hoist, WrittenCatches]
    refine ⟨_, _, ?_, RewritesCatches.written exit hcs readable.tail rest
      (context.rest step counted later) fun l hl => inside l (List.mem_append_right _ hl), rfl⟩
    rw [WrittenCatch]
    exact ⟨_, RewritesAll.written exit hb readable.head
      (.of_plain first (context.part step later)) fun l hl =>
        inside l (List.mem_append_left _ hl), rfl⟩
  | caught ht hb hcs =>
    rename_i p₁ p₂ ty caught temp body body' cs cs'
    obtain ⟨first, rest⟩ := Bool.or_eq_false_iff.mp none
    rw [Catch.triesAll, frameIds_append] at context
    have start : Evolves plan.base false p p₁ := evolves_temp context.sound ht
    have room₁ := Nat.lt_of_lt_of_le context.room start.grows.length
    have step := RewritesAll.evolves hb readable.head.suspendable start.sound room₁
    have room₂ := Nat.lt_of_lt_of_le room₁ step.grows.length
    have later := (RewritesCatches.evolves hcs readable.tail.suspendable step.sound room₂).grows
    have whole : Writes plan site position p p' around false
        (false || (Stmt.anyBreaks body || Catch.anyBreaks cs))
        ([] ++ (frameIds (Stmt.triesAll body) ++ frameIds (Catch.triesAll cs))) [] := context
    have inner := whole.rest start (counts_temp ht) (step.grows.trans later)
    have counted := counts_plain first hb readable.head
    rw [Catch.hoistAll, Catch.hoist, WrittenCatches]
    refine ⟨_, _, ?_, RewritesCatches.written exit hcs readable.tail rest
      (inner.rest step counted later) fun l hl => inside l (List.mem_append_right _ hl), rfl⟩
    rw [WrittenCatch]
    have own : (Place.local caught).Uses (.iterator (fun _ => True) fun _ => True) := trivial
    exact ⟨temp, body', RewritesAll.written exit hb readable.head
      (.of_plain first (inner.part step later)) (fun l hl => inside l (List.mem_append_left _ hl)),
      Place.inFields_hoist _ own, rfl, context.before.ne inner.before ht, rfl⟩

end

end Lowering

end ManagedCode
