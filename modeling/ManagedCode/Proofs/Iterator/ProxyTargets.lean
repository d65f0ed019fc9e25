import ManagedCode.Proofs.Iterator.Growth
import ManagedCode.Proofs.Iterator.Readable

namespace ManagedCode

/-! Which targets frames have proxies for. -/

namespace Lowering

open Progress

variable {base : Nat} {frame : FrameId} {targets targets' : LabelId → Prop} {p p₁ p' : Progress}

/-- From `p` to `p'`, of the frames that there are only `frame` may get new proxies, for targets
outside it. -/
def Proxies (frame : FrameId) (targets : LabelId → Prop) (p p' : Progress) : Prop :=
  ∀ f : FrameId, f.index < p.frames.frames.length → ∀ pair ∈ (p'.frames.frame f).proxies,
    pair ∈ (p.frames.frame f).proxies ∨
      f = frame ∧ p.frames.reaches frame pair.1 = false ∧ targets pair.1

theorem Progress.Grows.reaches (h : Grows p p') (room : frame.index < p.frames.frames.length)
    (l : LabelId) : p'.frames.reaches frame l = p.frames.reaches frame l := by
  have fixed := h.fixed frame room
  unfold FrameTree.reaches
  rw [Frame.ancestors_eq fixed, Frame.definedLabels_eq fixed]

namespace Proxies

theorem of_same (h : ∀ f : FrameId, f.index < p.frames.frames.length →
    (p'.frames.frame f).proxies = (p.frames.frame f).proxies) : Proxies frame targets p p' :=
  fun f room _ hp => .inl (h f room ▸ hp)

theorem refl (p : Progress) : Proxies frame targets p p := .of_same fun _ _ => rfl

theorem mono (h : Proxies frame targets p p')
    (more : ∀ l, p.frames.reaches frame l = false → targets l → targets' l) :
    Proxies frame targets' p p' := fun f room pair hp =>
  (h f room pair hp).imp_right fun ⟨same, outside, target⟩ =>
    ⟨same, outside, more _ outside target⟩

theorem trans (h : Proxies frame targets p p₁) (grows : Grows p p₁)
    (here : frame.index < p.frames.frames.length) (h' : Proxies frame targets p₁ p') :
    Proxies frame targets p p' := by
  intro f room pair hp
  rcases h' f (Nat.lt_of_lt_of_le room grows.length) pair hp with old | ⟨rfl, outside, target⟩
  · exact h f room pair old
  · exact .inr ⟨rfl, (grows.reaches here _).symm.trans outside, target⟩

theorem route {target l : LabelId} (h : route frame target p = .ok (l, p')) :
    Proxies frame (· = target) p p' := by
  rcases route_eq_ok h with ⟨-, -, rfl⟩ | ⟨-, -, rfl⟩ | ⟨outside, -, -, -, rfl⟩
  · exact refl _
  · exact refl _
  · intro f room pair hp
    by_cases same : f = frame
    · subst same
      rw [FrameTree.addProxy, FrameTree.frame_modify_self _ room, List.mem_append,
        List.mem_singleton] at hp
      rcases hp with old | rfl
      · exact .inl old
      · exact .inr ⟨rfl, outside, rfl⟩
    · rw [FrameTree.addProxy, FrameTree.frame_modify_of_ne _ same] at hp
      exact .inl hp

theorem freshLabel {l : LabelId} (h : freshLabel p = .ok (l, p')) : Proxies frame targets p p' := by
  obtain ⟨-, -, rfl⟩ := freshLabel_eq_ok h
  exact of_same fun _ _ => rfl

theorem temp {ty : Ty} {id : LocalId} (h : temp ty p = .ok (id, p')) :
    Proxies frame targets p p' := by
  obtain ⟨-, rfl⟩ := temp_eq_ok h
  exact of_same fun _ _ => rfl

theorem resultLocal {id : LocalId} (h : resultLocal p = .ok (id, p')) :
    Proxies frame targets p p' := by
  rcases resultLocal_eq_ok h with ⟨-, rfl⟩ | ⟨-, -, rfl⟩ <;> exact of_same fun _ _ => rfl

theorem addState {frame' : FrameId} {state : Int} {l : LabelId}
    (h : addState frame' p = .ok ((state, l), p')) : Proxies frame targets p p' := by
  obtain ⟨-, -, -, rfl⟩ := addState_eq_ok h
  refine of_same fun f _ => ?_
  dsimp only
  rw [FrameTree.addState_eq]
  exact FrameTree.frame_tell_keeps Frame.proxies (fun _ _ => rfl) _ _

theorem pushFrame {source : Source} {parent new : FrameId} {id : TryId} {index : Nat}
    (h : pushFrame source parent id p = .ok ((new, index), p')) : Proxies frame targets p p' := by
  obtain ⟨added, state, frames⟩ : ∃ added state,
      p'.frames = (p.frames.append added).addState ⟨p.frames.frames.length⟩ state := by
    obtain ⟨-, -, rfl, rfl⟩ := pushFrame_eq_ok h
    exact ⟨_, _, rfl⟩
  refine of_same fun f room => ?_
  rw [frames, FrameTree.addState_eq]
  refine (FrameTree.frame_tell_keeps Frame.proxies (fun _ _ => rfl) _ _).trans ?_
  exact congrArg Frame.proxies (FrameTree.frame_append_of_ne (Nat.ne_of_lt room))

theorem routesCases {cases cases' : List (Int64 × LabelId)}
    (h : RoutesCases frame p cases cases' p')
    (sound : p.Sound base) (here : frame.index < p.frames.frames.length) :
    Proxies frame (· ∈ cases.map (·.2)) p p' := by
  induction h with
  | nil => exact refl _
  | cons h rest ih =>
    have first := evolves_route sound h
    refine ((route h).mono ?_).trans first.grows here
      ((ih first.sound (Nat.lt_of_lt_of_le here first.grows.length)).mono ?_)
    · rintro l - rfl
      exact List.mem_cons_self
    · exact fun l _ => List.mem_cons_of_mem _

theorem routesDefault {default? default' : Option LabelId}
    (h : RoutesDefault frame p default? default' p') :
    Proxies frame (· ∈ default?.toList) p p' := by
  cases h with
  | none => exact refl _
  | some h =>
    refine (route h).mono ?_
    rintro l - rfl
    exact List.mem_singleton_self _

end Proxies

theorem ProxiesEnd.makes {parent : FrameId} {handler : SynthMethodId}
    {proxies : List (LabelId × LabelId)} {out : List Stmt}
    (h : ProxiesEnd parent handler p proxies out p') (sound : p.Sound base)
    (here : parent.index < p.frames.frames.length) :
    Proxies parent (· ∈ proxies.map (·.1)) p p' := by
  induction h with
  | nil => exact .refl _
  | cons h rest ih =>
    have first := evolves_route sound h
    refine ((Proxies.route h).mono ?_).trans first.grows here
      ((ih first.sound (Nat.lt_of_lt_of_le here first.grows.length)).mono ?_)
    · rintro l - rfl
      exact List.mem_cons_self
    · exact fun l _ => List.mem_cons_of_mem _

/-- The end of a frame hands its proxies on to the frame around. -/
theorem FrameEnds.makes {parent : FrameId} {handler : SynthMethodId} {out : List Stmt}
    (h : FrameEnds parent frame handler p out p') (sound : p.Sound base)
    (here : parent.index < p.frames.frames.length) :
    Proxies parent (· ∈ (p.frames.frame frame).proxies.map (·.1)) (p.takeProxies frame) p' := by
  cases h with
  | plain none => exact .refl _
  | proxies some h more =>
    have taken := sound.takeProxies frame
    have first := (freshLabel_grows h).1
    have here' : parent.index < (p.takeProxies frame).frames.frames.length := by
      rwa [Progress.length_takeProxies]
    exact (Proxies.freshLabel h).trans first here'
      (more.makes ((freshLabel_grows h).2 taken) (Nat.lt_of_lt_of_le here' first.length))

variable {source : Source}

/-- The targets of the jumps that lead out of a statement, and the end of the step method. -/
def Source.Leaves (source : Source) (targets : List LabelId) (l : LabelId) : Prop :=
  l ∈ targets ∨ l = source.exitLabel

theorem Source.Leaves.mono {some more : List LabelId} {l : LabelId} (h : source.Leaves some l)
    (less : some ⊆ more) : source.Leaves more l :=
  h.imp_left fun mem => less mem

/-- A jump out of the frame leads out of every list inside it. -/
theorem Source.Leaves.list {ss : List Stmt} {l : LabelId} (h : source.Leaves (Stmt.targets ss) l)
    (inside : ∀ l ∈ Stmt.labelsAll ss, p.frames.reaches frame l = true)
    (outside : p.frames.reaches frame l = false) : source.Leaves (Stmt.escapesAll ss) l := by
  refine h.imp_left fun mem => mem_unresolved.mpr ⟨mem, fun plain => ?_⟩
  have here := inside l (Stmt.plainLabelsAll_subset ss l plain)
  rw [outside] at here
  cases here

/-- A new frame gets proxies for jumps that lead out of its body only. -/
theorem Proxies.of_new {body : List Stmt}
    (h : Proxies frame (source.Leaves (Stmt.targets body)) p p')
    (room : frame.index < p.frames.frames.length) (new : (p.frames.frame frame).proxies = [])
    (inside : ∀ l ∈ Stmt.labelsAll body, p.frames.reaches frame l = true) :
    ∀ pair ∈ (p'.frames.frame frame).proxies, source.Leaves (Stmt.escapesAll body) pair.1 := by
  intro pair hp
  rcases h frame room pair hp with old | ⟨-, outside, leaves⟩
  · rw [new] at old
    cases old
  · exact leaves.list inside outside

/-- What becomes of the proxies of other frames while the body of a new one is written. -/
theorem Proxies.takeProxies {frame' : FrameId} (h : Proxies frame targets p p')
    (room : frame.index < p'.frames.frames.length) :
    Proxies frame' targets' p (p'.takeProxies frame) := by
  intro f inside pair hp
  by_cases same : f = frame
  · subst same
    rw [Progress.frames_takeProxies, FrameTree.frame_modify_self _ room] at hp
    cases hp
  · rw [Progress.frame_takeProxies_of_ne _ same] at hp
    rcases h f inside pair hp with old | ⟨itself, -⟩
    · exact .inl old
    · exact absurd itself same

section

variable {path : List Nat} {id : TryId} {index : Nat}
  (pushed : Pushed source path id p frame index p')

include pushed

/-- The labels in the body of a try statement lie in its frame. -/
theorem Pushed.inside {body cleanup : List Stmt} {catches : List Catch}
    (readable : Readable source base (.tryCatch id body catches (some cleanup))) :
    ∀ l ∈ Stmt.labelsAll body, p'.frames.reaches frame l = true := by
  intro l hl
  have known : l ∈ source.facts.labels id :=
    readable.mem_labels.mpr (List.mem_append_left _ (List.mem_append_left _ hl))
  unfold FrameTree.reaches
  rw [pushed.labels]
  exact Bool.or_eq_true_iff.mpr (.inr (decide_eq_true known))

end

mutual

/-- Lowering makes proxies for jumps that lead out of a statement, and of its frame. -/
theorem Rewrites.makes {s : Stmt} {out : List Stmt} {position : Position} {p p' : Progress}
    (h : Rewrites source position p s out p') (readable : Readable source base s)
    (sound : p.Sound base) (here : position.frame.index < p.frames.frames.length)
    (inside : ∀ l ∈ s.labels, p.frames.reaches position.frame l = true) :
    Proxies position.frame (source.Leaves s.escapes) p p' := by
  cases h with
  | block h =>
    refine (RewritesAll.makes h readable.block sound here inside).mono fun l outside leaves => ?_
    exact leaves.list inside outside
  | expr | assign | label | throw | nop | breakOut => exact .refl _
  | goto h | condGoto h =>
    refine (Proxies.route h).mono ?_
    rintro l - rfl
    exact .inl (List.mem_singleton_self _)
  | switch hc hd =>
    have first := hc.evolves sound
    refine ((Proxies.routesCases hc sound here).mono fun l _ mem => ?_).trans first.grows here
      ((Proxies.routesDefault hd).mono fun l _ mem => ?_)
    · exact .inl (List.mem_append_left _ mem)
    · exact .inl (List.mem_append_right _ mem)
  | yield h => exact .addState h
  | breakTry _ hr h =>
    refine (Proxies.resultLocal hr).trans (resultLocal_grows hr).1 here ((Proxies.route h).mono ?_)
    rintro l - rfl
    exact .inr rfl
  | tryCatch plain hb hc =>
    have first := RewritesAll.evolves hb readable.inBody.suspendable sound here
    have body := RewritesAll.makes hb readable.inBody sound here fun l hl =>
      inside l (List.mem_append_left _ hl)
    have catches := RewritesCatches.makes hc readable.inCatches first.sound
      (Nat.lt_of_lt_of_le here first.grows.length) fun l hl =>
        (first.grows.reaches here l).trans (inside l (List.mem_append_right _ hl))
    refine (body.mono fun l outside leaves => ?_).trans first.grows here
      (catches.mono fun l _ leaves => leaves.mono (List.subset_append_right _ _))
    exact (leaves.list (fun l hl => inside l (List.mem_append_left _ hl)) outside).mono
      (List.subset_append_left _ _)
  | tryFinally plain hb hc hf =>
    have inBody : ∀ l ∈ Stmt.labelsAll _, p.frames.reaches position.frame l = true := fun l hl =>
      inside l (List.mem_append_left _ (List.mem_append_left _ hl))
    have inCleanup : ∀ l ∈ Stmt.labelsAll _, p.frames.reaches position.frame l = true := fun l hl =>
      inside l (List.mem_append_right _ hl)
    have first := RewritesAll.evolves hb readable.inBody.suspendable sound here
    have here₁ := Nat.lt_of_lt_of_le here first.grows.length
    have second := RewritesCatches.evolves hc readable.inCatches.suspendable first.sound here₁
    have both := first.grows.trans second.grows
    have body := RewritesAll.makes hb readable.inBody sound here inBody
    have catches := RewritesCatches.makes hc readable.inCatches first.sound here₁ fun l hl =>
      (first.grows.reaches here l).trans
        (inside l (List.mem_append_left _ (List.mem_append_right _ hl)))
    have cleanup := RewritesAll.makes hf readable.inCleanup second.sound
      (Nat.lt_of_lt_of_le here both.length) fun l hl =>
        (both.reaches here l).trans (inCleanup l hl)
    refine ((body.mono fun l outside leaves => ?_).trans first.grows here
      (catches.mono fun l _ leaves => ?_)).trans both here (cleanup.mono fun l outside leaves => ?_)
    · exact (leaves.list inBody outside).mono
        (List.Subset.trans (List.subset_append_left _ _) (List.subset_append_left _ _))
    · exact leaves.mono
        (List.Subset.trans (List.subset_append_right _ _) (List.subset_append_left _ _))
    · rw [both.reaches here] at outside
      exact (leaves.list inCleanup outside).mono (List.subset_append_right _ _)
  | @frame _ p p₁ p₂ p₃ p₄ id frame index body stmts cleanup clause leave catches suspends hp hb hl
      hc =>
    have push : Proxies position.frame (source.Leaves (Stmt.tryCatch id body catches
      (some cleanup)).escapes) p p₁ := .pushFrame hp
    obtain ⟨path, same, lies⟩ := sound.nested.paths _ here
    rw [same] at hp
    obtain ⟨grown, sound₁, pushed⟩ := pushFrame_grows sound lies hp
    have inner := pushed.room
    have first := RewritesAll.evolves hb readable.inBody.suspendable sound₁ inner
    have inBody := pushed.inside readable
    have inCleanup : ∀ l ∈ Stmt.labelsAll cleanup, p.frames.reaches position.frame l = true :=
      fun l hl => inside l (List.mem_append_right _ hl)
    have written := RewritesAll.makes hb readable.inBody sound₁ inner inBody
    have ends := hl.evolves first.sound
    have taken := pushed.takes sound (grown.trans first.grows)
    have before : Grows p p₃ := taken.trans ends.grows
    have here₂ := Nat.lt_of_lt_of_le here (grown.trans first.grows).length
    have clause := RewritesAll.makes hc readable.inCleanup
      (ends.sound.of_frames rfl rfl rfl (Nat.le_refl _) ends.sound.limit)
      (Nat.lt_of_lt_of_le here before.length) fun l hl =>
        (before.reaches here l).trans (inCleanup l hl)
    refine ((push.trans grown here (written.takeProxies
      (Nat.lt_of_lt_of_le inner first.grows.length))).trans taken here
        ((hl.makes first.sound here₂).mono fun l _ mem => ?_)).trans before here
          (clause.mono fun l outside leaves => ?_)
    · obtain ⟨pair, hp, rfl⟩ := List.mem_map.mp mem
      exact (written.of_new inner pushed.proxies inBody pair hp).mono
        (List.Subset.trans (List.subset_append_left _ _) (List.subset_append_left _ _))
    · have outside : p₃.frames.reaches position.frame l = false := outside
      rw [before.reaches here] at outside
      exact (leaves.list inCleanup outside).mono (List.subset_append_right _ _)
  | tryFault hb hf =>
    have first := RewritesAll.evolves hb readable.inFaultBody.suspendable sound here
    have body := RewritesAll.makes hb readable.inFaultBody sound here fun l hl =>
      inside l (List.mem_append_left _ hl)
    have fault := RewritesAll.makes hf readable.inFault first.sound
      (Nat.lt_of_lt_of_le here first.grows.length) fun l hl =>
        (first.grows.reaches here l).trans (inside l (List.mem_append_right _ hl))
    refine (body.mono fun l outside leaves => ?_).trans first.grows here
      (fault.mono fun l outside leaves => ?_)
    · exact (leaves.list (fun l hl => inside l (List.mem_append_left _ hl)) outside).mono
        (List.subset_append_left _ _)
    · rw [first.grows.reaches here] at outside
      exact (leaves.list (fun l hl => inside l (List.mem_append_right _ hl)) outside).mono
        (List.subset_append_right _ _)

theorem RewritesAll.makes {ss out : List Stmt} {position : Position} {p p' : Progress}
    (h : RewritesAll source position p ss out p') (readable : ReadableAll source base ss)
    (sound : p.Sound base) (here : position.frame.index < p.frames.frames.length)
    (inside : ∀ l ∈ Stmt.labelsAll ss, p.frames.reaches position.frame l = true) :
    Proxies position.frame (source.Leaves (Stmt.targets ss)) p p' := by
  cases h with
  | nil => exact .refl _
  | cons hs hss =>
    have first := Rewrites.evolves hs readable.head.suspendable sound here
    have here' := Nat.lt_of_lt_of_le here first.grows.length
    have head := Rewrites.makes hs readable.head sound here fun l hl =>
      inside l (List.mem_append_left _ hl)
    have tail := RewritesAll.makes hss readable.tail first.sound here' fun l hl =>
      (first.grows.reaches here l).trans (inside l (List.mem_append_right _ hl))
    refine (head.mono fun l _ leaves => ?_).trans first.grows here (tail.mono fun l _ leaves => ?_)
    · exact leaves.mono (List.subset_append_left _ _)
    · exact leaves.mono (List.subset_append_right _ _)

theorem RewritesCatches.makes {cs out : List Catch} {position : Position} {p p' : Progress}
    (h : RewritesCatches source position p cs out p') (readable : ReadableCatches source base cs)
    (sound : p.Sound base) (here : position.frame.index < p.frames.frames.length)
    (inside : ∀ l ∈ Catch.labelsAll cs, p.frames.reaches position.frame l = true) :
    Proxies position.frame (source.Leaves (Catch.escapesAll cs)) p p' := by
  cases h with
  | nil => exact .refl _
  | plain hb hcs =>
    have first := RewritesAll.evolves hb readable.head.suspendable sound here
    have body := RewritesAll.makes hb readable.head sound here fun l hl =>
      inside l (List.mem_append_left _ hl)
    have rest := RewritesCatches.makes hcs readable.tail first.sound
      (Nat.lt_of_lt_of_le here first.grows.length) fun l hl =>
        (first.grows.reaches here l).trans (inside l (List.mem_append_right _ hl))
    refine (body.mono fun l outside leaves => ?_).trans first.grows here
      (rest.mono fun l _ leaves => leaves.mono (List.subset_append_right _ _))
    exact (leaves.list (fun l hl => inside l (List.mem_append_left _ hl)) outside).mono
      (List.subset_append_left _ _)
  | caught ht hb hcs =>
    have start := evolves_temp sound ht
    have here₁ := Nat.lt_of_lt_of_le here start.grows.length
    have first := RewritesAll.evolves hb readable.head.suspendable start.sound here₁
    have both := start.grows.trans first.grows
    have body := RewritesAll.makes hb readable.head start.sound here₁ fun l hl =>
      (start.grows.reaches here l).trans (inside l (List.mem_append_left _ hl))
    have rest := RewritesCatches.makes hcs readable.tail first.sound
      (Nat.lt_of_lt_of_le here both.length) fun l hl =>
        (both.reaches here l).trans (inside l (List.mem_append_right _ hl))
    refine ((Proxies.temp ht).trans start.grows here (body.mono fun l outside leaves => ?_)).trans
      both here (rest.mono fun l _ leaves => leaves.mono (List.subset_append_right _ _))
    rw [start.grows.reaches here] at outside
    exact (leaves.list (fun l hl => inside l (List.mem_append_left _ hl)) outside).mono
      (List.subset_append_left _ _)

end

end Lowering

end ManagedCode
