import ManagedCode.Proofs.Iterator.Counting
import ManagedCode.Proofs.Iterator.Growth

namespace ManagedCode

mutual

theorem Expr.inFields_hoist {locals : LocalId → Prop} {params : ParamId → Prop} {n : Nat} (e : Expr)
    (h : e.Uses (.iterator locals params)) : (e.hoist n).InFields := by
  cases e with
  | const | typeToken => trivial
  | «local» id => exact Nat.le_trans (Nat.le_add_right 2 n) (Nat.le_add_right _ _)
  | param id => exact Nat.le_add_right 2 _
  | machineField slot => exact h.elim
  | field receiver member =>
    cases receiver with
    | none => trivial
    | some receiver => exact Expr.inFields_hoist receiver h
  | call callee receiver args =>
    cases callee with
    | method member =>
      cases receiver with
      | none => exact Expr.allInFields_hoistAll args h
      | some receiver => exact ⟨Expr.inFields_hoist receiver h.1, Expr.allInFields_hoistAll args h.2⟩
    | synthesized method => cases receiver <;> exact h.1.elim
  | binary op lhs rhs => exact ⟨Expr.inFields_hoist lhs h.1, Expr.inFields_hoist rhs h.2⟩
  | unary op operand => exact Expr.inFields_hoist operand h
  | element | addressOf | newArray => trivial

theorem Expr.allInFields_hoistAll {locals : LocalId → Prop} {params : ParamId → Prop} {n : Nat}
    (es : List Expr) (h : Expr.UsesAll (.iterator locals params) es) :
    Expr.AllInFields (Expr.hoistAll n es) := by
  cases es with
  | nil => trivial
  | cons e es => exact ⟨Expr.inFields_hoist e h.1, Expr.allInFields_hoistAll es h.2⟩

end

theorem Place.inFields_hoist {locals : LocalId → Prop} {params : ParamId → Prop} {n : Nat}
    (place : Place) (h : place.Uses (.iterator locals params)) : (place.hoist n).InFields := by
  cases place with
  | «local» id => exact Nat.le_trans (Nat.le_add_right 2 n) (Nat.le_add_right _ _)
  | param id => exact Nat.le_add_right 2 _
  | machineField slot => exact h.elim
  | field receiver member =>
    cases receiver with
    | none => trivial
    | some receiver => exact Expr.inFields_hoist receiver h
  | element => trivial

namespace Lowering

open Progress

/-! A part of a body, as it is seen in the finished machine. -/

variable {source : Source} {plan : Plan} {site : Site} {position : Position} {p p₁ p' : Progress}

/-- The finished machine has what lowering made on the way from `p` to `p'`. -/
structure Agrees (plan : Plan) (p p' : Progress) : Prop where
  resume : p'.resumeLabels <+: plan.resumeLabels
  known : ∀ f state, p'.Allocated state → plan.frames.known f state = p'.frames.known f state
  handlers : ∀ g, p.handlers.length ≤ g → g < p'.handlers.length →
    plan.handlers[g]? = p'.handlers[g]?.map (·.body.root)

/-- A site of the finished machine is a position at `p'`. -/
structure Placed (site : Site) (position : Position) (p' : Progress) : Prop where
  frame : position.frame = FrameTree.frameOf site.path
  inTry : site.inTry = position.inTry
  inside : site.path ≠ [] →
    ∀ l, l ∈ site.inside ↔ l ∈ (p'.frames.frame position.frame).definedLabels
  proxies : ∀ pair ∈ (p'.frames.frame position.frame).proxies, pair ∈ site.proxies

/-- At `p` the local for the answer is the one of the finished method, or it is made later. -/
def Settled (result : Option LocalId) (p : Progress) : Prop :=
  ∀ r, result = some r →
    p.result? = some r ∧ r.index < p.locals.length ∨ p.result? = none ∧ p.locals.length ≤ r.index

theorem getElem?_of_longer {α : Type} {xs ys : List α} (h : xs <+: ys) {i : Nat}
    (room : i < xs.length) : ys[i]? = xs[i]? := by
  rw [List.prefix_iff_getElem?.mp h i room, List.getElem?_eq_getElem room]

/-- What `p` has is still there in `p'`, but for the code of the handlers before `low`. -/
structure Later (low : Nat) (p p' : Progress) : Prop where
  resume : p.resumeLabels <+: p'.resumeLabels
  length : p.handlers.length ≤ p'.handlers.length
  handlers : ∀ g, low ≤ g → g < p.handlers.length → p'.handlers[g]? = p.handlers[g]?
  known : ∀ f state, p.Allocated state → p'.frames.known f state = p.frames.known f state

namespace Later

variable {low : Nat}

theorem of_grows (h : Grows p p') : Later low p p' where
  resume := h.resume
  length := h.handlers.length_le
  handlers _ _ room := getElem?_of_longer h.handlers room
  known := h.known

theorem trans (h : Later low p p₁) (h' : Later low p₁ p') : Later low p p' where
  resume := h.resume.trans h'.resume
  length := Nat.le_trans h.length h'.length
  handlers g above room :=
    (h'.handlers g above (Nat.lt_of_lt_of_le room h.length)).trans (h.handlers g above room)
  known f state used :=
    (h'.known f state (used.mono h.resume.length_le h.length)).trans (h.known f state used)

theorem takeProxies (p : Progress) (frame : FrameId) : Later low p (p.takeProxies frame) where
  resume := List.prefix_rfl
  length := Nat.le_refl _
  handlers _ _ _ := rfl
  known f state _ := congrArg (List.lookup state) (p.knownStates_takeProxies frame f)

theorem withLocals (p : Progress) (locals : List LocalDecl) : Later low p { p with locals } where
  resume := List.prefix_rfl
  length := Nat.le_refl _
  handlers _ _ _ := rfl
  known _ _ _ := rfl

theorem withHandler (p : Progress) {index : Nat} (before : index < low) (locals : List LocalDecl)
    (code : List Stmt) : Later low p (p.withHandler index locals code) where
  resume := List.prefix_rfl
  length := Nat.le_of_eq (List.length_modify ..).symm
  handlers _ above _ := List.getElem?_modify_ne _ _ (by omega)
  known _ _ _ := rfl

end Later

theorem Agrees.first (h : Agrees plan p p') (later : Later p.handlers.length p₁ p') :
    Agrees plan p p₁ where
  resume := later.resume.trans h.resume
  known f state used :=
    (h.known f state (used.mono later.resume.length_le later.length)).trans
      (later.known f state used)
  handlers g low high := by
    rw [h.handlers g low (Nat.lt_of_lt_of_le high later.length), later.handlers g low high]

theorem Agrees.second (h : Agrees plan p p')
    (more : p.handlers.length ≤ p₁.handlers.length) : Agrees plan p₁ p' where
  resume := h.resume
  known := h.known
  handlers g low high := h.handlers g (Nat.le_trans more low) high

theorem Placed.before (h : Placed site position p')
    (fixed : (p'.frames.frame position.frame).fixed = (p₁.frames.frame position.frame).fixed)
    (proxies : (p₁.frames.frame position.frame).proxies <+:
      (p'.frames.frame position.frame).proxies) : Placed site position p₁ where
  frame := h.frame
  inTry := h.inTry
  inside nested l := by rw [h.inside nested, Frame.definedLabels_eq fixed]
  proxies pair hp := h.proxies pair (proxies.subset hp)

theorem Placed.of_grows (h : Placed site position p') (lies : p₁.frames.Lies site.path)
    (later : Grows p₁ p') : Placed site position p₁ := by
  have room := lies.room
  rw [← h.frame] at room
  exact h.before (later.fixed _ room) (later.proxies _ room)

theorem Placed.within (h : Placed site position p') :
    Placed site.within { position with inTry := true } p' :=
  ⟨h.frame, rfl, h.inside, h.proxies⟩

theorem Placed.followed (h : Placed site position p') (n : Nat) :
    Placed (site.followed n) position p' :=
  ⟨h.frame, h.inTry, h.inside, h.proxies⟩

theorem Placed.cleaning (h : Placed site position p') : Placed site.cleaning position p' :=
  ⟨h.frame, h.inTry, h.inside, h.proxies⟩

/-- At `p'` there are the locals of `p`, and the one for the answer is an old one or a later
one. -/
structure Widens (p p' : Progress) : Prop where
  locals : p.locals.length ≤ p'.locals.length
  result : p'.result? = p.result? ∨ p.result? = none ∧
    ∃ r, p'.result? = some r ∧ p.locals.length ≤ r.index ∧ r.index < p'.locals.length

theorem Progress.Grows.widens (h : Grows p p') : Widens p p' := ⟨h.locals.length_le, h.result⟩

theorem Settled.between {result : Option LocalId} (h : Settled result p) (h' : Settled result p')
    (earlier : Widens p p₁) (later : Widens p₁ p') : Settled result p₁ := by
  intro r hr
  have wide := earlier.locals
  have wide' := later.locals
  rcases h r hr with ⟨made, room⟩ | ⟨missing, low⟩
  · rcases earlier.result with same | ⟨none, -⟩
    · exact .inl ⟨same.trans made, by omega⟩
    · rw [made] at none
      cases none
  · rcases h' r hr with ⟨made', room'⟩ | ⟨missing', low'⟩
    · rcases later.result with same | ⟨none, r', made, low', -⟩
      · rcases earlier.result with same' | ⟨-, r', made, -, high⟩
        · rw [made', same', missing] at same
          cases same
        · have now := same.symm.trans made'
          rw [now] at made
          cases made
          exact .inl ⟨now, high⟩
      · rw [made'] at made
        cases made
        exact .inr ⟨none, low'⟩
    · rcases later.result with same | ⟨none, r', made, -⟩
      · exact .inr ⟨same.symm.trans missing', by omega⟩
      · rw [missing'] at made
        cases made

theorem settled_none (p : Progress) : Settled none p := fun r hr => by cases hr

/-- A jump is routed as the site says. -/
theorem Placed.routed (h : Placed site position p') (lies : p.frames.Lies site.path)
    {target l : LabelId} (hr : route position.frame target p = .ok (l, p')) : site.Routed target l := by
  have room := lies.room
  rw [← h.frame] at room
  have grown := (route_grows hr).1
  have here := h.before (grown.fixed _ room) (grown.proxies _ room)
  have root : (p.frames.frame position.frame).ancestors.isEmpty = site.path.isEmpty := by
    rw [h.frame]
    exact lies.isEmpty
  have reaches : p.frames.reaches position.frame target = true ↔
      site.path = [] ∨ target ∈ site.inside := by
    unfold FrameTree.reaches
    rw [root, Bool.or_eq_true, List.isEmpty_iff, decide_eq_true_iff]
    by_cases outside : site.path = []
    · simp [outside]
    · simp [outside, here.inside outside]
  have missed : p.frames.reaches position.frame target = false →
      site.path ≠ [] ∧ target ∉ site.inside := by
    intro missed
    rw [← not_or, ← reaches, missed]
    exact Bool.false_ne_true
  rcases route_eq_ok hr with ⟨found, rfl, -⟩ | ⟨missed', known, -⟩ | ⟨missed', -, rfl, -, made⟩
  · exact .inl ⟨reaches.mp found, rfl⟩
  · obtain ⟨nested, outside⟩ := missed missed'
    refine .inr ⟨nested, outside, here.proxies _ ?_⟩
    obtain ⟨before, after, split, -⟩ := List.lookup_eq_some_iff.mp known
    rw [split]
    exact List.mem_append_right _ List.mem_cons_self
  · obtain ⟨nested, outside⟩ := missed missed'
    refine .inr ⟨nested, outside, h.proxies _ ?_⟩
    rw [made]
    unfold FrameTree.addProxy
    dsimp only
    rw [FrameTree.frame_modify_self _ room]
    exact List.mem_append_right _ List.mem_cons_self

/-- What lowering was told of a part of a body, and what it made of it, at a site of the finished
machine. -/
structure Writes (plan : Plan) (site : Site) (position : Position) (p p' : Progress)
    (around : List TryId) (yields breaks : Bool) (frames : List TryId)
    (sites : List (Expr × List TryId)) : Prop where
  sound : p.Sound plan.base
  lies : p.frames.Lies site.path
  started : 1 ≤ p.resumeLabels.length
  agrees : Agrees plan p p'
  frames : frames <+: plan.tries.drop p.handlers.length
  left : yields = true →
    p.resumeLabels.length + sites.length + site.left = plan.yields.length + 1
  sites : sites <+: plan.yields.drop (p.resumeLabels.length - 1)
  around : site.path.map (plan.tries[·]?) = around.map some
  placed : Placed site position p'
  before : Settled site.result p
  after : Settled site.result p'
  answer : breaks = true → ∀ r, p'.result? = some r → site.result = some r
  native : yields = true → site.native = false
  leaves : breaks = true → site.inTry = false → site.native = false

namespace Writes

variable {around : List TryId} {yields yields' breaks breaks' : Bool} {frames frames' : List TryId}
  {sites sites' : List (Expr × List TryId)}

theorem room (h : Writes plan site position p p' around yields breaks frames sites) :
    position.frame.index < p.frames.frames.length := by
  rw [h.placed.frame]
  exact h.lies.room

theorem first (h : Writes plan site position p p' around (yields || yields') (breaks || breaks')
    (frames ++ frames') (sites ++ sites')) (step : Evolves plan.base breaks p p₁)
    (later : Grows p₁ p') :
    Writes plan (site.followed sites'.length) position p p₁ around yields breaks frames sites where
  sound := h.sound
  lies := h.lies
  started := h.started
  agrees := h.agrees.first (.of_grows later)
  frames := (List.prefix_append _ _).trans h.frames
  sites := (List.prefix_append _ _).trans h.sites
  left some := by
    have left := h.left (by rw [some]; rfl)
    rw [List.length_append] at left
    change _ + _ + (site.left + sites'.length) = _
    omega
  around := h.around
  placed := (h.placed.of_grows (step.grows.lies h.lies) later).followed sites'.length
  before := h.before
  after := h.before.between h.after step.grows.widens later.widens
  answer some r made := by
    refine h.answer (by rw [some]; rfl) r ?_
    rcases later.result with same | ⟨none, -⟩
    · exact same.trans made
    · rw [made] at none
      cases none
  native some := h.native (by rw [some]; rfl)
  leaves some := h.leaves (by rw [some]; rfl)

theorem second (h : Writes plan site position p p' around (yields || yields') (breaks || breaks')
    (frames ++ frames') (sites ++ sites')) (step : Evolves plan.base breaks p p₁)
    (counts : Counts frames sites p p₁) (later : Grows p₁ p') :
    Writes plan site position p₁ p' around yields' breaks' frames' sites' where
  sound := step.sound
  lies := step.grows.lies h.lies
  started := Nat.le_trans h.started step.grows.resume.length_le
  agrees := h.agrees.second step.grows.handlers.length_le
  frames := by
    obtain ⟨rest, split⟩ := h.frames
    refine ⟨rest, ?_⟩
    rw [counts.handlers, ← List.drop_drop, ← split, List.append_assoc, List.drop_left]
  sites := by
    obtain ⟨rest, split⟩ := h.sites
    refine ⟨rest, ?_⟩
    have started := h.started
    have shift : p₁.resumeLabels.length - 1 = (p.resumeLabels.length - 1) + sites.length := by
      have resume := counts.resume
      omega
    rw [shift, ← List.drop_drop, ← split, List.append_assoc, List.drop_left]
  left some := by
    have left := h.left (by rw [some]; exact Bool.or_true _)
    rw [List.length_append] at left
    rw [counts.resume]
    omega
  around := h.around
  placed := h.placed
  before := h.before.between h.after step.grows.widens later.widens
  after := h.after
  answer some := h.answer (by rw [some]; exact Bool.or_true _)
  native some := h.native (by rw [some]; exact Bool.or_true _)
  leaves some := h.leaves (by rw [some]; exact Bool.or_true _)

/-! Parts in which nothing suspends. -/

theorem part (h : Writes plan site position p p' around false (breaks || breaks')
    (frames ++ frames') []) (step : Evolves plan.base breaks p p₁) (later : Grows p₁ p') :
    Writes plan site position p p₁ around false breaks frames [] := by
  have whole : Writes plan site position p p' around (false || false) (breaks || breaks')
    (frames ++ frames') ([] ++ []) := h
  exact whole.first step later

theorem rest (h : Writes plan site position p p' around false (breaks || breaks')
    (frames ++ frames') []) (step : Evolves plan.base breaks p p₁) (counts : Counts frames [] p p₁)
    (later : Grows p₁ p') :
    Writes plan site position p₁ p' around false breaks' frames' [] := by
  have whole : Writes plan site position p p' around (false || false) (breaks || breaks')
    (frames ++ frames') ([] ++ []) := h
  exact whole.second step counts later

end Writes

end Lowering

end ManagedCode
