import ManagedCode.Proofs.Iterator.Growth
import ManagedCode.Proofs.Iterator.Names
import ManagedCode.Proofs.Run.Assigned

namespace ManagedCode

namespace Lowering

/-! Lowered code reads its locals only where they are assigned. Of these only the one that holds the
answer of a step is read after a jump: at the end of the step method. -/

/-- What a jump arrives with: at an exit the answer of the step, elsewhere nothing. -/
def arrivals (answer? : Option LocalId) (exits : Set LabelId) (l : LabelId) : Set LocalId :=
  {id | l ∈ exits ∧ answer? = some id}

/-- A label that the jumps of a body may name, or the end of its step method. -/
def Reachable (exit l : LabelId) : Prop := l = exit ∨ l.index < exit.index

variable {exit : LabelId} {answer? : Option LocalId} {exits : Set LabelId} {p p₁ p' : Progress}

theorem arrivals_of_notMem {l : LabelId} (h : l ∉ exits) (known : Set LocalId) :
    arrivals answer? exits l ⊆ known := fun _ arrived => absurd arrived.1 h

/-- Every proxy is for a jump that the body may make. -/
def Progress.Targeted (exit : LabelId) (p : Progress) : Prop :=
  ∀ f, ∀ pair ∈ (p.frames.frame f).proxies, Reachable exit pair.1

/-- What was made so far goes with a choice of exits: a proxy is an exit if it is one for the end of
the step method, and no handler needs an answer. -/
structure Progress.Ready (exit : LabelId) (answer? : Option LocalId) (exits : Set LabelId)
    (p : Progress) : Prop where
  proxies : ∀ f, ∀ pair ∈ (p.frames.frame f).proxies, pair.2 ∈ exits ↔ pair.1 = exit
  resume : ∀ l ∈ p.resumeLabels, l ∉ exits
  handlers : ∀ m ∈ p.handlers, Stmt.AssignedAll (arrivals answer? exits) ∅ m.body.root

/-- A choice of exits that is fine for what is made from `p` to `p'`: of the new labels those that
were made for jumps to the end of the step method. -/
structure Choice (exit : LabelId) (p p' : Progress) (made : Set LabelId) (answer? : Option LocalId)
    (exits : Set LabelId) : Prop where
  answered : ∀ r, p'.result? = some r → answer? = some r
  ends : exit ∈ exits
  outside : ∀ l, l.index < exit.index → l ∉ exits
  new : ∀ l, p.ids.labelCount ≤ l.index → l.index < p'.ids.labelCount → (l ∈ exits ↔ l ∈ made)

/-- From `p` to `p'` lowering keeps what is made ready for some choice of exits, and what it writes
is `fine` for it. -/
structure Prepares (exit : LabelId) (p p' : Progress) (fine : Option LocalId → Set LabelId → Prop) :
    Prop where
  labels : p.ids.labelCount ≤ p'.ids.labelCount
  result : ∀ r, p.result? = some r → p'.result? = some r
  targeted : p.Targeted exit → p'.Targeted exit
  ready : p.Targeted exit → ∃ made, ∀ answer? exits, Choice exit p p' made answer? exits →
    p.Ready exit answer? exits → p'.Ready exit answer? exits ∧ fine answer? exits

namespace Prepares

variable {fine fine' : Option LocalId → Set LabelId → Prop}

/-- A step that leaves ids, frames, states and handlers as they are. -/
theorem of_same (ids : p'.ids = p.ids) (frames : p'.frames = p.frames)
    (resume : p'.resumeLabels = p.resumeLabels) (handlers : p'.handlers = p.handlers)
    (result : ∀ r, p.result? = some r → p'.result? = some r)
    (holds : ∀ answer? exits, (∀ r, p'.result? = some r → answer? = some r) →
      (∀ l, l.index < exit.index → l ∉ exits) → fine answer? exits) :
    Prepares exit p p' fine where
  labels := Nat.le_of_eq (congrArg FreshIds.labelCount ids.symm)
  result := result
  targeted h := by
    unfold Progress.Targeted
    rw [frames]
    exact h
  ready _ := ⟨∅, fun answer? exits choice ready =>
    ⟨⟨frames ▸ ready.proxies, resume ▸ ready.resume, handlers ▸ ready.handlers⟩,
      holds answer? exits choice.answered choice.outside⟩⟩

theorem refl (p : Progress)
    (holds : ∀ answer? exits, (∀ l, l.index < exit.index → l ∉ exits) → fine answer? exits) :
    Prepares exit p p fine :=
  .of_same rfl rfl rfl rfl (fun _ h => h) fun answer? exits _ => holds answer? exits

theorem mono (h : Prepares exit p p' fine)
    (less : ∀ answer? exits, fine answer? exits → fine' answer? exits) :
    Prepares exit p p' fine' where
  labels := h.labels
  result := h.result
  targeted := h.targeted
  ready targeted := by
    obtain ⟨made, prepared⟩ := h.ready targeted
    refine ⟨made, fun answer? exits choice ready => ?_⟩
    obtain ⟨later, holds⟩ := prepared answer? exits choice ready
    exact ⟨later, less answer? exits holds⟩

/-- One after the other: each step decides about the labels that it makes. -/
theorem trans (h : Prepares exit p p₁ fine) (h' : Prepares exit p₁ p' fine') :
    Prepares exit p p' fun answer? exits => fine answer? exits ∧ fine' answer? exits where
  labels := Nat.le_trans h.labels h'.labels
  result r made := h'.result r (h.result r made)
  targeted := h'.targeted ∘ h.targeted
  ready targeted := by
    obtain ⟨made, prepared⟩ := h.ready targeted
    obtain ⟨made', prepared'⟩ := h'.ready (h.targeted targeted)
    refine ⟨{l | if l.index < p₁.ids.labelCount then l ∈ made else l ∈ made'},
      fun answer? exits choice ready => ?_⟩
    have first : Choice exit p p₁ made answer? exits :=
      { answered := fun r known => choice.answered r (h'.result r known)
        ends := choice.ends
        outside := choice.outside
        new := fun l low high => by
          rw [choice.new l low (Nat.lt_of_lt_of_le high h'.labels), Set.mem_ofPred_eq,
            if_pos high] }
    have second : Choice exit p₁ p' made' answer? exits :=
      { answered := choice.answered
        ends := choice.ends
        outside := choice.outside
        new := fun l low high => by
          rw [choice.new l (Nat.le_trans h.labels low) high, Set.mem_ofPred_eq,
            if_neg (Nat.not_lt.mpr low)] }
    obtain ⟨middle, holds⟩ := prepared answer? exits first ready
    obtain ⟨later, holds'⟩ := prepared' answer? exits second middle
    exact ⟨later, holds, holds'⟩

/-- No jump that arrives with anything goes to this new label. -/
theorem freshLabel {l : LabelId} (h : freshLabel p = .ok (l, p')) :
    Prepares exit p p' fun _ exits => l ∉ exits := by
  obtain ⟨rfl, -, rfl⟩ := freshLabel_eq_ok h
  refine ⟨Nat.le_succ _, fun _ h => h, fun h => h,
    fun _ => ⟨∅, fun answer? exits choice ready => ?_⟩⟩
  refine ⟨⟨ready.proxies, ready.resume, ready.handlers⟩, fun mem => ?_⟩
  exact (choice.new _ (Nat.le_refl _) (Nat.lt_succ_self _)).mp mem

/-- A jump goes to an exit if it is one to the end of the step method. -/
theorem route {frame : FrameId} {target l : LabelId} (known : Reachable exit target)
    (h : route frame target p = .ok (l, p')) :
    Prepares exit p p' fun _ exits => l ∈ exits ↔ target = exit := by
  rcases route_eq_ok h with ⟨-, rfl, rfl⟩ | ⟨-, proxied, rfl⟩ | ⟨-, -, rfl, -, rfl⟩
  · refine ⟨Nat.le_refl _, fun _ h => h, fun h => h, fun _ => ⟨∅, fun _ exits choice ready => ?_⟩⟩
    refine ⟨ready, fun mem => ?_, fun same => same ▸ choice.ends⟩
    exact known.resolve_right fun below => choice.outside _ below mem
  · refine ⟨Nat.le_refl _, fun _ h => h, fun h => h, fun _ => ⟨∅, fun _ exits _ ready => ?_⟩⟩
    obtain ⟨before, after, split, -⟩ := List.lookup_eq_some_iff.mp proxied
    refine ⟨ready, ready.proxies frame (target, l) ?_⟩
    rw [split]
    exact List.mem_append_right _ List.mem_cons_self
  · have added : ∀ f,
        ∀ pair ∈ ((p.frames.addProxy frame target ⟨p.ids.labelCount⟩).frame f).proxies,
        pair ∈ (p.frames.frame f).proxies ∨ pair = (target, ⟨p.ids.labelCount⟩) := by
      intro f pair mem
      unfold FrameTree.addProxy at mem
      by_cases same : f = frame
      · subst same
        rcases Nat.lt_or_ge f.index p.frames.frames.length with room | small
        · rw [FrameTree.frame_modify_self _ room, List.mem_append, List.mem_singleton] at mem
          exact mem
        · rw [FrameTree.frame_modify_of_le _ small] at mem
          exact .inl mem
      · rw [FrameTree.frame_modify_of_ne _ same] at mem
        exact .inl mem
    refine ⟨Nat.le_succ _, fun _ h => h, fun targeted f pair mem => ?_, fun _ =>
      ⟨{l | target = exit}, fun answer? exits choice ready => ?_⟩⟩
    · rcases added f pair mem with old | rfl
      · exact targeted f pair old
      · exact known
    · have here : (⟨p.ids.labelCount⟩ : LabelId) ∈ exits ↔ target = exit :=
        choice.new _ (Nat.le_refl _) (Nat.lt_succ_self _)
      refine ⟨⟨fun f pair mem => ?_, ready.resume, ready.handlers⟩, here⟩
      rcases added f pair mem with old | rfl
      · exact ready.proxies f pair old
      · exact here

theorem temp {ty : Ty} {id : LocalId} (h : temp ty p = .ok (id, p')) :
    Prepares exit p p' fun _ _ => True := by
  obtain ⟨-, rfl⟩ := temp_eq_ok h
  exact .of_same rfl rfl rfl rfl (fun _ h => h) fun _ _ _ _ => trivial

theorem resultLocal {id : LocalId} (h : resultLocal p = .ok (id, p')) :
    Prepares exit p p' fun answer? _ => answer? = some id := by
  rcases resultLocal_eq_ok h with ⟨made, rfl⟩ | ⟨none, -, rfl⟩
  · exact .of_same rfl rfl rfl rfl (fun _ h => h) fun _ _ answered _ => answered id made
  · refine .of_same rfl rfl rfl rfl (fun r made => ?_) fun _ _ answered _ => answered id rfl
    rw [none] at made
    cases made

/-- Nothing is brought to where a step goes on. -/
theorem addState {frame : FrameId} {state : Int} {l : LabelId}
    (h : addState frame p = .ok ((state, l), p')) :
    Prepares exit p p' fun _ exits => l ∉ exits := by
  obtain ⟨-, rfl, -, rfl⟩ := addState_eq_ok h
  have same : ∀ f,
      ((p.frames.addState frame state).frame f).proxies = (p.frames.frame f).proxies := by
    intro f
    rw [FrameTree.addState_eq]
    exact FrameTree.frame_tell_keeps Frame.proxies (fun _ _ => rfl) _ _
  refine ⟨Nat.le_succ _, fun _ h => h, fun targeted f pair mem => targeted f pair (same f ▸ mem),
    fun _ => ⟨∅, fun answer? exits choice ready => ?_⟩⟩
  have here : (⟨p.ids.labelCount⟩ : LabelId) ∉ exits := fun mem =>
    (choice.new _ (Nat.le_refl _) (Nat.lt_succ_self _)).mp mem
  refine ⟨⟨fun f pair mem => ready.proxies f pair (same f ▸ mem), fun l mem => ?_,
    ready.handlers⟩, here⟩
  rcases List.mem_append.mp mem with old | new
  · exact ready.resume l old
  · exact List.mem_singleton.mp new ▸ here

/-- A new frame has no proxies, and a handler without code. -/
theorem pushFrame {source : Source} {parent frame : FrameId} {id : TryId} {index : Nat}
    (h : pushFrame source parent id p = .ok ((frame, index), p')) :
    Prepares exit p p' fun _ _ => True := by
  obtain ⟨added, state, handler, bare, none, frames, handlers, ids, resume, result⟩ :
      ∃ (added : Frame) (state : Int) (handler : SynthesizedMethod),
        handler.body.root = [] ∧ added.proxies = [] ∧
        p'.frames = (p.frames.append added).addState ⟨p.frames.frames.length⟩ state ∧
        p'.handlers = p.handlers ++ [handler] ∧ p'.ids = p.ids ∧
        p'.resumeLabels = p.resumeLabels ∧ p'.result? = p.result? := by
    obtain ⟨-, -, rfl, rfl⟩ := pushFrame_eq_ok h
    exact ⟨_, _, _, rfl, rfl, rfl, rfl, rfl, rfl, rfl⟩
  have old : ∀ f, ∀ pair ∈ (p'.frames.frame f).proxies, pair ∈ (p.frames.frame f).proxies := by
    intro f pair mem
    rw [frames, FrameTree.addState_eq,
      FrameTree.frame_tell_keeps Frame.proxies (fun _ _ => rfl)] at mem
    by_cases last : f.index = p.frames.frames.length
    · rw [FrameTree.frame_append_of_eq last, none] at mem
      cases mem
    · rwa [FrameTree.frame_append_of_ne last] at mem
  refine ⟨Nat.le_of_eq (congrArg FreshIds.labelCount ids.symm), fun _ made => result.trans made,
    fun targeted f pair mem => targeted f pair (old f pair mem), fun _ =>
      ⟨∅, fun answer? exits choice ready => ⟨⟨?_, ?_, ?_⟩, trivial⟩⟩⟩
  · exact fun f pair mem => ready.proxies f pair (old f pair mem)
  · exact resume ▸ ready.resume
  · intro m mem
    rw [handlers] at mem
    rcases List.mem_append.mp mem with before | new
    · exact ready.handlers m before
    · rw [List.mem_singleton.mp new, bare]
      trivial

/-- When a frame has ended its handler has its code, and the method around its locals. -/
theorem withHandler (h : Prepares exit p p₁ fine) (index : Nat) (locals : List LocalDecl)
    {code : List Stmt}
    (holds : ∀ answer? exits, fine answer? exits →
      Stmt.AssignedAll (arrivals answer? exits) ∅ code) :
    Prepares exit p (p₁.withHandler index locals code) fine where
  labels := h.labels
  result := h.result
  targeted := h.targeted
  ready targeted := by
    obtain ⟨made, prepared⟩ := h.ready targeted
    refine ⟨made, fun answer? exits choice ready => ?_⟩
    obtain ⟨later, good⟩ := prepared answer? exits ⟨choice.answered, choice.ends, choice.outside,
      choice.new⟩ ready
    refine ⟨⟨later.proxies, later.resume, fun m mem => ?_⟩, good⟩
    obtain ⟨i, found⟩ := List.mem_iff_getElem?.mp mem
    obtain ⟨m', found', rfl⟩ : ∃ m', p₁.handlers[i]? = some m' ∧ (if index = i then
        { m' with body := { locals := p₁.locals, root := code } } else m') = m := by
      change (p₁.handlers.modify index _)[i]? = some m at found
      rw [List.getElem?_modify] at found
      exact Option.map_eq_some_iff.mp found
    split
    · exact holds answer? exits good
    · exact later.handlers m' (List.mem_of_getElem? found')

/-- A jump of the body brings nothing. -/
theorem jump {frame : FrameId} {target l : LabelId} (below : target.index < exit.index)
    (h : Lowering.route frame target p = .ok (l, p')) :
    Prepares exit p p' fun _ exits => l ∉ exits := by
  refine (Prepares.route (.inr below) h).mono fun _ _ fine mem => ?_
  rw [fine.mp mem] at below
  exact Nat.lt_irrefl _ below

theorem routesCases {frame : FrameId} {cases cases' : List (Int64 × LabelId)}
    (below : ∀ l ∈ cases.map (·.2), l.index < exit.index)
    (h : RoutesCases frame p cases cases' p') :
    Prepares exit p p' fun _ exits => ∀ l ∈ cases'.map (·.2), l ∉ exits := by
  induction h with
  | nil => exact .refl _ fun _ _ _ _ none => by cases none
  | cons h rest ih =>
    have first := jump (below _ List.mem_cons_self) h
    have later := ih fun l mem => below l (List.mem_cons_of_mem _ mem)
    exact (first.trans later).mono fun _ _ fine => List.forall_mem_cons.mpr fine

theorem routesDefault {frame : FrameId} {default? default' : Option LabelId}
    (below : ∀ l ∈ default?.toList, l.index < exit.index)
    (h : RoutesDefault frame p default? default' p') :
    Prepares exit p p' fun _ exits => ∀ l ∈ default'.toList, l ∉ exits := by
  cases h with
  | none => exact .refl _ fun _ _ _ _ none => by cases none
  | some h =>
    refine (jump (below _ (List.mem_singleton_self _)) h).mono fun _ _ fine l mem => ?_
    exact List.mem_singleton.mp mem ▸ fine

end Prepares

/-- A proxy arrives with what the jump that it hands on arrives with. -/
theorem ProxiesEnd.prepares {parent : FrameId} {handler : SynthMethodId}
    {proxies : List (LabelId × LabelId)} {out : List Stmt}
    (known : ∀ pair ∈ proxies, Reachable exit pair.1)
    (h : ProxiesEnd parent handler p proxies out p') :
    Prepares exit p p' fun answer? exits => (∀ pair ∈ proxies, pair.2 ∈ exits ↔ pair.1 = exit) →
      Stmt.AssignedAll (arrivals answer? exits) Set.univ out := by
  induction h with
  | nil => exact .refl _ fun _ _ _ _ => trivial
  | @cons p p₁ p' target proxy next rest sections h more ih =>
    have first : Prepares exit p p₁ fun _ exits => next ∈ exits ↔ target = exit :=
      .route (known _ List.mem_cons_self) h
    have later := ih fun pair mem => known pair (List.mem_cons_of_mem _ mem)
    refine (first.trans later).mono fun answer? exits fine proxied => ?_
    have here : proxy ∈ exits ↔ target = exit := proxied _ List.mem_cons_self
    have arrives : arrivals answer? exits next ⊆ arrivals answer? exits proxy := fun id arrived =>
      ⟨here.mpr (fine.1.mp arrived.1), arrived.2⟩
    exact ⟨Set.subset_univ _, ⟨trivial, trivial⟩, arrives,
      fine.2 fun pair mem => proxied pair (List.mem_cons_of_mem _ mem)⟩

/-- The end of a frame needs nothing that is not brought to its proxies. -/
theorem FrameEnds.prepares {parent frame : FrameId} {handler : SynthMethodId} {out : List Stmt}
    (h : FrameEnds parent frame handler p out p') (targeted : p.Targeted exit) :
    Prepares exit p p' fun answer? exits =>
      ∀ known, Stmt.AssignedAll (arrivals answer? exits) known out := by
  -- The proxies that are taken were ready.
  have taken : Prepares exit p (p.takeProxies frame) fun _ exits =>
      ∀ pair ∈ (p.frames.frame frame).proxies, pair.2 ∈ exits ↔ pair.1 = exit :=
    { labels := Nat.le_refl _
      result := fun _ h => h
      targeted := fun targeted f pair mem => targeted f pair (Progress.proxies_takeProxies mem)
      ready := fun _ => ⟨∅, fun answer? exits choice ready =>
        ⟨⟨fun f pair mem => ready.proxies f pair (Progress.proxies_takeProxies mem), ready.resume,
          ready.handlers⟩, ready.proxies frame⟩⟩ }
  cases h with
  | plain none => exact taken.mono fun _ _ _ _ => ⟨⟨trivial, trivial⟩, trivial⟩
  | @proxies p₁ _ drop sections some h more =>
    have fresh : Prepares exit (p.takeProxies frame) p₁ fun _ exits => drop ∉ exits := .freshLabel h
    have written := more.prepares (targeted frame)
    refine ((taken.trans fresh).trans written).mono fun answer? exits fine known => ?_
    obtain ⟨⟨proxied, quiet⟩, assigned⟩ := fine
    refine ⟨arrivals_of_notMem quiet _, Stmt.assignedAll_append.mpr ⟨assigned proxied, ?_⟩⟩
    exact ⟨arrivals_of_notMem quiet _, ⟨trivial, trivial⟩, trivial⟩

section

variable {params locals : Nat}

theorem within_reading (known : Set LocalId) (fields : Nat) :
    (Vocabulary.method 0 fields 0).Within (.reading known) where
  locals h := absurd h (Nat.not_lt_zero _)
  params _ := trivial
  slots _ := trivial
  methods _ := trivial
  suspends _ := trivial
  returns _ := trivial

/-- What is hoisted reads no local. -/
theorem reads_hoist {e : Expr} (own : e.Uses (.iterator (·.index < locals) (·.index < params)))
    (known : Set LocalId) : (e.hoist params).Uses (.reading known) := by
  have hoisted : (e.hoist params).Uses (.method 0 (2 + params + locals) 0) :=
    Expr.uses_hoist (Nat.le_refl _) e own
  exact Expr.Uses.mono (within_reading known _) _ hoisted

theorem reads_hoistPlace {place : Place}
    (own : place.Uses (.iterator (·.index < locals) (·.index < params))) (known : Set LocalId) :
    (place.hoist params).Reads known ∧ ∀ (arrives : LabelId → Set LocalId) (value : Expr),
      (Stmt.assign (place.hoist params) value).after arrives known = known := by
  have uses : (place.hoist params).Uses (.reading known) :=
    Place.Uses.mono (within_reading known (2 + params + locals)) _
      (Place.uses_hoist (Nat.le_refl _) place own)
  cases place with
  | field receiver member => cases receiver <;> exact ⟨uses, fun _ _ => rfl⟩
  | _ => exact ⟨uses, fun _ _ => rfl⟩

end

/-- Lowered code that is ready to be run wherever it stands. -/
abbrev PreparesCode (exit : LabelId) (p p' : Progress) (out : List Stmt) : Prop :=
  Prepares exit p p' fun answer? exits =>
    ∀ known, Stmt.AssignedAll (arrivals answer? exits) known out

abbrev PreparesCatches (exit : LabelId) (p p' : Progress) (out : List Catch) : Prop :=
  Prepares exit p p' fun answer? exits =>
    ∀ known, Catch.AssignedAll (arrivals answer? exits) known out

/-- The labels that a list names are those of a body, if those are that lead out of it. -/
theorem below_targets {ss : List Stmt} (labels : ∀ l ∈ Stmt.labelsAll ss, l.index < exit.index)
    (escapes : ∀ l ∈ Stmt.escapesAll ss, l.index < exit.index) :
    ∀ l ∈ Stmt.targets ss, l.index < exit.index := by
  intro l target
  by_cases plain : l ∈ Stmt.plainLabelsAll ss
  · exact labels l (Stmt.plainLabelsAll_subset ss l plain)
  · exact escapes l (mem_unresolved.mpr ⟨target, plain⟩)

variable {source : Source} {locals : Nat}

mutual

/-- What a statement is written as reads its locals only where they are assigned. -/
theorem Rewrites.prepares {s : Stmt} {out : List Stmt} {position : Position} {p p' : Progress}
    (h : Rewrites source position p s out p')
    (own : s.Uses (.iterator (·.index < locals) (·.index < source.paramCount)))
    (labels : ∀ l ∈ s.labels, l.index < source.exitLabel.index)
    (escapes : ∀ l ∈ s.escapes, l.index < source.exitLabel.index)
    (targeted : p.Targeted source.exitLabel) : PreparesCode source.exitLabel p p' out := by
  cases h with
  | block h =>
    have inner := RewritesAll.prepares h own labels (below_targets labels escapes) targeted
    exact inner.mono fun _ _ fine known => ⟨fine known, trivial⟩
  | expr | throw => exact .refl _ fun _ _ _ known => ⟨reads_hoist own known, trivial⟩
  | assign =>
    exact .refl _ fun _ _ _ known =>
      ⟨⟨(reads_hoistPlace own.1 known).1, reads_hoist own.2 known⟩, trivial⟩
  | label =>
    refine .refl _ fun _ _ outside known => ⟨?_, trivial⟩
    exact arrivals_of_notMem (outside _ (labels _ (List.mem_singleton_self _))) _
  | nop => exact .refl _ fun _ _ _ _ => ⟨trivial, trivial⟩
  | goto h =>
    exact (Prepares.jump (escapes _ (List.mem_singleton_self _)) h).mono fun _ _ quiet _ =>
      ⟨arrivals_of_notMem quiet _, trivial⟩
  | condGoto h =>
    exact (Prepares.jump (escapes _ (List.mem_singleton_self _)) h).mono fun _ _ quiet known =>
      ⟨⟨reads_hoist own known, arrivals_of_notMem quiet _⟩, trivial⟩
  | switch hc hd =>
    have cases' := Prepares.routesCases (fun l mem => escapes l (List.mem_append_left _ mem)) hc
    have default' :=
      Prepares.routesDefault (fun l mem => escapes l (List.mem_append_right _ mem)) hd
    refine (cases'.trans default').mono fun _ _ quiet known =>
      ⟨⟨reads_hoist own known, ?_⟩, trivial⟩
    intro l mem
    refine arrivals_of_notMem ?_ _
    exact (List.mem_append.mp mem).elim (quiet.1 l) (quiet.2 l)
  | yield h =>
    refine (Prepares.addState h).mono fun _ _ quiet known => ?_
    exact ⟨⟨trivial, reads_hoist own.2 known⟩, ⟨trivial, trivial⟩, trivial,
      arrivals_of_notMem quiet _, ⟨trivial, trivial⟩, trivial⟩
  | breakOut => exact .refl _ fun _ _ _ _ => ⟨⟨trivial, trivial⟩, trivial, trivial⟩
  | breakTry inside hr h =>
    have answered : Prepares source.exitLabel _ _ _ := .resultLocal hr
    refine (answered.trans (.route (.inl rfl) h)).mono fun _ _ fine known => ?_
    refine ⟨⟨trivial, trivial⟩, fun id arrived => ?_, trivial⟩
    cases fine.1.symm.trans arrived.2
    exact Set.mem_insert _ _
  | tryCatch plain hb hc =>
    have inBody : ∀ l ∈ Stmt.labelsAll _, _ := fun l mem => labels l (List.mem_append_left _ mem)
    have body := RewritesAll.prepares hb own.1 inBody
      (below_targets inBody fun l mem => escapes l (List.mem_append_left _ mem)) targeted
    have catches := RewritesCatches.prepares hc own.2
      (fun l mem => labels l (List.mem_append_right _ mem))
      (fun l mem => escapes l (List.mem_append_right _ mem)) (body.targeted targeted)
    exact (body.trans catches).mono fun _ _ fine known => ⟨⟨fine.1 known, fine.2 known⟩, trivial⟩
  | tryFinally plain hb hc hf =>
    have inBody : ∀ l ∈ Stmt.labelsAll _, _ := fun l mem =>
      labels l (List.mem_append_left _ (List.mem_append_left _ mem))
    have inCleanup : ∀ l ∈ Stmt.labelsAll _, _ := fun l mem =>
      labels l (List.mem_append_right _ mem)
    have body := RewritesAll.prepares hb own.1 inBody (below_targets inBody fun l mem =>
      escapes l (List.mem_append_left _ (List.mem_append_left _ mem))) targeted
    have catches := RewritesCatches.prepares hc own.2.1
      (fun l mem => labels l (List.mem_append_left _ (List.mem_append_right _ mem)))
      (fun l mem => escapes l (List.mem_append_left _ (List.mem_append_right _ mem)))
      (body.targeted targeted)
    have cleanup := RewritesAll.prepares hf own.2.2 inCleanup
      (below_targets inCleanup fun l mem => escapes l (List.mem_append_right _ mem))
      (catches.targeted (body.targeted targeted))
    exact ((body.trans catches).trans cleanup).mono fun _ _ fine known =>
      ⟨⟨fine.1.1 known, fine.1.2 known, fine.2 known⟩, trivial⟩
  | @frame _ p p₁ p₂ p₃ p₄ id frame index body stmts cleanup clause leave catches suspends hp hb hl
      hc =>
    have inBody : ∀ l ∈ Stmt.labelsAll body, _ := fun l mem =>
      labels l (List.mem_append_left _ (List.mem_append_left _ mem))
    have inCleanup : ∀ l ∈ Stmt.labelsAll cleanup, _ := fun l mem =>
      labels l (List.mem_append_right _ mem)
    have pushed : Prepares source.exitLabel p p₁ fun _ _ => True := .pushFrame hp
    have written := RewritesAll.prepares hb own.1 inBody (below_targets inBody fun l mem =>
      escapes l (List.mem_append_left _ (List.mem_append_left _ mem))) (pushed.targeted targeted)
    have inside := pushed.trans written
    have ends := hl.prepares (inside.targeted targeted)
    have own' : Prepares source.exitLabel p₃ { p₃ with locals := [] } fun _ _ => True :=
      .of_same rfl rfl rfl rfl (fun _ h => h) fun _ _ _ _ => trivial
    have left := (inside.trans ends).trans own'
    have cleaned := RewritesAll.prepares hc own.2.2 inCleanup
      (below_targets inCleanup fun l mem => escapes l (List.mem_append_right _ mem))
      (left.targeted targeted)
    refine ((left.trans cleaned).withHandler index p₃.locals fun _ _ fine => ?_).mono
      fun _ _ fine known => ?_
    · exact ⟨⟨trivial, trivial⟩, Stmt.assignedAll_append.mpr ⟨fine.2 _, trivial, trivial⟩⟩
    · obtain ⟨⟨⟨⟨-, body⟩, leave⟩, -⟩, -⟩ := fine
      exact ⟨⟨⟨trivial, trivial⟩, Stmt.assignedAll_append.mpr ⟨body _, leave _⟩⟩, trivial⟩
  | tryFault hb hf =>
    have inBody : ∀ l ∈ Stmt.labelsAll _, _ := fun l mem => labels l (List.mem_append_left _ mem)
    have inFault : ∀ l ∈ Stmt.labelsAll _, _ := fun l mem => labels l (List.mem_append_right _ mem)
    have body := RewritesAll.prepares hb own.1 inBody
      (below_targets inBody fun l mem => escapes l (List.mem_append_left _ mem)) targeted
    have fault := RewritesAll.prepares hf own.2 inFault
      (below_targets inFault fun l mem => escapes l (List.mem_append_right _ mem))
      (body.targeted targeted)
    exact (body.trans fault).mono fun _ _ fine known => ⟨⟨fine.1 known, fine.2 known⟩, trivial⟩

theorem RewritesAll.prepares {ss out : List Stmt} {position : Position} {p p' : Progress}
    (h : RewritesAll source position p ss out p')
    (own : Stmt.UsesAll (.iterator (·.index < locals) (·.index < source.paramCount)) ss)
    (labels : ∀ l ∈ Stmt.labelsAll ss, l.index < source.exitLabel.index)
    (targets : ∀ l ∈ Stmt.targets ss, l.index < source.exitLabel.index)
    (targeted : p.Targeted source.exitLabel) : PreparesCode source.exitLabel p p' out := by
  cases h with
  | nil => exact .refl _ fun _ _ _ _ => trivial
  | cons hs hss =>
    have first := Rewrites.prepares hs own.1 (fun l mem => labels l (List.mem_append_left _ mem))
      (fun l mem => targets l (List.mem_append_left _ mem)) targeted
    have rest := RewritesAll.prepares hss own.2
      (fun l mem => labels l (List.mem_append_right _ mem))
      (fun l mem => targets l (List.mem_append_right _ mem)) (first.targeted targeted)
    exact (first.trans rest).mono fun _ _ fine known =>
      Stmt.assignedAll_append.mpr ⟨fine.1 known, fine.2 _⟩

theorem RewritesCatches.prepares {cs out : List Catch} {position : Position} {p p' : Progress}
    (h : RewritesCatches source position p cs out p')
    (own : Catch.UsesAll (.iterator (·.index < locals) (·.index < source.paramCount)) cs)
    (labels : ∀ l ∈ Catch.labelsAll cs, l.index < source.exitLabel.index)
    (escapes : ∀ l ∈ Catch.escapesAll cs, l.index < source.exitLabel.index)
    (targeted : p.Targeted source.exitLabel) : PreparesCatches source.exitLabel p p' out := by
  cases h with
  | nil => exact .refl _ fun _ _ _ _ => trivial
  | plain hb hcs =>
    have inBody : ∀ l ∈ Stmt.labelsAll _, _ := fun l mem => labels l (List.mem_append_left _ mem)
    have body := RewritesAll.prepares hb own.2.1 inBody
      (below_targets inBody fun l mem => escapes l (List.mem_append_left _ mem)) targeted
    have rest := RewritesCatches.prepares hcs own.2.2
      (fun l mem => labels l (List.mem_append_right _ mem))
      (fun l mem => escapes l (List.mem_append_right _ mem)) (body.targeted targeted)
    exact (body.trans rest).mono fun _ _ fine known => ⟨fine.1 known, fine.2 known⟩
  | @caught _ _ _ _ _ _ caught temp _ _ _ _ ht hb hcs =>
    have inBody : ∀ l ∈ Stmt.labelsAll _, _ := fun l mem => labels l (List.mem_append_left _ mem)
    have start : Prepares source.exitLabel _ _ _ := .temp ht
    have body := RewritesAll.prepares hb own.2.1 inBody
      (below_targets inBody fun l mem => escapes l (List.mem_append_left _ mem))
      (start.targeted targeted)
    have first := start.trans body
    have rest := RewritesCatches.prepares hcs own.2.2
      (fun l mem => labels l (List.mem_append_right _ mem))
      (fun l mem => escapes l (List.mem_append_right _ mem)) (first.targeted targeted)
    -- The exception is read from the local that it was just caught in.
    exact (first.trans rest).mono fun _ _ fine known =>
      ⟨⟨⟨trivial, Set.mem_insert temp known⟩, fine.1.2 _⟩, fine.2 known⟩

end

end Lowering

end ManagedCode
