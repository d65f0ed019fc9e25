import ManagedCode.Proofs.Iterator.Handlers

namespace ManagedCode

namespace Lowering

variable {σ : Type} {plan : Plan} {observer : Observer σ} {E M : Environment σ} {cached : LocalId}

/-- A state that a field of the machine can hold. -/
def Fits (state : Int) : Prop := (Int64.ofInt state).toInt = state

instance (state : Int) : Decidable (Fits state) :=
  inferInstanceAs (Decidable ((Int64.ofInt state).toInt = state))

/-- What a dispose method executes for a frame before it calls its handler: in a state that is
known there, what is due in the child under which the state lies. -/
inductive DueIn (frames : FrameTree) (handler : Nat → SynthMethodId) (cached : LocalId) :
    FrameId → List Stmt → Prop
  | nothing {f : FrameId} (childless : ∀ s, frames.known f s = none) :
    DueIn frames handler cached f []
  | children {f : FrameId} {cases : List (Int64 × LabelId)} {done : LabelId}
    {sections : List Stmt} (label : Nat → LabelId) (number : Nat → TryId)
    (inner : Nat → List Stmt)
    (chosen : ∀ s g, frames.known f s = some ⟨g + 1⟩ →
      cases.lookup (Int64.ofInt s) = some (label g))
    (other : ∀ s, Fits s → frames.known f s = none → cases.lookup (Int64.ofInt s) = none)
    (code : ∀ s g, frames.known f s = some ⟨g + 1⟩ → ∃ rest,
      .label (label g) :: .tryCatch (number g) (inner g) []
        (some [.expr (.callSynthesized (handler g))]) :: .goto done :: rest <:+ sections)
    (deeper : ∀ s g, frames.known f s = some ⟨g + 1⟩ →
      DueIn frames handler cached ⟨g + 1⟩ (inner g))
    (unique : (Stmt.plainLabelsAll sections ++ [done]).Nodup) :
    DueIn frames handler cached f
      (.switch (.local cached) cases none :: .goto done :: sections ++ [.label done])

/-- Open try statements and the frames that stand for them, innermost first: each handler leaves
its try statement for the frames around. -/
inductive Tower (observer : Observer σ) (E M : Environment σ) : List OpenTry → List Nat → Prop
  | nil : Tower observer E M [] []
  | cons {try_ : OpenTry} {g : Nat} {opened : List OpenTry} {path : List Nat}
    (guards : Guards observer E M try_ g (stateOf path)) (below : Tower observer E M opened path) :
    Tower observer E M (try_ :: opened) (g :: path)

theorem Tower.drop {above below : List OpenTry} {inner around : List Nat}
    (h : Tower observer E M (above ++ below) (inner ++ around))
    (same : above.length = inner.length) : Tower observer E M below around := by
  induction inner generalizing above with
  | nil =>
    cases List.length_eq_zero_iff.mp same
    exact h
  | cons g inner ih =>
    obtain ⟨try_, above, rfl⟩ := List.exists_cons_of_length_eq_add_one same
    cases h with
    | cons _ below => exact ih below (by simpa using same)

/-- How a dispatch ends where try statements were left with `flow`. -/
structure Dispatched (after : Int) (current : Option Value) (flow : Flow) (b : Config σ)
    (flow' : Flow) (a' : Config σ) (ended : Flow) (b' : Config σ) : Prop where
  flows : Unwound flow flow' ended
  alike : Alike b'.world.fields[0]? current a'.world b'.world
  outside : ended = .normal ∨ b'.world.fields[0]? = some (stateValue after)
  kept : b'.activation = b.activation

/-- A cleanup that calls a handler does what leaving its try statement does. -/
theorem cleanUp_handler {try_ : OpenTry} {g : Nat} {after : Int}
    (guards : Guards observer E M try_ g after) {state current : Option Value} {a b : Config σ}
    (alike : Alike state current a.world b.world) {flow flow' ended : Flow}
    (h : Unwound flow flow' ended) :
    Simulates (Coroutine.leaveTry E observer try_ flow') a
      (Environment.cleanUp M.runAll [handlerCall g] ended) b SameHost
      (fun flow'' a' ended' b' => Unwound flow flow'' ended' ∧
        Alike (some (stateValue after)) current a'.world b'.world ∧
        b'.activation = b.activation) := by
  have start : M.runAll [handlerCall g] = Exec.tick >>= fun _ =>
      callHandler M g >>= Environment.follow M.runs [⟨[handlerCall g], []⟩] := by
    unfold Environment.runAll
    rw [Environment.runs_eq rfl]
    rfl
  have call : Simulates (Coroutine.leaveTry E observer try_ flow') a (M.runAll [handlerCall g]) b
      SameHost (Left after current flow' b) := by
    rw [start]
    refine .ahead (.tick _ b) ((guards flow' alike).answer ?_)
    intro flow'' a' ended' b' left
    have flows := left.flows
    rcases flows with ⟨rfl, rfl⟩ | ⟨value, rfl, rfl⟩
    · exact ⟨.normal, Environment.runs_done rfl, left⟩
    · exact ⟨.throw value, rfl, left⟩
  refine call.answer ?_
  intro flow'' a' ended' b' left
  obtain ⟨⟨rfl, rfl⟩ | ⟨value, rfl, rfl⟩, alike', kept⟩ := left
  · exact ⟨ended, rfl, h, alike', kept⟩
  · exact ⟨.throw value, rfl, .inr ⟨value, rfl, rfl⟩, alike', kept⟩

theorem ends_switch {E : Environment σ} {c : Config σ} {value : Int64}
    {cases : List (Int64 × LabelId)} (held : c.activation.locals.lookup cached = some (.int value)) :
    (E.execStmt E.runAll (.switch (.local cached) cases none)).Ends c 0
      ((cases.lookup value).elim .normal .goto) c := by
  refine .of_eq fun f => ?_
  have evaluated : E.eval E.runAll (.local cached) (c.withFuel f) =
      .ok (.int value) (c.withFuel f) := eval_local held
  have chosen : E.evalInt E.runAll (.local cached) (c.withFuel f) = .ok value (c.withFuel f) := by
    unfold Environment.evalInt
    rw [bind_of_ok evaluated]
    rfl
  refine (bind_of_ok chosen).trans ?_
  cases cases.lookup value <;> rfl

theorem DueIn.nodup {frames : FrameTree} {handler : Nat → SynthMethodId} {f : FrameId}
    {out : List Stmt} (h : DueIn frames handler cached f out) :
    (Stmt.plainLabelsAll out).Nodup := by
  cases h with
  | nothing => exact List.nodup_nil
  | children _ _ _ _ _ _ _ unique => exact (Stmt.plainLabelsAll_append ..).symm ▸ unique

section

variable {γ : Type} {next : Flow → Exec σ γ} {good : γ → Config σ → Flow → Config σ → Prop}

/-- In a state that lies under a path, a dispatch leaves the try statements of that path. It may
stand in a longer list, and go on after what is left of it. -/
theorem dispatch (hosted : Hosted E M) {f : FrameId} {out : List Stmt}
    (due : DueIn plan.frames handlerMethod cached f out) {s : Int} (fits : Fits s)
    {rest around : List Nat}
    (leads : plan.frames.Leads s f rest) {opened below : List OpenTry}
    (tower : Tower observer E M (opened ++ below) (rest.reverse ++ around))
    (same : opened.length = rest.length) {state current : Option Value} {a b : Config σ}
    (alike : Alike state current a.world b.world)
    (held : b.activation.locals.lookup cached = some (stateValue s)) {flow : Flow}
    {whole post : List Stmt} (inside : out ++ post <:+ whole)
    (distinct : (Stmt.plainLabelsAll whole).Nodup)
    (goesOn : ∀ flow' a' b', Dispatched (stateOf around) current flow b flow' a' .normal b' →
      Simulates (next flow') a' (M.runs [⟨whole, post⟩]) b' SameHost good)
    (stops : ∀ value a' b',
      Dispatched (stateOf around) current flow b (.throw value) a' (.throw value) b' →
      Simulates (next (.throw value)) a' (pure (.throw value)) b' SameHost good) :
    Simulates (Coroutine.unwind E observer opened flow >>= next) a (M.runs [⟨whole, out ++ post⟩]) b
      SameHost good := by
  have still : ∀ s, s.Quiet → ∀ host, M.watch s host = host := hosted.quiet
  induction due generalizing γ rest around opened below a b whole post flow with
  | nothing childless =>
    cases rest with
    | cons g rest => exact absurd (leads.1.symm.trans (childless s)) nofun
    | nil =>
      cases List.length_eq_zero_iff.mp same
      exact goesOn flow a b ⟨.inl ⟨rfl, rfl⟩, { alike with state := rfl }, .inl rfl, rfl⟩
  | children label number inner chosen other code deeper unique ih =>
    rename_i f cases done sections
    obtain ⟨pre, split⟩ := inside
    have last : At whole [⟨whole, .label done :: post⟩] := by
      refine .base ⟨pre ++ .switch (.local cached) cases none :: .goto done :: sections, ?_⟩
      simp [← split]
    have second : At whole [⟨whole, sections ++ [.label done] ++ post⟩] := by
      refine .base ⟨pre ++ [.switch (.local cached) cases none, .goto done], ?_⟩
      simp [← split]
    have third : At whole [⟨whole, .goto done :: (sections ++ [.label done] ++ post)⟩] := by
      refine .base ⟨pre ++ [.switch (.local cached) cases none], ?_⟩
      simp [← split]
    -- The switch goes where the state says.
    have choose : (M.runs [⟨whole, .switch (.local cached) cases none :: .goto done ::
          (sections ++ [.label done] ++ post)⟩]).Reaches b (1 + 0)
        (Environment.follow M.runs [⟨whole, .goto done :: (sections ++ [.label done] ++ post)⟩]
          ((cases.lookup (Int64.ofInt s)).elim .normal .goto)) b :=
      runs_reaches (s := .switch (.local cached) cases none) rfl nofun (still _ ⟨rfl, rfl⟩)
        (ends_switch held)
    cases rest with
    | nil =>
      cases List.length_eq_zero_iff.mp same
      have nowhere : cases.lookup (Int64.ofInt s) = none := other s fits leads
      rw [nowhere] at choose
      have skip := reaches_goto distinct last second (still _ ⟨rfl, rfl⟩) (still _ ⟨rfl, rfl⟩) b
      refine .ahead (choose.trans skip) ?_
      exact goesOn flow a b ⟨.inl ⟨rfl, rfl⟩, { alike with state := rfl }, .inl rfl, rfl⟩
    | cons g rest =>
      obtain ⟨known, leads⟩ := leads
      have there : cases.lookup (Int64.ofInt s) = some (label g) := chosen s g known
      rw [there] at choose
      obtain ⟨later, before, parts⟩ := code s g known
      let section_ := .tryCatch (number g) (inner g) [] (some [handlerCall g]) ::
        .goto done :: (later ++ [.label done] ++ post)
      have target : At whole [⟨whole, .label (label g) :: section_⟩] := by
        refine .base ⟨pre ++ .switch (.local cached) cases none :: .goto done :: before, ?_⟩
        simp [← split, section_, ← parts, handlerCall]
      have leave : At whole [⟨whole, later ++ [.label done] ++ post⟩] :=
        target.later ⟨[_, _, _], rfl⟩
      have enter := choose.trans (reaches_jump distinct target third (still _ ⟨rfl, rfl⟩) b)
      have step : (M.runs [⟨whole, section_⟩]) = Exec.tick >>= fun _ =>
          (M.runAll (inner g) >>= Environment.cleanUp M.runAll [handlerCall g]) >>=
            Environment.follow M.runs
              [⟨whole, .goto done :: (later ++ [.label done] ++ post)⟩] := by
        rw [Environment.runs_eq rfl, ← execStmt_tryFinally]
        exact congrArg (Exec.tick >>= ·)
          (funext fun _ => Environment.advance_eq (still _ ⟨rfl, rfl⟩) nofun)
      have occupied : opened ≠ [] := by
        rintro rfl
        cases same
      obtain ⟨opened, try_, rfl⟩ : ∃ others last, opened = others ++ [last] :=
        ⟨_, _, (List.dropLast_append_getLast occupied).symm⟩
      have tower' : Tower observer E M (opened ++ (try_ :: below))
          (rest.reverse ++ (g :: around)) := by
        simpa using tower
      have lengths : opened.length = rest.length := by simpa using same
      cases tower'.drop (by simpa using lengths) with
      | cons guards _ =>
      have inside : Simulates (Coroutine.unwind E observer opened flow) a (M.runAll (inner g)) b
          SameHost (Dispatched (stateOf (g :: around)) current flow b) := by
        have done : M.runs [⟨inner g, []⟩] = pure .normal := Environment.runs_done rfl
        have all : M.runAll (inner g) = M.runs [⟨inner g, inner g ++ []⟩] := by
          rw [List.append_nil]
          rfl
        rw [all, ← bind_pure (Coroutine.unwind E observer opened flow)]
        refine ih s g known leads tower' lengths alike held
          ⟨[], List.append_nil (inner g)⟩ (deeper s g known).nodup ?_ ?_
        · intro flow' a' b' dispatched
          rw [done]
          exact .pure dispatched
        · exact fun value a' b' dispatched => .pure dispatched
      have left : Simulates (Coroutine.unwind E observer (opened ++ [try_]) flow) a
          (M.runAll (inner g) >>= Environment.cleanUp M.runAll [handlerCall g]) b SameHost
          (fun flow' a' ended b' => Unwound flow flow' ended ∧
            Alike (some (stateValue (stateOf around))) current a'.world b'.world ∧
            b'.activation = b.activation) := by
        rw [Coroutine.unwind_append]
        refine inside.bind fun flow' a' ended b' _ dispatched => ?_
        have one : Coroutine.unwind E observer [try_] flow' =
            Coroutine.leaveTry E observer try_ flow' := bind_pure _
        rw [one]
        refine (cleanUp_handler guards dispatched.alike dispatched.flows).mono
          (fun _ _ h => h) ?_
        exact fun _ _ _ _ h => ⟨h.1, h.2.1, h.2.2.trans dispatched.kept⟩
      refine .ahead enter ?_
      rw [step]
      refine .ahead (.tick _ b) ?_
      refine left.bind fun flow' a' ended b' _ ⟨flows, alike', kept⟩ => ?_
      have held' := alike'.state
      rcases flows with ⟨rfl, rfl⟩ | ⟨value, rfl, rfl⟩
      · have skip := reaches_goto distinct last leave (still _ ⟨rfl, rfl⟩) (still _ ⟨rfl, rfl⟩) b'
        refine .ahead skip (goesOn _ a' b' ?_)
        exact ⟨.inl ⟨rfl, rfl⟩, { alike' with state := rfl }, .inl rfl, kept⟩
      · exact stops value a' b'
          ⟨.inr ⟨value, rfl, rfl⟩, { alike' with state := rfl }, .inr held', kept⟩

end

end Lowering

end ManagedCode
