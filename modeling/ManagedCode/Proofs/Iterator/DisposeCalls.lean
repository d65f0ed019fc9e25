import ManagedCode.Proofs.Iterator.BuiltFrames
import ManagedCode.Proofs.Iterator.Leaving
import ManagedCode.Proofs.Run.CallsInTurn

namespace ManagedCode

/-! Which handlers a dispose method calls, for every tree of frames. -/

variable {σ : Type}

namespace Environment

/-- The host takes note of nothing but calls of synthesized methods. -/
def NotesCalls (env : Environment σ) : Prop :=
  ∀ s, (∀ m, s ≠ callOf m) → ∀ host, env.watch s host = host

end Environment

namespace Lowering

open Environment

variable {env : Environment σ} {frames : FrameTree} {handler : Nat → SynthMethodId}
  {cached : LocalId}

/-- A method that is called after a body decides how the two end if it throws. -/
theorem ends_cleanUp {method : SynthMethodId} (c : Config σ) {w' : World σ}
    {last? : Option Value} (before? : Option Value) (call : env.Calls method c.world last? w') :
    ∃ k, (cleanUp env.runAll [callOf method] (.ofThrown before?)).Ends c k
      (.ofThrown (last?.or before?)) { c with world := w' } := by
  obtain ⟨k, ends⟩ := call.runAll c.activation
  refine ⟨k, ?_⟩
  have chosen : (cleanUp env.runAll [callOf method] (.ofThrown before?)).Reaches c k _ _ :=
    ends.andThen
  cases last? <;> exact chosen

/-- In a state that lies under a path, what is due calls the handlers of that path, innermost first,
and then goes on after itself unless one of them threw. -/
theorem runs_due (notes : env.NotesCalls) {f : FrameId} {out : List Stmt}
    (due : DueIn frames handler cached f out) {s : Int} (fits : Fits s) {rest : List Nat}
    (leads : frames.Leads s f rest) {c : Config σ} {thrown? : Option Value} {w' : World σ}
    (calls : env.CallsInTurn (rest.reverse.map handler) c.world thrown? w')
    (held : c.activation.locals.lookup cached = some (stateValue s)) {whole post : List Stmt}
    (inside : out ++ post <:+ whole) (distinct : (Stmt.plainLabelsAll whole).Nodup) :
    ∃ k, (env.runs [⟨whole, out ++ post⟩]).Reaches c k
      (thrown?.elim (env.runs [⟨whole, post⟩]) fun value => pure (.throw value))
      { c with world := w' } := by
  have still : ∀ s, (∀ m, s ≠ callOf m) → ∀ host, env.watch s host = host := notes
  induction due generalizing rest c thrown? w' whole post with
  | nothing childless =>
    cases rest with
    | cons g rest => exact absurd (leads.1.symm.trans (childless s)) nofun
    | nil =>
      cases calls
      exact ⟨0, .refl _ c⟩
  | children label number inner chosen other code deeper unique ih =>
    rename_i f cases done sections
    obtain ⟨pre, split⟩ := inside
    have last : At whole [⟨whole, .label done :: post⟩] := by
      refine .base ⟨pre ++ .switch (.local cached) cases none :: .goto done :: sections, ?_⟩
      simp [← split]
    have second : At whole [⟨whole, sections ++ [.label done] ++ post⟩] := by
      refine .base ⟨pre ++ [.switch (.local cached) cases none, .goto done], ?_⟩
      simp [← split]
    have third : At whole [⟨whole, .goto done :: (sections ++ [.label done] ++ post)⟩] := by
      refine .base ⟨pre ++ [.switch (.local cached) cases none], ?_⟩
      simp [← split]
    -- The switch goes where the state says.
    have choose : (env.runs [⟨whole, .switch (.local cached) cases none :: .goto done ::
          (sections ++ [.label done] ++ post)⟩]).Reaches c (1 + 0)
        (follow env.runs [⟨whole, .goto done :: (sections ++ [.label done] ++ post)⟩]
          ((cases.lookup (Int64.ofInt s)).elim .normal .goto)) c :=
      runs_reaches (s := .switch (.local cached) cases none) rfl nofun (still _ nofun)
        (ends_switch held)
    cases rest with
    | nil =>
      cases calls
      have nowhere : cases.lookup (Int64.ofInt s) = none := other s fits leads
      rw [nowhere] at choose
      have skip := reaches_goto distinct last second (still _ nofun) (still _ nofun) c
      exact ⟨_, choose.trans skip⟩
    | cons g rest =>
      obtain ⟨known, leads⟩ := leads
      have there : cases.lookup (Int64.ofInt s) = some (label g) := chosen s g known
      rw [there] at choose
      obtain ⟨later, before, parts⟩ := code s g known
      let guarded : Stmt := .tryCatch (number g) (inner g) [] (some [callOf (handler g)])
      have target : At whole [⟨whole, .label (label g) :: guarded ::
          .goto done :: (later ++ [.label done] ++ post)⟩] := by
        refine .base ⟨pre ++ .switch (.local cached) cases none :: .goto done :: before, ?_⟩
        simp [← split, guarded, ← parts, callOf]
      have leave : At whole [⟨whole, later ++ [.label done] ++ post⟩] :=
        target.later ⟨[_, _, _], rfl⟩
      have enter := choose.trans (reaches_jump distinct target third (still _ nofun) c)
      rw [List.reverse_cons, List.map_append] at calls
      obtain ⟨before?, w₁, last?, below, own, rfl⟩ := calls.of_append_singleton
      -- Inside the try statement the handlers further in are called, and then that of the frame.
      obtain ⟨k₁, body⟩ : ∃ k,
          (env.runAll (inner g)).Ends c k (.ofThrown before?) { c with world := w₁ } := by
        have whole : inner g ++ [] <:+ inner g := ⟨[], List.append_nil _⟩
        obtain ⟨k, reaches⟩ := ih s g known leads below held whole (deeper s g known).nodup
        have through : env.runs [⟨inner g, []⟩] = pure .normal := runs_done rfl
        rw [List.append_nil, through] at reaches
        refine ⟨k, ?_⟩
        cases before? <;> exact reaches
      obtain ⟨k₂, clean⟩ := ends_cleanUp { c with world := w₁ } before? own
      have step := runs_tryFinally (number g) whole
        (.goto done :: (later ++ [.label done] ++ post)) (still _ nofun) body clean
      have sofar := enter.trans step
      generalize last?.or before? = thrown? at sofar ⊢
      cases thrown? with
      | some value => exact ⟨_, sofar⟩
      | none =>
        have skip := reaches_goto distinct last leave (still _ nofun) (still _ nofun)
          { c with world := w' }
        exact ⟨_, sofar.trans skip⟩

/-- In a state that lies under a path, the dispose method calls the handlers of that path and ends
the machine, unless one of them threw. -/
theorem runs_disposeRoot (notes : env.NotesCalls) {dispatch : List Stmt}
    (due : DueIn frames handler ⟨0⟩ FrameTree.root dispatch) {s : Int} (fits : Fits s)
    {path : List Nat} (covers : frames.Covers s path) {w w' : World σ}
    (state : w.fields[0]? = some (stateValue s)) {thrown? : Option Value}
    (calls : env.CallsInTurn (path.map handler) w thrown? w') :
    ∃ k activation, (env.runAll (disposeRoot dispatch)).Ends ⟨{ args := [] }, w⟩ k
      (thrown?.elim (.ret .unit) .throw)
      ⟨activation, thrown?.elim (inState finishedState w') fun _ => w'⟩ := by
  have still : ∀ s, (∀ m, s ≠ callOf m) → ∀ host, env.watch s host = host := notes
  let post : List Stmt := [setState finishedState, .ret none]
  let whole := disposeRoot dispatch
  let start : Config σ := ⟨{ args := [] }, w⟩
  let c : Config σ := ⟨start.activation.writeLocal ⟨0⟩ (stateValue s), w⟩
  have read : (env.runAll whole).Reaches start (1 + 0) (env.runs [⟨whole, dispatch ++ post⟩]) c :=
    runs_reaches (s := .assign (.local ⟨0⟩) (.machineField stateField)) rfl nofun (still _ nofun)
      (ends_readState env ⟨0⟩ state)
  have distinct : (Stmt.plainLabelsAll whole).Nodup := by
    have labels : Stmt.plainLabelsAll whole = Stmt.plainLabelsAll dispatch := by
      change Stmt.plainLabelsAll (dispatch ++ post) = _
      rw [Stmt.plainLabelsAll_append]
      exact List.append_nil _
    rw [labels]
    exact due.nodup
  have inTurn : env.CallsInTurn (path.reverse.reverse.map handler) c.world thrown? w' := by
    rwa [List.reverse_reverse]
  obtain ⟨k, run⟩ := runs_due notes due fits covers inTurn (Activation.lookup_writeLocal_self _ _ _)
    ⟨[.assign (.local ⟨0⟩) (.machineField stateField)], rfl⟩ distinct
  cases thrown? with
  | some value => exact ⟨_, _, read.trans run⟩
  | none =>
    have wide : 0 < w'.fields.length := by
      have kept : w'.fields.length = w.fields.length := calls.fieldCount
      rw [kept]
      exact (List.getElem?_eq_some_iff.mp state).1
    have finish : (env.runs [⟨whole, post⟩]).Reaches { c with world := w' } (1 + 0)
        (env.runs [⟨whole, [.ret none]⟩]) { c with world := inState finishedState w' } :=
      runs_reaches (s := setState finishedState) rfl nofun (still _ nofun)
        (ends_setState env finishedState wide)
    have leave : (env.runs [⟨whole, [.ret none]⟩]).Reaches
        { c with world := inState finishedState w' } (1 + 0) (pure (.ret .unit))
        { c with world := inState finishedState w' } :=
      runs_reaches (s := .ret none) rfl nofun (still _ nofun) (.refl _ _)
    exact ⟨_, _, ((read.trans run).trans finish).trans leave⟩

end Lowering

/-- The dispose method of a tree of frames calls the handlers around the machine's state: those of
the frame that the state belongs to and of the frames around it, from the inside to the outside,
each once, whether or not the others throw. It then ends the machine, or throws what was thrown
last. A state of the root or of no frame calls none. -/
theorem Dispose.calls_handlersAround {env : Environment σ} (notes : env.NotesCalls)
    {states : List (Int × FrameId)} {tree : FrameTree} (built : tree.Built states)
    (fit : ∀ known ∈ states, Lowering.Fits known.1) {ids ids' : FreshIds} {body : Body}
    (made : Dispose.build tree ids = some (body, ids')) {s : Int} (fits : Lowering.Fits s)
    {f : FrameId} (home : (s, f) ∈ states ∨ f = FrameTree.root ∧ s ∉ states.map (·.1))
    {w w' : World σ} (state : w.fields[0]? = some (stateValue s)) {thrown? : Option Value}
    (calls : env.CallsInTurn (tree.handlersAround f) w thrown? w') :
    ∃ k, ∀ fuel, env.execute body [] { w with fuel := k + fuel } =
      match thrown? with
      | none => .ok .unit { inState finishedState w' with fuel }
      | some value => .error (.thrown value) { w' with fuel } := by
  have housed := built.housed
  obtain ⟨path, rfl, lies, covers⟩ :
      ∃ path, f = FrameTree.frameOf path ∧ tree.Lies path ∧ tree.Covers s path := by
    rcases home with known | ⟨rfl, unknown⟩
    · exact housed.home s f known
    · exact ⟨[], rfl, housed.outermost, housed.nested.known_eq_none unknown FrameTree.root⟩
  rw [housed.handlersAround_eq lies] at calls
  obtain ⟨dispatch, due, -, root⟩ := Lowering.build_eq_some housed.nested
    (fun g path => housed.handler) housed.outermost.room made
  have dueIn := due.dueIn housed.nested fun s used => by
    obtain ⟨known, mem, rfl⟩ := List.mem_map.mp used
    exact fit known mem
  obtain ⟨k, activation, ends⟩ := Lowering.runs_disposeRoot notes dueIn fits covers state calls
  refine ⟨k, fun fuel => ?_⟩
  have run := ends.1 fuel
  rw [← root] at run
  have result : env.execute body [] { w with fuel := k + fuel } = _ := callBody_of_ok run
  rw [result]
  cases thrown? <;> rfl

/-- A host that keeps a record of the calls of handlers, with the latest first. -/
def recordsCalls (methods : List SynthesizedMethod) : Environment (List SynthMethodId) where
  host :=
    { call := fun _ _ _ => pure .unit
      load := fun _ _ => pure .unit
      store := fun _ _ _ => pure () }
  methods
  watch s calls :=
    match s with
    | .expr (.call (.synthesized method) none []) => method :: calls
    | _ => calls

theorem notes_recordsCalls (methods : List SynthesizedMethod) :
    (recordsCalls methods).NotesCalls := by
  intro s other calls
  unfold recordsCalls
  dsimp only
  split
  · exact absurd rfl (other _)
  · rfl

/-- Two frames, one in the other, and a state of the inner one. -/
def twoFrames : FrameTree :=
  (((FrameTree.push {} ⟨0⟩ 1 ⟨0⟩ []).2.push ⟨1⟩ 2 ⟨1⟩ []).2).addState ⟨2⟩ 3

/-- The handler of the outer frame returns, that of the inner one throws. -/
def twoHandlers : List SynthesizedMethod :=
  [{ name := "outer", kind := .handler 1, ret := .int32, body := { root := [.ret none] } },
    { name := "inner", kind := .handler 2, ret := .int32,
      body := { root := [.throw (.const (.int 7))] } }]

theorem calls_both_handlers : ∃ body ids, Dispose.build twoFrames {} = some (body, ids) ∧
    ∃ k, ∀ fuel, (recordsCalls twoHandlers).execute body [] ⟨[.int 3], k + fuel, []⟩ =
      .error (.thrown (.int 7)) ⟨[.int 3], fuel, [⟨0⟩, ⟨1⟩]⟩ := by
  have built : twoFrames.Built [(3, ⟨2⟩), (2, ⟨2⟩), (1, ⟨1⟩)] :=
    have outer : FrameTree.Built [(1, ⟨1⟩)] (FrameTree.push {} ⟨0⟩ 1 ⟨0⟩ []).2 :=
      .push .root (by decide) (by decide) ⟨0⟩ []
    have inner : FrameTree.Built [(2, ⟨2⟩), (1, ⟨1⟩)]
        ((FrameTree.push {} ⟨0⟩ 1 ⟨0⟩ []).2.push ⟨1⟩ 2 ⟨1⟩ []).2 :=
      .push outer (by decide) (by decide) ⟨1⟩ []
    .addState inner (by decide) (by decide)
  have inner : (recordsCalls twoHandlers).Calls ⟨1⟩ ⟨[.int 3], 0, []⟩ (some (.int 7))
      ⟨[.int 3], 0, [⟨1⟩]⟩ :=
    Environment.calls_of_ends rfl (runs_reaches (s := .throw (.const (.int 7))) rfl nofun
      (fun _ => rfl) (.of_eq fun _ => rfl)) (.throw _)
  have outer : (recordsCalls twoHandlers).Calls ⟨0⟩ ⟨[.int 3], 0, [⟨1⟩]⟩ none
      ⟨[.int 3], 0, [⟨0⟩, ⟨1⟩]⟩ :=
    Environment.calls_of_ends rfl (runs_reaches (s := .ret none) rfl nofun
      (fun _ => rfl) (.of_eq fun _ => rfl)) (.ret _)
  have home : ((3 : Int), (⟨2⟩ : FrameId)) ∈
      [((3 : Int), (⟨2⟩ : FrameId)), (2, ⟨2⟩), (1, ⟨1⟩)] := by decide
  obtain ⟨k, run⟩ := Dispose.calls_handlersAround (notes_recordsCalls twoHandlers) built
    (by decide) (rfl : Dispose.build twoFrames {} = _) (by decide) (.inl home)
    (w := ⟨[.int 3], 0, []⟩) rfl (.cons inner (.cons outer .nil))
  exact ⟨_, _, rfl, k, run⟩

end ManagedCode
