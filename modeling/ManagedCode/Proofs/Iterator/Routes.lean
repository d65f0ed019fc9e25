import ManagedCode.Proofs.Iterator.Closed
import ManagedCode.Proofs.Iterator.HoistRun
import ManagedCode.Proofs.Iterator.Places
import ManagedCode.Proofs.Iterator.StepRun
import ManagedCode.Proofs.Run.CallsInTurn

namespace ManagedCode

/-! Which handlers the step method calls on the way from a jump to its target. -/

variable {σ : Type}

namespace Environment

/-- The host takes note of nothing but calls of handlers. -/
def NotesHandlers (env : Environment σ) : Prop :=
  ∀ s, s.handled? = none → ∀ host, env.watch s host = host

/-- The host without the methods of a machine. -/
def alone (env : Environment σ) : Environment σ := { host := env.host }

theorem NotesHandlers.hosted {env : Environment σ} (notes : env.NotesHandlers) :
    Hosted env.alone env where
  host := rfl
  still _ _ := rfl
  quiet s quiet := notes s quiet.2

end Environment

namespace Lowering

open Environment

variable {iterator : IteratorMethod} {machine : StateMachine} (a : Assembly iterator machine)

/-- What does not suspend is executed as a statement unless it is a block or a return. -/
theorem ordinary_of_yields {plan : Plan} {site : Site} {s : Stmt} {out : List Stmt}
    (native : s.yields = false) (hw : Written plan site s out) (plain : ∀ stmts, s ≠ .block stmts)
    (stays : ∀ value, s ≠ .ret value) : Ordinary s := by
  cases s with
  | block stmts => exact absurd rfl (plain stmts)
  | ret value => exact absurd rfl (stays value)
  | yield value => cases native
  | yieldBreak =>
    rw [Written] at hw
    exact hw.elim
  | tryCatch id body catches finally? =>
    cases finally? with
    | none => exact (Bool.or_eq_false_iff.mp native).1
    | some cleanup => exact (Bool.or_eq_false_iff.mp (Bool.or_eq_false_iff.mp native).1).1
  | _ => trivial

namespace Assembly

/-- The handler of a try statement of the body: frames have the numbers of the try statements in
the order in which they begin. -/
def handlerOf (t : TryFacts) : SynthMethodId := handlerMethod (a.plan.tries.idxOf t.id)

/-- The handlers of the try statements that a jump leaves: of those around it up to the first that
defines its target. -/
def handlersLeft (tries : List TryFacts) (target : LabelId) : List SynthMethodId :=
  (tries.takeWhile fun t => target ∉ t.labels).map a.handlerOf

theorem handlersLeft_of_mem {t : TryFacts} (around : List TryFacts) {target : LabelId}
    (defined : target ∈ t.labels) : a.handlersLeft (t :: around) target = [] := by
  unfold handlersLeft
  rw [List.takeWhile_cons_of_neg (by simpa using defined)]
  rfl

theorem handlersLeft_of_not_mem {t : TryFacts} (around : List TryFacts) {target : LabelId}
    (undefined : target ∉ t.labels) :
    a.handlersLeft (t :: around) target = a.handlerOf t :: a.handlersLeft around target := by
  unfold handlersLeft
  rw [List.takeWhile_cons_of_pos (by simpa using undefined), List.map_cons]

theorem handlerOf_eq {t : TryFacts} {g : Nat} (number : a.plan.tries[g]? = some t.id) :
    a.handlerOf t = handlerMethod g :=
  congrArg handlerMethod (a.idxOf_tries number)

/-- Where a statement goes on that ends with a jump, or with a yield break. -/
inductive Leads : Flow → LabelId → Prop
  | goto (target : LabelId) : Leads (.goto target) target
  | yieldBreak : Leads (.ret .unit) a.plan.exit

variable {a} {level : Level} {tries : List TryFacts} {ss : List Stmt} {target l : LabelId}

/-- A target that is looked for in a list or around it. -/
def Sought (a : Assembly iterator machine) (ss : List Stmt) (target : LabelId) : Prop :=
  target ∈ Stmt.plainLabelsAll ss ∨ target ∈ Stmt.escapesAll ss ∨ target = a.plan.exit

theorem sought_of_mem {list rest : List Stmt} {outer : Point} {s : Stmt} (tidy : Stmt.Scoped ss)
    (here : At ss (⟨list, s :: rest⟩ :: outer)) (mem : target ∈ s.escapes) :
    a.Sought ss target := by
  have unique := tidy.labels.sublist (Stmt.plainLabelsAll_sublist ss)
  cases found : Point.jump? target (⟨list, s :: rest⟩ :: outer) with
  | none =>
    exact .inr (.inl (here.mem_escapesAll rfl (here.suffix.mem List.mem_cons_self) mem found))
  | some q =>
    rw [here.jump?_eq unique] at found
    exact .inl ((Point.isSome_find? target ss ss).mp (Option.isSome_of_eq_some found))

theorem Nests.find_of_plain (nests : a.Nests level)
    (mem : target ∈ Stmt.plainLabelsAll level.source) :
    (level.site.path = [] ∨ target ∈ level.site.inside) ∧
      ∃ there, Point.find? target a.stepStmts a.stepStmts = some there := by
  obtain ⟨out, written, code⟩ := nests.written
  obtain ⟨inside, defined⟩ := WrittenAll.plain level.source written target mem
  have offered : target ∈ Stmt.plainLabelsAll level.code := by
    rw [code, Stmt.plainLabelsAll_append, Stmt.plainLabelsAll_append]
    exact List.mem_append_right _ (List.mem_append_left _ defined)
  obtain ⟨q, found⟩ := Option.isSome_iff_exists.mp
    ((Point.isSome_find? target level.code level.code).mpr offered)
  exact ⟨inside, _, (nests.rooted level.code List.suffix_rfl).find?_top a.nodup_stepStmts rfl found⟩

variable (a) in
theorem find_exit : ∃ there, Point.find? a.plan.exit a.stepStmts a.stepStmts = some there := by
  have there : At a.stepStmts [⟨a.stepStmts, epilogue a.plan.exit a.progress.result?⟩] :=
    .base ⟨_, rfl⟩
  exact ⟨_, there.find?_eq a.nodup_stepStmts⟩

theorem follow_goto (M : Environment σ) {q there : Point} (here : At a.stepStmts q)
    (found : Point.find? l a.stepStmts a.stepStmts = some there) :
    follow M.runs q (.goto l) = M.runs there := by
  have jump : Point.jump? l q = some there := (here.jump?_eq a.nodup_stepStmts).trans found
  simp only [follow, jump]

variable {M : Environment σ}

/-- A jump to a proxy of a frame calls the handler of the frame and, if this returns, jumps on to the
label that the target has outside. -/
theorem reaches_next (notes : M.NotesHandlers) (nests : a.Nests level) (frame : level.Frame a.plan)
    (proxy : (target, l) ∈ frame.inner.proxies) {q : Point} (here : At a.stepStmts q)
    {c : Config σ} {w : World σ} (call : M.Calls (handlerMethod frame.g) c.world none w) :
    ∃ next k q', level.site.Routed target next ∧ At a.stepStmts q' ∧
      (follow M.runs q (.goto l)).Reaches c k (follow M.runs q' (.goto next))
        { c with world := w } := by
  rcases frame.framed.leaving with ⟨none, -⟩ | ⟨drop, sections, all, code⟩
  · rw [none] at proxy
    cases proxy
  obtain ⟨next, rest, routed, before, split⟩ := all.mem proxy
  let last : List Stmt := rest ++ [.label drop, handlerCall frame.g]
  have suffix : .label l :: handlerCall frame.g :: .goto next :: last <:+ frame.below.code := by
    refine ⟨setState frame.inner.state :: frame.stmts ++ .goto drop :: before, ?_⟩
    change _ = setState frame.inner.state :: frame.stmts ++ frame.leave
    rw [code, ← split]
    simp [last, handlerCall]
  have there : At a.stepStmts (⟨frame.below.code, .label l :: handlerCall frame.g ::
      .goto next :: last⟩ :: frame.after') := (Nests.frame nests frame).rooted _ suffix
  let q' : Point := ⟨frame.below.code, last⟩ :: frame.after'
  have goes := reaches_jump a.nodup_stepStmts there here (notes _ rfl) c
  obtain ⟨k, called⟩ := call.reaches frame.below.code (.goto next :: last) frame.after'
    c.activation
  have jump : (M.runs (⟨frame.below.code, .goto next :: last⟩ :: frame.after')).Reaches
      { c with world := w } (1 + 0) (follow M.runs q' (.goto next)) { c with world := w } :=
    runs_reaches (s := .goto next) rfl (by rintro _ ⟨⟩) (notes _ rfl) (.refl _ _)
  exact ⟨next, _, q', routed, there.later ⟨[_, _, _], rfl⟩, (goes.trans called).trans jump⟩

/-- A jump to the label that its target has at a level calls the handlers on the way, if these
return, and goes on at the target. -/
theorem reaches_target (notes : M.NotesHandlers) (closed : Stmt.escapesAll iterator.body.root = [])
    (houses : a.Houses tries ss level) (sought : a.Sought ss target)
    (routed : level.site.Routed target l) {q : Point} (here : At a.stepStmts q) {c : Config σ}
    {w : World σ} (calls : M.CallsInTurn (a.handlersLeft tries target) c.world none w) :
    ∃ k there, Point.find? target a.stepStmts a.stepStmts = some there ∧
      (follow M.runs q (.goto l)).Reaches c k (M.runs there) { c with world := w } := by
  induction houses generalizing l q c with
  | root =>
    cases calls
    rcases routed with ⟨-, rfl⟩ | ⟨nested, -⟩
    case inr => exact absurd rfl nested
    have found : ∃ there, Point.find? l a.stepStmts a.stepStmts = some there := by
      rcases sought with plain | escapes | rfl
      · refine (Nests.root.find_of_plain ?_).2
        change l ∈ Stmt.plainLabelsAll (Stmt.hoistAll _ _)
        rwa [Stmt.plainLabelsAll_hoistAll]
      · rw [closed] at escapes
        cases escapes
      · exact a.find_exit
    obtain ⟨there, found⟩ := found
    rw [follow_goto M here found]
    exact ⟨0, there, found, .refl _ _⟩
  | frame houses at_ suspends frame number source after ih =>
    rename_i around ss list rest body id catches finally? outer level
    let t : TryFacts := ⟨id, true, (Stmt.tryCatch id body catches finally?).labels⟩
    have parts := (houses.inFrames.scoped a.regular.isScoped).at_ at_
    have apart := parts.apart _ (at_.suffix.mem List.mem_cons_self)
    by_cases plain : target ∈ Stmt.plainLabelsAll body
    · -- The frame defines the target, so that the jump names it.
      have defined : target ∈ t.labels :=
        Stmt.mem_labels_of_body (Stmt.plainLabelsAll_subset body target plain)
      rw [a.handlersLeft_of_mem around defined] at calls
      cases calls
      have hoisted : target ∈ Stmt.plainLabelsAll frame.body := by
        rwa [source, Stmt.plainLabelsAll_hoistAll]
      obtain ⟨inside, there, found⟩ := (Nests.frame houses.nests frame).find_of_plain hoisted
      cases routed.eq_of_inside inside
      rw [follow_goto M here found]
      exact ⟨0, there, found, .refl _ _⟩
    -- The jump leaves the frame: it goes to the proxy, which calls the handler and jumps on.
    have leaves : target ∈ Stmt.escapesAll body ∨ target = a.plan.exit := sought.resolve_left plain
    have undefined : target ∉ t.labels := by
      rcases leaves with escapes | rfl
      · exact apart.body_outside escapes
      · intro mem
        have known := houses.inFrames.labels _ (at_.mem_labelsAll mem)
        exact absurd (a.regular.labelCount _ known) (Nat.lt_irrefl _)
    have outside : ¬(frame.inner.path = [] ∨ target ∈ frame.inner.inside) := by
      rintro (atRoot | inside)
      · rw [frame.framed.path] at atRoot
        cases atRoot
      · rcases leaves with escapes | rfl
        · refine frame.framed.out target ?_ inside
          rwa [source, Stmt.escapesAll_hoistAll]
        · exact absurd (frame.framed.below _ inside) (Nat.not_lt.mpr a.fresh.exit)
    have further : a.Sought ss target := by
      rcases leaves with escapes | same
      · refine sought_of_mem (houses.inFrames.scoped a.regular.isScoped) at_ ?_
        cases finally? with
        | none => exact List.mem_append_left _ escapes
        | some cleanup => exact List.mem_append_left _ (List.mem_append_left _ escapes)
      · exact .inr (.inr same)
    have numbered : a.plan.tries[frame.g]? = some id := number ▸ frame.framed.number
    rw [a.handlersLeft_of_not_mem around undefined, a.handlerOf_eq numbered] at calls
    obtain ⟨w₁, first, calls⟩ := calls.of_cons
    rcases routed with ⟨inside, -⟩ | ⟨-, -, proxy⟩
    · exact absurd inside outside
    obtain ⟨next, k₁, q', routed', here', goes⟩ :=
      reaches_next notes houses.nests frame proxy here first
    obtain ⟨k₂, there, found, on⟩ := ih further routed' here' (c := { c with world := w₁ }) calls
    exact ⟨_, there, found, goes.trans on⟩

/-- What a yield break in a frame was written as. -/
theorem reaches_yieldBreak (notes : M.NotesHandlers) {r : LocalId} {p outer : Point}
    {t t' : List Stmt}
    (due : p.next? = some (.assign (.local r) (.bool false), ⟨t, .goto l :: t'⟩ :: outer))
    (b : Config σ) :
    (M.runs p).Reaches b 2 (follow M.runs (⟨t, t'⟩ :: outer) (.goto l))
      { b with activation := b.activation.writeLocal r (.bool false) } := by
  have answer : (M.runs p).Reaches b (1 + 0) (M.runs (⟨t, .goto l :: t'⟩ :: outer)) _ :=
    runs_reaches due (by rintro _ ⟨⟩) (notes _ rfl) (ends_assignLocal M r (.bool false) b)
  exact answer.trans
    (runs_reaches (s := .goto l) rfl (by rintro _ ⟨⟩) (notes _ rfl) (.refl _ _))

/-- A statement of the body, and what it was written as, end alike, without a call of a handler. -/
theorem reaches_end (notes : M.NotesHandlers) (houses : a.Houses tries ss level) {s : Stmt}
    {list rest : List Stmt} {outer p' : Point} (here : At ss (⟨list, s :: rest⟩ :: outer))
    (aligned : level.Aligns a.plan
      (Point.hoist iterator.body.params.length (⟨list, s :: rest⟩ :: outer)) p')
    (framed : level.site.inTry = true) (native : s.yields = false)
    (plain : ∀ stmts, s ≠ .block stmts) {b b' : Config σ} (wide : 2 ≤ b.world.fields.length)
    {k : Nat} {flow : Flow} (alone : (M.alone.execStmt M.alone.runAll
      (s.hoist iterator.body.params.length)).Ends b k flow b') :
    ∃ k₁ b₁ flow' q, (M.runs (p' ++ level.outer)).Reaches b k₁ (follow M.runs q flow') b₁ ∧
      At a.stepStmts q ∧
      Alike b.world.fields[0]? b.world.fields[1]? b'.world b₁.world ∧
      ∀ target, a.Leads flow target → a.Sought ss target ∧
        ∃ l, flow' = .goto l ∧ level.site.Routed target l := by
  have hosted := notes.hosted
  have started : M.alone.execStmt M.alone.runAll (s.hoist iterator.body.params.length)
      (b.withFuel k) = .ok flow (b'.withFuel 0) := alone.1 0
  rcases aligned.next with ⟨none, -⟩ |
    ⟨stmt, s₁, s₁', around, t, t', out, around', due, written, aligned', hs, ht, due'⟩
  · cases none
  cases due
  have due' := due' level.outer
  have at_ := houses.nests.at_ aligned'
  by_cases isRet : ∃ value, s.hoist iterator.body.params.length = .ret value
  · obtain ⟨value, same⟩ := isRet
    rw [same] at written started
    rw [Written] at written
    obtain ⟨rfl, ⟨-, r, l, -, routed, rfl⟩ | ⟨outside, -⟩⟩ := written
    case inr => cases framed.symm.trans outside
    obtain ⟨returned, ended⟩ : Flow.ret .unit = flow ∧ b.withFuel k = b'.withFuel 0 :=
      EStateM.Result.ok.inj started
    refine ⟨_, _, .goto l, _, reaches_yieldBreak notes due' b, at_, ?_, ?_⟩
    · have alike : Alike b.world.fields[0]? b.world.fields[1]? (b'.withFuel 0).world b.world := by
        rw [← ended]
        exact .refl wide
      exact { alike with }
    · intro target leads
      cases returned
      cases leads
      exact ⟨.inr (.inr rfl), l, rfl, routed⟩
  have ordinary : Ordinary (s.hoist iterator.body.params.length) :=
    ordinary_of_yields (by rw [Stmt.yields_hoist, native]) written (Stmt.hoist_ne_block plain)
      fun value same => isRet ⟨value, same⟩
  obtain ⟨one, rfl, quiet, plain', exec⟩ :=
    exec_written hosted (houses.nests.fresh.followed _) written ordinary
  have near : Near level.site.result False b.world.fields[0]? b.world.fields[1]? (b.withFuel k) b :=
    ⟨.refl wide, False.elim⟩
  have ran := exec (a := b.withFuel k) (runsWell hosted k) (Nat.le_refl k) near
  rw [Simulates.of_ok started] at ran
  obtain ⟨-, k₁, flow', b₁, -, ends, ended⟩ := ran
  refine ⟨_, b₁, flow', _, runs_reaches (due'.trans rfl) plain' (hosted.quiet _ quiet) ends, at_,
    { ended.near.alike with }, ?_⟩
  intro target leads
  have follows := ended.follows
  cases leads with
  | goto =>
    have mem := ended.targets target rfl
    rw [Stmt.escapes_hoist] at mem
    cases follows with
    | goto routed =>
      have tidy := houses.inFrames.scoped a.regular.isScoped
      exact ⟨sought_of_mem tidy here mem, _, rfl, routed⟩
  | yieldBreak =>
    cases follows with
    | ret routed => exact ⟨.inr (.inr rfl), _, rfl, routed⟩

variable (a) in
/-- Executed at `q`, a statement of the body ends as it does alone, and no handler is called. If it
ends with a jump then, as long as they return, the handlers of the try statements that the jump
leaves are called in turn, and the step method goes on at the target. -/
def Routes (tries : List TryFacts) (s : Stmt) (q : Point) : Prop :=
  ∀ {σ : Type} (M : Environment σ), M.NotesHandlers → ∀ b : Config σ, 2 ≤ b.world.fields.length →
    ∀ k flow b', (M.alone.execStmt M.alone.runAll
      (s.hoist iterator.body.params.length)).Ends b k flow b' →
    ∃ k₁ b₁ flow' after, (M.runs q).Reaches b k₁ (follow M.runs after flow') b₁ ∧
      Alike b.world.fields[0]? b.world.fields[1]? b'.world b₁.world ∧
      ∀ target, a.Leads flow target → ∀ w,
        M.CallsInTurn (a.handlersLeft tries target) b₁.world none w →
        ∃ k₂ there, Point.find? target a.stepStmts a.stepStmts = some there ∧
          (M.runs q).Reaches b k₂ (M.runs there) { b₁ with world := w }

variable (a) in
/-- From `q` the handler of a try statement is called and, if it returns, the step method goes on at
`there`. -/
def FallsOut (t : TryFacts) (q there : Point) : Prop :=
  ∀ {σ : Type} (M : Environment σ), M.NotesHandlers → ∀ (b : Config σ) w,
    M.CallsInTurn [a.handlerOf t] b.world none w →
    ∃ k, (M.runs q).Reaches b k (M.runs there) { b with world := w }

theorem Houses.inTry {t : TryFacts} (houses : a.Houses (t :: tries) ss level) :
    level.site.inTry = true := by
  cases houses with
  | frame _ _ _ frame _ _ _ => exact frame.framed.inTry

theorem exists_routes (closed : Stmt.escapesAll iterator.body.root = []) {t : TryFacts}
    {around : List TryFacts} (inside : Stmt.InFrames iterator.body.root (t :: around) ss) {s : Stmt}
    {list rest : List Stmt} {outer : Point} (here : At ss (⟨list, s :: rest⟩ :: outer))
    (native : s.yields = false) (plain : ∀ stmts, s ≠ .block stmts) :
    ∃ q, a.Meets (t :: around) (⟨list, s :: rest⟩ :: outer) q ∧ a.Routes (t :: around) s q := by
  obtain ⟨level, houses⟩ := a.exists_houses inside
  obtain ⟨p', aligned⟩ := houses.exists_aligned here
  refine ⟨p' ++ level.outer, ⟨ss, level, p', houses, aligned, rfl⟩, ?_⟩
  intro σ M notes b wide k flow b' alone
  obtain ⟨k₁, b₁, flow', after, reaches, at_, alike, on⟩ :=
    reaches_end notes houses here aligned houses.inTry native plain wide alone
  refine ⟨k₁, b₁, flow', after, reaches, alike, fun target leads w calls => ?_⟩
  obtain ⟨sought, l, rfl, routed⟩ := on target leads
  obtain ⟨k₂, there, found, goes⟩ := reaches_target notes closed houses sought routed at_ calls
  exact ⟨_, there, found, reaches.trans goes⟩

theorem exists_fallsOut {around : List TryFacts}
    (inside : Stmt.InFrames iterator.body.root around ss) {id : TryId} {body : List Stmt}
    {catches : List Catch} {finally? : Option (List Stmt)} {list rest : List Stmt}
    {outer p : Point} (here : At ss (⟨list, .tryCatch id body catches finally? :: rest⟩ :: outer))
    (suspends : Stmt.anyYields body = true) (at_ : At body p) (through : p.next? = none) :
    ∃ q there, a.Meets (⟨id, true, (Stmt.tryCatch id body catches finally?).labels⟩ :: around) p q ∧
      a.Meets around (⟨list, rest⟩ :: outer) there ∧
      a.FallsOut ⟨id, true, (Stmt.tryCatch id body catches finally?).labels⟩ q there := by
  obtain ⟨level, houses⟩ := a.exists_houses inside
  obtain ⟨frame, number, source, after⟩ := houses.exists_frame here suspends
  have inner := Houses.frame houses here suspends frame number source after
  obtain ⟨p', aligned⟩ :
      ∃ p', frame.below.Aligns a.plan (p.hoist iterator.body.params.length) p' := by
    cases at_ with
    | base h => exact inner.exists_aligned (.base h)
    | block ho hl hi => exact inner.exists_aligned (.block ho hl hi)
  have outside : level.Aligns a.plan frame.after (⟨frame.t, frame.t'⟩ :: frame.around') :=
    frame.aligned
  rw [after] at outside
  refine ⟨p' ++ frame.after', frame.after', ⟨body, _, p', inner, aligned, rfl⟩,
    ⟨ss, level, _, houses, outside, rfl⟩, ?_⟩
  rcases aligned.next with ⟨-, done⟩ | ⟨stmt, s, s', around, _, _, _, _, due, -⟩
  case inr =>
    rw [Point.next?_hoist_eq_none through] at due
    cases due
  intro σ M notes b w calls
  obtain ⟨w', call, rest⟩ := calls.of_cons
  cases rest
  obtain ⟨k, leaves⟩ := falls_out notes.hosted houses.nests frame b
  have numbered : a.plan.tries[frame.g]? = some id := number ▸ frame.framed.number
  rw [a.handlerOf_eq numbered] at call
  obtain ⟨k', ends⟩ := call b.activation
  have start :
      M.runs (p' ++ frame.after') = M.runs (⟨frame.below.code, frame.leave⟩ :: frame.after') :=
    runs_congr (done frame.after')
  have last : M.runs frame.after' = M.runs (⟨frame.below.code, []⟩ :: frame.after') :=
    runs_congr rfl
  rw [start, last]
  exact ⟨_, leaves.trans ends.andThen⟩

end Assembly

end Lowering

open Lowering in
/-- In the step method a jump that is made in a try statement that suspends, or in a part of it that
does not, calls the handlers of the try statements that it leaves, from the inside to the outside,
and goes on at its target. Where the body of such a try statement is through, its own handler is
called and the step method goes on after it. -/
theorem jumps_call_handlers_left {symbols : Symbols} {options : LoweringOptions}
    {iterator : IteratorMethod} {machine : StateMachine} (regular : iterator.body.Regular)
    (closed : Stmt.escapesAll iterator.body.root = [])
    (lowered : lowerIterator symbols options iterator = .ok machine) :
    ∃ a : Assembly iterator machine,
      (∀ {t : TryFacts} {around : List TryFacts} {ss list rest : List Stmt} {s : Stmt}
        {outer : Point}, Stmt.InFrames iterator.body.root (t :: around) ss →
        At ss (⟨list, s :: rest⟩ :: outer) → s.yields = false → (∀ stmts, s ≠ .block stmts) →
        ∃ q, a.Meets (t :: around) (⟨list, s :: rest⟩ :: outer) q ∧ a.Routes (t :: around) s q) ∧
      ∀ {around : List TryFacts} {ss list rest body : List Stmt} {id : TryId}
        {catches : List Catch} {finally? : Option (List Stmt)} {outer p : Point},
        Stmt.InFrames iterator.body.root around ss →
        At ss (⟨list, .tryCatch id body catches finally? :: rest⟩ :: outer) →
        Stmt.anyYields body = true → At body p → p.next? = none →
        let t : TryFacts := ⟨id, true, (Stmt.tryCatch id body catches finally?).labels⟩
        ∃ q there, a.Meets (t :: around) p q ∧ a.Meets around (⟨list, rest⟩ :: outer) there ∧
          a.FallsOut t q there := by
  obtain ⟨a⟩ := nonempty_assembly regular lowered
  refine ⟨a, ?_, ?_⟩
  · intro t around ss list rest s outer inside here native plain
    exact Assembly.exists_routes closed inside here native plain
  · intro around ss list rest body id catches finally? outer p inside here suspends at_ through
    exact Assembly.exists_fallsOut inside here suspends at_ through

/-- `try { try { yield 1; goto l } finally { } } finally { } l:` -/
def nestedIterator : IteratorMethod where
  method := default
  elementTy := .int32
  body :=
    { root := [.tryCatch ⟨0⟩ [.tryCatch ⟨1⟩ [.yield (.const (.int 1)), .goto ⟨0⟩] [] (some [.nop])]
        [] (some [.nop]), .label ⟨0⟩]
      labelCount := 1
      tryCount := 2 }

theorem regular_nestedIterator : nestedIterator.body.Regular where
  uses := by
    simp [nestedIterator, Stmt.UsesAll, Stmt.Uses, Catch.UsesAll, Expr.Uses, Vocabulary.iterator]
  labels := by decide
  labelCount := by decide
  tries := by decide
  tryCount := by decide
  tryLimit := by decide
  jumps := by decide
  contained := by
    simp [nestedIterator, Stmt.ContainedAll, Stmt.Contained, Catch.ContainedAll, Stmt.escapesAll,
      Stmt.targets, Stmt.escapes, unresolved]

theorem exists_machine_nestedIterator :
    ∃ machine, lowerIterator .oneMethod {} nestedIterator = .ok machine :=
  exists_eq_ok (by decide +kernel)

theorem jumps_call_both_handlers : ∃ machine, lowerIterator .oneMethod {} nestedIterator = .ok machine ∧
    ∃ (a : Lowering.Assembly nestedIterator machine) (q : Point),
      a.handlersLeft [⟨⟨1⟩, true, []⟩, ⟨⟨0⟩, true, []⟩] ⟨0⟩ = [⟨3⟩, ⟨2⟩] ∧
      a.Routes [⟨⟨1⟩, true, []⟩, ⟨⟨0⟩, true, []⟩] (.goto ⟨0⟩) q := by
  obtain ⟨machine, lowered⟩ := exists_machine_nestedIterator
  obtain ⟨a, jumps, -⟩ := jumps_call_handlers_left regular_nestedIterator (by decide) lowered
  have inside : Stmt.InFrames nestedIterator.body.root [⟨⟨1⟩, true, []⟩, ⟨⟨0⟩, true, []⟩]
      [.yield (.const (.int 1)), .goto ⟨0⟩] :=
    .body (.body .root (.base List.suffix_rfl) rfl) (.base List.suffix_rfl) rfl
  obtain ⟨q, -, routes⟩ := jumps inside (.base (List.suffix_cons _ _)) rfl nofun
  exact ⟨machine, lowered, a, q, rfl, routes⟩

end ManagedCode
