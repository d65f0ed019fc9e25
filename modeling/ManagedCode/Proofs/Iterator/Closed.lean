import ManagedCode.Proofs.Iterator.Names
import ManagedCode.Proofs.Iterator.Nesting
import ManagedCode.Proofs.Iterator.WrittenJumps

namespace ManagedCode

/-! Machines are closed code. -/

/-- The methods of a machine name what the machine has, neither yield nor have parameters, and no
jump leads out of one of them; no label and no try id stands for two things. -/
structure StateMachine.Closed (machine : StateMachine) : Prop where
  uses : ∀ m ∈ machine.methods, Stmt.UsesAll
    (.method m.body.locals.length machine.fields.length machine.methods.length) m.body.root
  jumps : ∀ m ∈ machine.methods, Stmt.escapesAll m.body.root = []
  labels : (machine.methods.flatMap fun m => Stmt.labelsAll m.body.root).Nodup
  labelCount : ∀ m ∈ machine.methods, ∀ m' ∈ machine.methods,
    ∀ l ∈ Stmt.labelsAll m'.body.root, l.index < m.body.labelCount
  tries : (machine.methods.flatMap fun m => Stmt.tryIdsAll m.body.root).Nodup
  tryCount : ∀ m ∈ machine.methods, ∀ m' ∈ machine.methods,
    ∀ id ∈ Stmt.tryIdsAll m'.body.root, id.index < m.body.tryCount

namespace Dispose

open Lowering

variable {frames : FrameTree} {cached : LocalId} {used : Int → Prop} {locals fields methods : Nat}

mutual

/-- What is due names the handlers of the frames, and the local that holds the state. -/
theorem Due.uses (nested : frames.Nested used) (room : cached.index < locals)
    (enough : frames.frames.length < methods) {f : FrameId} {ids ids' : FreshIds} {out : List Stmt}
    (h : Due frames handlerMethod cached f ids out ids')
    (inside : f.index < frames.frames.length) :
    Stmt.UsesAll (.method locals fields methods) out := by
  match h with
  | .nothing _ => trivial
  | .children hd all =>
    obtain ⟨path, same, lies⟩ := nested.paths f inside
    have below : ∀ group ∈ frames.childrenByState f, ∃ g, group.1 = ⟨g + 1⟩ ∧
        frames.Lies (g :: path) := fun group hg => lies_of_child nested lies (same ▸ hg)
    have sections := DueBelow.uses nested room enough all below
    exact ⟨room, trivial, Stmt.usesAll_append.mpr ⟨sections, trivial, trivial⟩⟩

theorem DueBelow.uses (nested : frames.Nested used) (room : cached.index < locals)
    (enough : frames.frames.length < methods) {path : List Nat}
    {children : List (FrameId × List Int)} {done : LabelId} {ids ids' : FreshIds}
    {cases : List (Int64 × LabelId)} {sections : List Stmt}
    (h : DueBelow frames handlerMethod cached children done ids cases sections ids')
    (inside : ∀ group ∈ children, ∃ g, group.1 = ⟨g + 1⟩ ∧ frames.Lies (g :: path)) :
    Stmt.UsesAll (.method locals fields methods) sections := by
  match h with
  | .nil => trivial
  | .cons hl hi ht more =>
    rename_i g states rest ids₁ ids₂ ids₃ l number inner cases sections
    obtain ⟨g', same, lies⟩ := inside _ List.mem_cons_self
    have below : g' + 1 < frames.frames.length := lies.room
    have same : g = g' := Nat.succ.inj (congrArg FrameId.index same)
    rw [← same] at below
    have rest := DueBelow.uses nested room enough more fun group hg =>
      inside group (List.mem_cons_of_mem _ hg)
    have handler : 2 + g < methods := by omega
    exact ⟨trivial, ⟨Due.uses nested room enough hi below, trivial, ⟨handler, trivial⟩, trivial⟩,
      trivial, rest⟩

end

end Dispose

namespace Lowering

variable {iterator : IteratorMethod} {machine : StateMachine}

/-! Names. -/

section

variable {locals fields methods : Nat} (wide : 2 ≤ fields)

include wide

theorem uses_prologue (some : 0 < locals) (resumeLabels : List LabelId) (start : LabelId) :
    Stmt.UsesAll (.method locals fields methods) (prologue resumeLabels start) :=
  ⟨⟨some, Nat.lt_of_lt_of_le Nat.two_pos wide⟩, some, ⟨trivial, trivial⟩, trivial,
    uses_setState wide _, trivial⟩

theorem uses_disposeRoot (some : 0 < locals) {dispatch : List Stmt}
    (h : Stmt.UsesAll (.method locals fields methods) dispatch) :
    Stmt.UsesAll (.method locals fields methods) (disposeRoot dispatch) :=
  ⟨⟨some, Nat.lt_of_lt_of_le Nat.two_pos wide⟩, Stmt.usesAll_append.mpr
    ⟨h, uses_setState wide _, trivial, trivial⟩⟩

variable {result? : Option LocalId} (made : ∀ r, result? = some r → r.index < locals)

include made

omit wide in
theorem uses_clearAnswer : Stmt.UsesAll (.method locals fields methods) (clearAnswer result?) := by
  cases result? with
  | none => trivial
  | some result => exact ⟨⟨made result rfl, trivial⟩, trivial⟩

theorem uses_epilogue (exit : LabelId) :
    Stmt.UsesAll (.method locals fields methods) (epilogue exit result?) := by
  refine ⟨trivial, uses_setState wide _, ⟨trivial, ?_⟩, trivial⟩
  cases result? with
  | none => trivial
  | some result => exact made result rfl

end

theorem uses_stepRoot {locals fields methods : Nat} (room : 1 < methods) (hasFrames : Bool)
    {stmts : List Stmt} (h : Stmt.UsesAll (.method locals fields methods) stmts) :
    Stmt.UsesAll (.method locals fields methods) (stepRoot hasFrames stmts) := by
  cases hasFrames with
  | false => exact h
  | true => exact ⟨⟨h, ⟨room, trivial⟩, trivial⟩, trivial⟩

namespace Assembly

variable (a : Assembly iterator machine)

theorem length_methods : machine.methods.length = 2 + a.progress.handlers.length := by
  have length : machine.code.length = machine.methods.length := List.length_map ..
  rw [← length, a.code, List.length_cons, List.length_cons, List.length_map, Nat.add_comm 2]

include a in
theorem length_fields :
    2 + iterator.body.params.length + iterator.body.locals.length = machine.fields.length := by
  rw [a.fields]
  simp [machineFields]
  omega

include a in
/-- Names in the code of a machine. -/
theorem uses_code (inRange : Stmt.UsesAll
      (.iterator (·.index < iterator.body.locals.length) (·.index < iterator.body.params.length))
      iterator.body.root) {c : List LocalDecl × List Stmt} (h : c ∈ machine.code) :
    Stmt.UsesAll (.method c.1.length machine.fields.length machine.methods.length) c.2 := by
  have fit := Nat.le_of_eq a.length_fields
  have wide : 2 ≤ machine.fields.length := by omega
  obtain ⟨adds, uses⟩ := RewritesAll.names fit a.rewrites a.readable.suspendable inRange
  have answered : a.progress.Answered := adds.answered fun r made => by cases made
  have named : a.progress.Named machine.fields.length := adds.named fun m hm => by cases hm
  have written := uses fun _ r made => by cases made
  unfold Progress.Named at named
  unfold Progress.vocabulary at written
  rw [← a.length_methods] at named written
  have some : 0 < a.progress.locals.length := adds.locals
  rw [a.code] at h
  rcases List.mem_cons.mp h with rfl | h
  · refine uses_stepRoot (by rw [a.length_methods]; omega) _ ?_
    exact Stmt.usesAll_append.mpr ⟨Stmt.usesAll_append.mpr ⟨Stmt.usesAll_append.mpr
      ⟨uses_prologue wide some _ _, written⟩, uses_clearAnswer answered⟩,
      uses_epilogue wide answered _⟩
  · rcases List.mem_cons.mp h with rfl | h
    · refine uses_disposeRoot wide Nat.one_pos (Dispose.Due.uses a.sound.nested Nat.one_pos ?_ a.due ?_)
      · rw [a.sound.count, a.length_methods]
        omega
      · rw [a.sound.count]
        exact Nat.succ_pos _
    · obtain ⟨m, hm, rfl⟩ := List.mem_map.mp h
      exact named m hm

/-! Jumps. -/

theorem exit_le : a.plan.base ≤ a.plan.exit.index := Nat.le_refl _

theorem plainLabels_stepStmts : Stmt.plainLabelsAll a.stepStmts =
    ⟨iterator.body.labelCount + 1⟩ :: (Stmt.plainLabelsAll a.rewritten ++ [a.plan.exit]) :=
  plainLabelsAll_stepStmts _ _ _ _

theorem targets_stepStmts :
    Stmt.targets a.stepStmts = a.progress.resumeLabels ++ Stmt.targets a.rewritten := by
  have chosen : Stmt.targets (prologue a.progress.resumeLabels ⟨iterator.body.labelCount + 1⟩) =
      a.progress.resumeLabels := by
    simp only [prologue, setState, Stmt.targets, Stmt.escapes, Option.toList, List.nil_append,
      List.append_nil, map_snd_dispatch]
  have quiet : Stmt.targets (clearAnswer a.progress.result?) = [] := by
    cases a.progress.result? <;> rfl
  have last : Stmt.targets (epilogue ⟨iterator.body.labelCount⟩ a.progress.result?) = [] := rfl
  unfold stepStmts Lowering.stepStmts
  rw [Stmt.targets_append, Stmt.targets_append, Stmt.targets_append, chosen, quiet, last,
    List.append_nil, List.append_nil]

/-- The step method can go on in every state. -/
theorem mem_resumeLabels {l : LabelId} (h : l ∈ a.progress.resumeLabels) :
    l ∈ Stmt.plainLabelsAll a.stepStmts := by
  rw [a.plainLabels_stepStmts]
  obtain ⟨k, found⟩ := List.mem_iff_getElem?.mp h
  cases k with
  | zero =>
    obtain ⟨later, split⟩ := a.evolves.grows.resume
    rw [← split] at found
    cases found
    exact List.mem_cons_self
  | succ k =>
    have room : k < a.plan.yields.length := by
      obtain ⟨inside, -⟩ := List.getElem?_eq_some_iff.mp found
      have length := a.length_resumeLabels
      change a.progress.resumeLabels.length = _ at length
      omega
    have left : a.site.left = 0 := rfl
    have count : Stmt.yieldCount a.hoisted = a.plan.yields.length := rfl
    obtain ⟨resume, mem, same⟩ := WrittenAll.resumes a.hoisted a.written (k := k) (by omega) (by omega)
    cases found.symm.trans same
    exact List.mem_cons_of_mem _ (List.mem_append_left _ mem)

theorem escapes_stepStmts (closed : Stmt.escapesAll iterator.body.root = []) :
    Stmt.escapesAll a.stepStmts = [] := by
  refine List.eq_nil_iff_forall_not_mem.mpr fun l hl => ?_
  obtain ⟨target, away⟩ := mem_unresolved.mp hl
  rw [a.targets_stepStmts] at target
  rcases List.mem_append.mp target with resume | written
  · exact away (a.mem_resumeLabels resume)
  · rw [a.plainLabels_stepStmts, List.mem_cons, List.mem_append, List.mem_singleton, not_or, not_or]
      at away
    obtain ⟨target, known, routed⟩ :=
      (WrittenAll.jumps a.exit_le a.hoisted a.written l written).leaves a.written away.2.1
    have same : l = target := by
      rcases routed with ⟨-, same⟩ | ⟨nested, -⟩
      · exact same
      · exact absurd rfl nested
    rcases known with mem | ⟨rfl, -⟩
    · rw [hoisted, Stmt.escapesAll_hoistAll, closed] at mem
      cases mem
    · exact away.2.2 same

theorem escapes_handler {g : Nat} {m : SynthesizedMethod} (h : a.progress.handlers[g]? = some m) :
    Stmt.escapesAll m.body.root = [] := by
  have room : g < a.plan.tries.length := by
    rw [← a.length_handlers]
    exact (List.getElem?_eq_some_iff.mp h).1
  obtain ⟨id, number⟩ : ∃ id, a.plan.tries[g]? = some id := ⟨_, List.getElem?_eq_getElem room⟩
  have frame : id ∈ frameIds (Stmt.triesAll a.hoisted) := by
    rw [hoisted, frameIds_hoistAll]
    exact List.mem_of_getElem? number
  obtain ⟨g', code, number', found, closed⟩ := WrittenAll.handled a.exit_le a.hoisted a.written id frame
  have same : g' = g := (a.idxOf_tries number').symm.trans (a.idxOf_tries number)
  subst same
  change (a.progress.handlers.map fun m => m.body.root)[g']? = some code at found
  rw [List.getElem?_map, h] at found
  cases found
  exact closed

include a in
/-- Jumps in the code of a machine. -/
theorem escapes_code (closed : Stmt.escapesAll iterator.body.root = [])
    {c : List LocalDecl × List Stmt} (h : c ∈ machine.code) : Stmt.escapesAll c.2 = [] := by
  rw [a.code] at h
  rcases List.mem_cons.mp h with rfl | h
  · have stmts := a.escapes_stepStmts closed
    change Stmt.escapesAll (stepRoot a.facts.hasFrames a.stepStmts) = []
    cases a.facts.hasFrames with
    | false => exact stmts
    | true =>
      refine List.eq_nil_iff_forall_not_mem.mpr fun l hl => ?_
      have escapes := (mem_unresolved.mp hl).1
      change l ∈ Stmt.escapesAll a.stepStmts ++ [] ++ [] at escapes
      rw [stmts] at escapes
      cases escapes
  · rcases List.mem_cons.mp h with rfl | h
    · have dispatch := a.due.closed
      refine List.eq_nil_iff_forall_not_mem.mpr fun l hl => ?_
      obtain ⟨target, away⟩ := mem_unresolved.mp hl
      change l ∈ Stmt.targets (a.dispatch ++ _) at target
      change l ∉ Stmt.plainLabelsAll (a.dispatch ++ _) at away
      rw [Stmt.targets_append] at target
      rw [Stmt.plainLabelsAll_append, List.mem_append, not_or] at away
      rcases List.mem_append.mp target with inside | other
      · have escapes : l ∈ Stmt.escapesAll a.dispatch := mem_unresolved.mpr ⟨inside, away.1⟩
        rw [dispatch] at escapes
        cases escapes
      · cases other
    · obtain ⟨m, hm, rfl⟩ := List.mem_map.mp h
      obtain ⟨g, found⟩ := List.mem_iff_getElem?.mp hm
      exact a.escapes_handler found

include a in
/-- The machine of a body whose names are in range, and whose jumps get to their targets, is closed. -/
theorem closed (inRange : Stmt.UsesAll
      (.iterator (·.index < iterator.body.locals.length) (·.index < iterator.body.params.length))
      iterator.body.root) (closed : Stmt.escapesAll iterator.body.root = []) : machine.Closed where
  uses m hm := a.uses_code inRange (List.mem_map_of_mem hm)
  jumps m hm := a.escapes_code closed (List.mem_map_of_mem hm)
  labels := by
    have distinct := a.nodup_labels
    unfold StateMachine.code at distinct
    rwa [List.flatMap_map] at distinct
  labelCount m hm m' hm' l hl := by
    rw [(a.counts m hm).1]
    exact a.label_lt l (List.mem_flatMap.mpr ⟨_, List.mem_map_of_mem hm', hl⟩)
  tries := by
    have distinct := a.nodup_tries
    unfold StateMachine.code at distinct
    rwa [List.flatMap_map] at distinct
  tryCount m hm m' hm' id hid := by
    rw [(a.counts m hm).2]
    exact a.try_lt id (List.mem_flatMap.mpr ⟨_, List.mem_map_of_mem hm', hid⟩)

end Assembly

end Lowering

end ManagedCode
