import ManagedCode.Compile.Pipeline
import ManagedCode.Proofs.Compile.FanOut
import ManagedCode.Proofs.Compile.MachineDefinitions
import ManagedCode.Proofs.Lists
import ManagedCode.Proofs.Metadata.Builds

namespace ManagedCode

/-- What a unit must be given to be compiled: everything it names is in its program. -/
structure CompilationUnit.InScope (unit : CompilationUnit) : Prop where
  symbols : unit.symbols.WellFormed
  methods : ∀ it ∈ unit.iterators, it.method.index < unit.symbols.methods.length
  elements : ∀ it ∈ unit.iterators, unit.symbols.InScope it.elementTy
  params : ∀ it ∈ unit.iterators, ∀ p ∈ it.body.params, unit.symbols.InScope p.ty
  iterators : ∀ it ∈ unit.iterators, unit.symbols.BodyInScope it.body
  bodies : ∀ b ∈ unit.bodies, unit.symbols.BodyInScope b.2

theorem inScope_machineFields {symbols : Symbols} {iterator : IteratorMethod}
    (element : symbols.InScope iterator.elementTy)
    (params : ∀ p ∈ iterator.body.params, symbols.InScope p.ty)
    (body : symbols.BodyInScope iterator.body) :
    ∀ f ∈ machineFields iterator, symbols.InScope f.ty := by
  intro f hf
  simp only [machineFields, List.cons_append, List.mem_cons, List.mem_append, List.mem_mapIdx] at hf
  rcases hf with rfl | rfl | ⟨i, hi, rfl⟩ | ⟨i, hi, rfl⟩
  · intro d hd
    cases hd
  · exact element
  · exact params _ (List.getElem_mem hi)
  · exact body (.signature _) (List.mem_append_left _ (List.mem_map_of_mem (List.getElem_mem hi)))

theorem CompilationUnit.InScope.machine {unit : CompilationUnit} (scope : unit.InScope)
    {options : LoweringOptions} {it : IteratorMethod} (hit : it ∈ unit.iterators)
    {machine : StateMachine} (h : lowerIterator unit.symbols options it = .ok machine) :
    unit.symbols.MachineInScope machine := by
  have methods := inScope_lowerIterator (scope.iterators it hit) h
  refine ⟨method_of_lowerIterator h ▸ scope.methods it hit, ?_, methods⟩
  rw [fields_of_lowerIterator h]
  exact inScope_machineFields (scope.elements it hit) (scope.params it hit) (scope.iterators it hit)

namespace Compile

/-- Bodies that are indexed without a fault are visited one after another. -/
theorem visitAll_of_steps {target : Target} {bodies : List Body}
    {results : List (Except Fault Unit)} {s t : Session}
    (h : FanOut.Steps (indexBody target) bodies results s t)
    (ok : ∀ r ∈ results, r = .ok ()) :
    target.visitAll (bodies.map .body) s = .ok () t := by
  induction bodies generalizing results s with
  | nil =>
    obtain ⟨-, rfl⟩ := h
    rfl
  | cons body bodies ih =>
    obtain ⟨r, rest, middle, hw, rfl, h⟩ := h
    have visited : target.visitBody body s = .ok () middle := by
      have hr := ok r List.mem_cons_self
      subst hr
      unfold indexBody EStateM.run at hw
      split at hw
      next hv => cases hw; exact hv
      next => cases hw
      next => cases hw
    exact bind_eq_ok.mpr ⟨(), middle, visited, ih h fun r hr => ok r (List.mem_cons_of_mem _ hr)⟩

theorem except_bind_eq_error {ε α β : Type} {x : Except ε α} {f : α → Except ε β} {fault : ε}
    (h : (x >>= f) = .error fault) : x = .error fault ∨ ∃ a, x = .ok a ∧ f a = .error fault := by
  cases x with
  | error fault' => cases h; exact .inl rfl
  | ok a => exact .inr ⟨a, rfl, h⟩

theorem mapError_eq_error {ε ε' α : Type} {x : Except ε α} {f : ε → ε'} {fault : ε'}
    (h : x.mapError f = .error fault) : ∃ cause, x = .error cause ∧ fault = f cause := by
  cases x with
  | error cause => cases h; exact ⟨cause, rfl, rfl⟩
  | ok a => cases h

theorem mapError_eq_ok {ε ε' α : Type} {x : Except ε α} {f : ε → ε'} {a : α}
    (h : x.mapError f = .ok a) : x = .ok a := by
  cases x with
  | error cause => cases h
  | ok b => cases h; rfl

theorem emit_eq_error {α : Type} {stage : CompileStage} {action : Emit α} {session : Session}
    {fault : CompileFault} (h : emit stage action session = .error fault) :
    ∃ cause later, action session = .error cause later ∧ fault = .emission stage cause := by
  unfold emit EStateM.run at h
  split at h
  next => cases h
  next cause later hr => cases h; exact ⟨cause, later, hr, rfl⟩

theorem emit_eq_ok {α : Type} {stage : CompileStage} {action : Emit α} {session later : Session}
    {a : α} (h : emit stage action session = .ok (a, later)) : action session = .ok a later := by
  unfold emit EStateM.run at h
  split at h
  next hr => cases h; exact hr
  next => cases h

/-- Each iterator is lowered to the machine in its place. -/
theorem lowered_of_fanOut {symbols : Symbols} {options : LoweringOptions} {workers : Nat}
    {cancelled : Bool} {iterators : List IteratorMethod} {machines : List StateMachine}
    (h :
      let lower (iterator : IteratorMethod) : Id (Option StateMachine) :=
        (lowerIterator symbols options iterator).toOption
      (fanOut workers cancelled lower iterators).run = .ok machines) :
    List.Forall₂ (fun it machine => lowerIterator symbols options it = .ok machine) iterators
      machines := by
  refine (FanOut.forall₂_fanOut h).imp fun it machine hw => ?_
  change (lowerIterator symbols options it).toOption = some machine at hw
  cases hr : lowerIterator symbols options it with
  | error fault => rw [hr] at hw; cases hw
  | ok made => rw [hr] at hw; cases hw; rfl

theorem all_ok_of_forM {results : List (Except Fault Unit)} {stage : CompileStage}
    (h : (results.forM fun r => r.mapError (CompileFault.emission stage)) = .ok ()) :
    ∀ r ∈ results, r = .ok () := by
  induction results with
  | nil => exact nofun
  | cons first rest ih =>
    obtain ⟨_, hf, hr⟩ := except_bind_eq_ok.mp h
    intro r hm
    rcases List.mem_cons.mp hm with rfl | hm
    · exact mapError_eq_ok hf
    · exact ih hr r hm

theorem forM_ne_buildImage {results : List (Except Fault Unit)} (fault : Fault) :
    (results.forM fun r => r.mapError (CompileFault.emission .indexBodies)) ≠
      .error (.emission .buildImage fault) := by
  induction results with
  | nil => exact nofun
  | cons first rest ih =>
    intro h
    rcases except_bind_eq_error h with h | ⟨_, _, h⟩
    · obtain ⟨cause, -, he⟩ := mapError_eq_error h
      cases he
    · exact ih h

theorem write_ne_buildImage {files : FileStore} {path : String} {bytes : List UInt8}
    (fault : Fault) : write files path bytes ≠ .error (.emission .buildImage fault) := by
  unfold write
  dsimp only
  split
  next => split <;> exact nofun
  next => exact nofun

end Compile

/-- The image of a unit is made when its machines are defined, and its definitions and all bodies
were visited. -/
theorem compile_buildImage_eq_error {settings : Settings} {processors : Nat} {cancelled : Bool}
    {files : FileStore} {unit : CompilationUnit} {fault : Fault}
    (h : compile settings processors cancelled files unit = .error (.emission .buildImage fault)) :
    ∃ lowered, (∀ machine ∈ lowered, ∃ it ∈ unit.iterators,
        lowerIterator unit.symbols settings.lowering it = .ok machine) ∧
      let (machines, symbols) := unit.symbols.addMachines lowered
      let target : Target := { symbols, module := unit.module }
      let bodies := unit.bodies.map (·.2) ++
        machines.flatMap fun m => m.machine.methods.map (·.body)
      ∃ session later, target.visitAll (.definitions :: bodies.map .body) {} = .ok () session ∧
        target.image session = .error fault later := by
  unfold compile at h
  dsimp only at h
  rcases Compile.except_bind_eq_error h with h | ⟨lowered, hl, h⟩
  · obtain ⟨cause, -, he⟩ := Compile.mapError_eq_error h
    cases he
  refine ⟨lowered, fun machine hm => ?_, ?_⟩
  · exact forall₂_mem_right (Compile.lowered_of_fanOut (Compile.mapError_eq_ok hl)) hm
  dsimp only
  rcases Compile.except_bind_eq_error h with h | ⟨⟨_, first⟩, hd, h⟩
  · obtain ⟨cause, later, -, he⟩ := Compile.emit_eq_error h
    cases he
  have definitions := Compile.emit_eq_ok hd
  split at h
  next indexed session hb =>
    rcases Compile.except_bind_eq_error h with h | ⟨results, hr, h⟩
    · obtain ⟨cause, -, he⟩ := Compile.mapError_eq_error h
      cases he
    rw [Compile.mapError_eq_ok hr] at hb
    rcases Compile.except_bind_eq_error h with h | ⟨_, hf, h⟩
    · exact absurd h (Compile.forM_ne_buildImage fault)
    have visited := Compile.visitAll_of_steps (FanOut.steps_fanOut hb) (Compile.all_ok_of_forM hf)
    refine ⟨session, ?_⟩
    rcases Compile.except_bind_eq_error h with h | ⟨_, _, h⟩
    · obtain ⟨cause, later, hi, he⟩ := Compile.emit_eq_error h
      cases he
      exact ⟨later, bind_eq_ok.mpr ⟨(), first, definitions, visited⟩, hi⟩
    · rcases Compile.except_bind_eq_error h with h | ⟨_, _, h⟩
      · cases ho : settings.output with
        | none => rw [ho] at h; cases h
        | some path => rw [ho] at h; exact absurd h (Compile.write_ne_buildImage fault)
      · cases h

/-- Compiling a unit in scope never stops at the image, unless a number is too large for it. -/
theorem compile_buildImage {settings : Settings} {processors : Nat} {cancelled : Bool}
    {files : FileStore} {unit : CompilationUnit} {fault : Fault} (scope : unit.InScope)
    (h : compile settings processors cancelled files unit = .error (.emission .buildImage fault)) :
    fault.IsOverflow := by
  obtain ⟨lowered, from_, session, later, visited, stopped⟩ := compile_buildImage_eq_error h
  have machines : ∀ machine ∈ lowered, unit.symbols.MachineInScope machine := by
    intro machine hm
    obtain ⟨it, hit, hl⟩ := from_ machine hm
    exact scope.machine hit hl
  obtain ⟨wf, grows, same⟩ := scope.symbols.addMachines machines
  refine Session.Indexed.image (Target.indexed_visitAll wf ?_ visited List.mem_cons_self) stopped
  intro v hv
  rcases List.mem_cons.mp hv with rfl | hv
  · trivial
  obtain ⟨body, hb, rfl⟩ := List.mem_map.mp hv
  rcases List.mem_append.mp hb with hb | hb
  · obtain ⟨b, hm, rfl⟩ := List.mem_map.mp hb
    exact (scope.bodies b hm).mono grows
  · obtain ⟨emitted, he, hb⟩ := List.mem_flatMap.mp hb
    obtain ⟨m, hm, rfl⟩ := List.mem_map.mp hb
    have hmem : emitted.machine ∈ lowered := same ▸ List.mem_map_of_mem he
    exact ((machines _ hmem).methods m hm).2.mono grows

/-- References get their tokens in the order in which they depend on one another, and a session in
which the definitions were visited is built, unless a number in it is too large to be written. So is
every unit. -/
theorem reserved_in_order_and_built :
    (∀ (target : Target) visits session, target.symbols.WellFormed →
      (∀ v ∈ visits, target.symbols.VisitInScope v) →
      target.visitAll visits {} = .ok () session →
        (∀ before key after, session.tokens.keys = before ++ key :: after →
          ∀ part ∈ target.parts key, (target.definition? part).isSome ∨ part ∈ before) ∧
        (.definitions ∈ visits →
          (∃ image later, target.image session = .ok image later) ∨
            ∃ value later, target.image session = .error (.compressedOverflow value) later)) ∧
    ∀ settings processors cancelled files unit fault, CompilationUnit.InScope unit →
      compile settings processors cancelled files unit = .error (.emission .buildImage fault) →
        ∃ value, fault = .compressedOverflow value := by
  refine ⟨fun target visits session wf scope h => ⟨?_, fun definitions => ?_⟩, ?_⟩
  · intro before key after split part hp
    exact Target.ordered_visitAll wf scope h split hp
  · have indexed := Target.indexed_visitAll wf scope h definitions
    cases hi : target.image session with
    | ok image later => exact .inl ⟨image, later, rfl⟩
    | error fault later =>
      obtain ⟨value, rfl⟩ := indexed.image hi
      exact .inr ⟨value, later, rfl⟩
  · intro settings processors cancelled files unit fault scope h
    exact compile_buildImage scope h

/-- A program with a field whose type cannot be written. -/
def hugeSymbols : Symbols :=
  let (app, symbols) := ({} : Symbols).addAssembly "App"
  let (main, symbols) := symbols.addModule app "Main"
  let (box, symbols) := symbols.addType main none "Box" 1
  (symbols.addField box "content" (.typeParam Compressed.limit)).2

def hugeUnit : CompilationUnit := { symbols := hugeSymbols, module := ⟨0⟩ }

theorem inScope_hugeUnit : hugeUnit.InScope := by
  refine ⟨?_, nofun, nofun, nofun, nofun, nofun⟩
  refine Symbols.WellFormed.addField ?_ (by decide) _ (by simp [Symbols.InScope, Ty.mentions]) _
  refine Symbols.WellFormed.addType ?_ _ _ _ _
  exact Symbols.wellFormed_empty.of_defs_eq rfl rfl rfl

theorem compile_hugeUnit : ∃ fault,
    compile {} 1 false {} hugeUnit = .error (.emission .buildImage fault) := by
  have stops : (compile {} 1 false {} hugeUnit matches .error (.emission .buildImage _)) = true := by
    decide +kernel
  split at stops
  next fault h => exact ⟨fault, h⟩
  next => cases stops

theorem reserved_in_order_and_built_sample :
    (∃ session, Target.sample.visitAll Target.sampleVisits {} = .ok () session ∧
      ((∃ image later, Target.sample.image session = .ok image later) ∨
        ∃ value later,
          Target.sample.image session = .error (.compressedOverflow value) later)) ∧
    ∃ value, compile {} 1 false {} hugeUnit =
      .error (.emission .buildImage (.compressedOverflow value)) := by
  obtain ⟨built, stopped⟩ := reserved_in_order_and_built
  constructor
  · obtain ⟨session, h⟩ := Target.visits_sample
    refine ⟨session, h, (built _ _ _ Target.wellFormed_sample ?_ h).2 List.mem_cons_self⟩
    intro v hv
    simp only [Target.sampleVisits, List.mem_cons, List.not_mem_nil, or_false] at hv
    rcases hv with rfl | rfl
    · trivial
    · have field : 0 < Target.sample.symbols.fields.length := by decide
      have container : ∀ d ∈ (Ty.inst ⟨1⟩ [.vector .int32]).mentions,
          d.index < Target.sample.symbols.typeDefs.length := by decide
      exact ⟨field, container⟩
  · obtain ⟨fault, h⟩ := compile_hugeUnit
    obtain ⟨value, rfl⟩ := stopped _ _ _ _ _ fault inScope_hugeUnit h
    exact ⟨value, h⟩

end ManagedCode
