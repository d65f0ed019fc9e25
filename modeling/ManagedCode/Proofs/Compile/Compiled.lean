import ManagedCode.Proofs.Compile.AddedMachines
import ManagedCode.Proofs.Compile.Builds
import ManagedCode.Proofs.Iterator.HoistEval

namespace ManagedCode

/-! What is compiled, and the names that it gives out. -/

/-- The program of a compiled unit, as a module to be written. -/
def EmitOutput.target (output : EmitOutput) (unit : CompilationUnit) : Target :=
  { symbols := output.symbols, module := unit.module }

/-- How a unit was compiled: its iterators were lowered in turn, the machines were defined, and the
image was laid out after the definitions and all bodies had been visited. -/
structure EmitOutput.CompiledFrom (output : EmitOutput) (unit : CompilationUnit)
    (settings : Settings) : Prop where
  lowered : List.Forall₂
    (fun it emitted => lowerIterator unit.symbols settings.lowering it = .ok emitted.machine)
    unit.iterators output.machines
  added : unit.symbols.addMachines (output.machines.map (·.machine)) =
    (output.machines, output.symbols)
  image :
    let bodies := unit.bodies.map (·.2) ++
      output.machines.flatMap fun emitted => emitted.machine.methods.map (·.body)
    ∃ session after,
      (output.target unit).visitAll (.definitions :: bodies.map .body) {} = .ok () session ∧
        (output.target unit).image session = .ok output.image after

variable {settings : Settings} {processors : Nat} {cancelled : Bool} {files later : FileStore}
  {unit : CompilationUnit} {output : EmitOutput}

theorem compiledFrom_of_compile
    (h : compile settings processors cancelled files unit = .ok (output, later)) :
    output.CompiledFrom unit settings := by
  unfold compile at h
  dsimp only at h
  obtain ⟨lowered, hl, h⟩ := except_bind_eq_ok.mp h
  have machines := Compile.lowered_of_fanOut (Compile.mapError_eq_ok hl)
  obtain ⟨⟨_, first⟩, hd, h⟩ := except_bind_eq_ok.mp h
  have definitions := Compile.emit_eq_ok hd
  split at h
  next indexed session hb =>
    obtain ⟨results, hr, h⟩ := except_bind_eq_ok.mp h
    rw [Compile.mapError_eq_ok hr] at hb
    obtain ⟨_, hf, h⟩ := except_bind_eq_ok.mp h
    have visited := Compile.visitAll_of_steps (FanOut.steps_fanOut hb) (Compile.all_ok_of_forM hf)
    obtain ⟨⟨image, after⟩, hi, h⟩ := except_bind_eq_ok.mp h
    obtain ⟨_, _, h⟩ := except_bind_eq_ok.mp h
    cases h
    have made := Symbols.map_machine_addMachines unit.symbols lowered
    refine ⟨?_, ?_, session, after, bind_eq_ok.mpr ⟨(), first, definitions, visited⟩,
      Compile.emit_eq_ok hi⟩
    · rw [← made] at machines
      have paired := List.forall₂_map_right_iff.mp machines
      exact paired
    · exact congrArg unit.symbols.addMachines made

namespace EmitOutput.CompiledFrom

variable {emitted : EmittedMachine} (h : output.CompiledFrom unit settings)

include h

/-- A machine is lowered from its iterator. -/
theorem lowered_of_mem (among : emitted ∈ output.machines) : ∃ it ∈ unit.iterators,
    lowerIterator unit.symbols settings.lowering it = .ok emitted.machine :=
  forall₂_mem_right h.lowered among

theorem typeDef_index : output.machines.map (·.typeDef) =
    (List.range' unit.symbols.typeDefs.length output.machines.length).map TypeDefId.mk := by
  have numbered := unit.symbols.map_typeDef_addMachines (output.machines.map (·.machine))
  rw [h.added, List.length_map] at numbered
  exact numbered

/-- The `p`-th machine has the `p`-th type behind those of the unit. -/
theorem typeDef_eq {p : Nat} (here : output.machines[p]? = some emitted) :
    emitted.typeDef = ⟨unit.symbols.typeDefs.length + p⟩ := by
  obtain ⟨inside, rfl⟩ := List.getElem?_eq_some_iff.mp here
  have numbered := congrArg (·[p]?) h.typeDef_index
  simpa [inside] using numbered

theorem definedIn (among : emitted ∈ output.machines) : emitted.DefinedIn output.symbols := by
  have all := unit.symbols.definedIn_addMachines (output.machines.map (·.machine))
  rw [h.added] at all
  exact all emitted among

theorem keptIn : unit.symbols.KeptIn output.symbols := by
  have kept := unit.symbols.keptIn_addMachines (output.machines.map (·.machine))
  rw [h.added] at kept
  exact kept

theorem made (made : unit.symbols.Made) (scope : unit.InScope) : output.symbols.Made := by
  have machines : ∀ machine ∈ output.machines.map (·.machine),
      unit.symbols.MachineInScope machine := by
    intro machine among
    obtain ⟨emitted, here, rfl⟩ := List.mem_map.mp among
    obtain ⟨it, given, lowered⟩ := h.lowered_of_mem here
    exact scope.machine given lowered
  have all := made.addMachines machines
  rw [h.added] at all
  exact all

variable (wf : unit.symbols.WellFormed)
  (methods : ∀ it ∈ unit.iterators, it.method.index < unit.symbols.methods.length)

include wf methods

theorem housed : ∀ machine ∈ output.machines.map (·.machine), unit.symbols.Houses machine := by
  intro machine among
  obtain ⟨emitted, here, rfl⟩ := List.mem_map.mp among
  obtain ⟨it, given, lowered⟩ := h.lowered_of_mem here
  exact wf.houses (method_of_lowerIterator lowered ▸ methods it given)

/-- The types of the machines come behind those of the unit. -/
theorem typeDefs : output.symbols.typeDefs =
    unit.symbols.typeDefs ++ output.machines.map unit.symbols.machineType := by
  have all := Symbols.typeDefs_addMachines (h.housed wf methods)
  rw [h.added] at all
  exact all

theorem typeDef_machine (among : emitted ∈ output.machines) :
    output.symbols.typeDef emitted.typeDef = unit.symbols.machineType emitted := by
  obtain ⟨p, here⟩ := List.getElem?_of_mem among
  rw [h.typeDef_eq here, Symbols.typeDef, h.typeDefs wf methods, List.getD_eq_getElem?_getD,
    List.getElem?_append_right (Nat.le_add_right _ p), Nat.add_sub_cancel_left, List.getElem?_map,
    here]
  rfl

/-- The module has the unit's own types and then those of the machines, if all of them lie in it. -/
theorem typeDefs_target
    (own : ∀ it ∈ unit.iterators,
      unit.symbols.isDefinedIn (unit.symbols.method it.method).owner unit.module) :
    (output.target unit).typeDefs =
      unit.symbols.typeDefsIn unit.module ++ output.machines.map (·.typeDef) := by
  have all : (List.range output.symbols.typeDefs.length).map TypeDefId.mk =
      (List.range unit.symbols.typeDefs.length).map TypeDefId.mk ++
        output.machines.map (·.typeDef) := by
    rw [h.typeDefs wf methods, h.typeDef_index, List.length_append, List.length_map,
      List.range_eq_range', List.range_eq_range', ← List.map_append, ← List.range'_append_1,
      Nat.zero_add]
  have old : ∀ d ∈ (List.range unit.symbols.typeDefs.length).map TypeDefId.mk,
      output.symbols.isDefinedIn d unit.module = unit.symbols.isDefinedIn d unit.module := by
    intro d among
    obtain ⟨i, inside, rfl⟩ := List.mem_map.mp among
    unfold Symbols.isDefinedIn
    rw [h.keptIn.typeDef (List.mem_range.mp inside)]
  have new : ∀ d ∈ output.machines.map (·.typeDef),
      output.symbols.isDefinedIn d unit.module = true := by
    intro d among
    obtain ⟨emitted, here, rfl⟩ := List.mem_map.mp among
    obtain ⟨it, given, lowered⟩ := h.lowered_of_mem here
    have inside := own it given
    rw [← method_of_lowerIterator lowered] at inside
    unfold Symbols.isDefinedIn
    rw [h.typeDef_machine wf methods here]
    exact inside
  change ((List.range output.symbols.typeDefs.length).map TypeDefId.mk).filter _ = _
  rw [all, List.filter_append]
  exact congrArg₂ (· ++ ·) (List.filter_congr old) (List.filter_eq_self.mpr new)

end EmitOutput.CompiledFrom

/-- A class with two overloads of a method and one other method. -/
def overloadSymbols : Symbols :=
  let (app, symbols) := ({} : Symbols).addAssembly "App"
  let (main, symbols) := symbols.addModule app "Main"
  let (program, symbols) := symbols.addType main none "Program" 0
  let (_, symbols) := symbols.addMethod program "Numbers" [] .int32
  let (_, symbols) := symbols.addMethod program "Numbers" [{ name := "start", ty := .int32 }] .int32
  (symbols.addMethod program "Words" [] .int32).2

/-- A unit in which some methods are iterators that stop at once. -/
def overloadUnit (iterators : List MethodId) : CompilationUnit where
  symbols := overloadSymbols
  module := ⟨0⟩
  iterators := iterators.map fun method => { idleIterator with method }

theorem made_overloadSymbols : overloadSymbols.Made := by
  have int32 {symbols : Symbols} : symbols.InScope .int32 := nofun
  have none {symbols : Symbols} : ∀ p ∈ ([] : List ParamDef), symbols.InScope p.ty := nofun
  have start {symbols : Symbols} : ∀ p ∈ [{ name := "start", ty := .int32 : ParamDef }],
      symbols.InScope p.ty := by
    intro p among
    rw [List.mem_singleton.mp among]
    exact int32
  refine .addMethod ?_ (by decide) _ none int32 _ _
  refine .addMethod ?_ (by decide) _ start int32 _ _
  refine .addMethod ?_ (by decide) _ none int32 _ _
  exact .addType (.addModule (.addAssembly .empty _ _) _ _) _ _ _ _

theorem inScope_overloadUnit {iterators : List MethodId}
    (methods : ∀ m ∈ iterators, m.index < 3) : (overloadUnit iterators).InScope where
  symbols := made_overloadSymbols.wellFormed
  methods it given := by
    obtain ⟨m, among, rfl⟩ := List.mem_map.mp given
    exact methods m among
  elements it given := by
    obtain ⟨m, -, rfl⟩ := List.mem_map.mp given
    exact nofun
  params it given p among := by
    obtain ⟨m, -, rfl⟩ := List.mem_map.mp given
    rw [List.mem_singleton.mp among]
    exact nofun
  iterators it given r among := by
    obtain ⟨m, -, rfl⟩ := List.mem_map.mp given
    have local_ : r = .signature .int32 := List.mem_singleton.mp among
    rw [local_]
    exact (nofun : overloadSymbols.InScope .int32)
  bodies := nofun

end ManagedCode
