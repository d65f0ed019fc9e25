import ManagedCode.Proofs.Compile.Compiled

namespace ManagedCode

/-! The names of machines. -/

/-- What a type is told apart by: where it lies, its namespace and its name. -/
def TypeDef.identity (typeDef : TypeDef) : ModuleId × Option TypeDefId × Option String × String :=
  (typeDef.module, typeDef.enclosing.head?, typeDef.nameSpace, typeDef.name)

/-- The owner and the name of a method, which its overloads share. -/
def MethodDef.overloadGroup (method : MethodDef) : TypeDefId × String := (method.owner, method.name)

namespace Symbols

variable {symbols : Symbols}

/-- The identity of the type of a machine whose iterator is one of some overloads. -/
def machineIdentity (symbols : Symbols) (options : LoweringOptions) (group : TypeDefId × String) :
    ModuleId × Option TypeDefId × Option String × String :=
  ((symbols.typeDef group.1).module, some group.1, none, options.namePrefix ++ group.2)

theorem machineIdentity_injective (symbols : Symbols) (options : LoweringOptions) :
    Function.Injective (symbols.machineIdentity options) := by
  rintro ⟨owner, name⟩ ⟨owner', name'⟩ same
  simp only [machineIdentity, Prod.mk.injEq, Option.some.injEq] at same
  obtain ⟨-, rfl, -, names⟩ := same
  rw [String.append_right_inj] at names
  rw [names]

theorem identity_machineType {options : LoweringOptions} {it : IteratorMethod}
    {emitted : EmittedMachine} (h : lowerIterator symbols options it = .ok emitted.machine) :
    (symbols.machineType emitted).identity =
      symbols.machineIdentity options (symbols.method it.method).overloadGroup := by
  simp only [machineType, TypeDef.identity, machineIdentity, MethodDef.overloadGroup, iteratorOwner,
    method_of_lowerIterator h, name_of_lowerIterator h, List.head?_cons]

end Symbols

/-- The machines of a unit are identified by what their iterators are called. -/
theorem EmitOutput.CompiledFrom.map_identity {settings : Settings} {unit : CompilationUnit}
    {output : EmitOutput} (h : output.CompiledFrom unit settings) :
    output.machines.map (fun emitted => (unit.symbols.machineType emitted).identity) =
      unit.iterators.map fun it => unit.symbols.machineIdentity settings.lowering
        (unit.symbols.method it.method).overloadGroup := by
  refine List.forall₂_eq_eq_eq ▸ List.forall₂_map_left_iff.mpr (List.forall₂_map_right_iff.mpr ?_)
  exact (h.lowered.imp fun _ _ => Symbols.identity_machineType).flip

/-- Types that lie in one place and have one name are machines of overloads: in a unit whose types
can be told apart, and which has no type beside its machines whose name starts as theirs do, all
types can be told apart if and only if no two iterators of one owner have the same name. -/
theorem machines_told_apart_iff {settings : Settings} {processors : Nat} {cancelled : Bool}
    {files later : FileStore} {unit : CompilationUnit} {output : EmitOutput}
    (wf : unit.symbols.WellFormed)
    (methods : ∀ it ∈ unit.iterators, it.method.index < unit.symbols.methods.length)
    (distinct : (unit.symbols.typeDefs.map TypeDef.identity).Nodup)
    (free : ∀ it ∈ unit.iterators, ∀ d ∈ unit.symbols.typeDefs,
      d.enclosing.head? = some (unit.symbols.method it.method).owner →
        ∀ rest, d.name ≠ settings.lowering.namePrefix ++ rest)
    (h : compile settings processors cancelled files unit = .ok (output, later)) :
    output.machines.map (fun emitted => (output.symbols.typeDef emitted.typeDef).identity) =
        unit.iterators.map (fun it => unit.symbols.machineIdentity settings.lowering
          (unit.symbols.method it.method).overloadGroup) ∧
      (∀ emitted ∈ output.machines, ∀ d ∈ unit.symbols.typeDefs,
        d.identity ≠ (output.symbols.typeDef emitted.typeDef).identity) ∧
      ((output.symbols.typeDefs.map TypeDef.identity).Nodup ↔
        (unit.iterators.map fun it => (unit.symbols.method it.method).overloadGroup).Nodup) := by
  have compiled := compiledFrom_of_compile h
  let group (it : IteratorMethod) := (unit.symbols.method it.method).overloadGroup
  let identity (it : IteratorMethod) := unit.symbols.machineIdentity settings.lowering (group it)
  have named : output.machines.map (fun e => (unit.symbols.machineType e).identity) =
      unit.iterators.map identity := compiled.map_identity
  have typed : ∀ emitted ∈ output.machines, (output.symbols.typeDef emitted.typeDef).identity =
      (unit.symbols.machineType emitted).identity := fun emitted among =>
    congrArg TypeDef.identity (compiled.typeDef_machine wf methods among)
  have apart : ∀ it ∈ unit.iterators, ∀ d ∈ unit.symbols.typeDefs, d.identity ≠ identity it := by
    intro it given d old same
    simp only [TypeDef.identity, identity, Symbols.machineIdentity, Prod.mk.injEq] at same
    obtain ⟨-, inside, -, name⟩ := same
    exact free it given d old inside _ name
  refine ⟨(List.map_congr_left typed).trans named, fun emitted among d old => ?_, ?_⟩
  · have machine : (unit.symbols.machineType emitted).identity ∈ unit.iterators.map identity :=
      named ▸ List.mem_map_of_mem among
    obtain ⟨it, given, same⟩ := List.mem_map.mp machine
    rw [typed emitted among, ← same]
    exact apart it given d old
  · have all : output.symbols.typeDefs.map TypeDef.identity =
        unit.symbols.typeDefs.map TypeDef.identity ++
          (unit.iterators.map group).map (unit.symbols.machineIdentity settings.lowering) := by
      rw [compiled.typeDefs wf methods, List.map_append, List.map_map, List.map_map]
      exact congrArg (_ ++ ·) named
    -- What is left is that no type of the unit has the identity of a machine.
    rw [all, List.nodup_append, List.nodup_map_iff (Symbols.machineIdentity_injective _ _)]
    refine ⟨fun parts => parts.2.1, fun groups => ⟨distinct, groups, ?_⟩⟩
    rintro _ left _ right rfl
    obtain ⟨d, old, same⟩ := List.mem_map.mp left
    rw [List.map_map] at right
    obtain ⟨it, given, same'⟩ := List.mem_map.mp right
    exact apart it given d old (same.trans same'.symm)

theorem machines_told_apart_of_other_names :
    let unit := overloadUnit [⟨0⟩, ⟨2⟩]
    ∃ output later, compile {} 1 false {} unit = .ok (output, later) ∧
      (output.symbols.typeDefs.map TypeDef.identity).Nodup := by
  intro unit
  have scope : unit.InScope := inScope_overloadUnit (by decide)
  have distinct : (unit.symbols.typeDefs.map TypeDef.identity).Nodup := by decide
  have top : ∀ d ∈ unit.symbols.typeDefs, d.enclosing = [] := by decide
  obtain ⟨⟨output, later⟩, compiled⟩ := exists_eq_ok (x := compile {} 1 false {} unit)
    (by decide +kernel)
  obtain ⟨-, -, apart⟩ := machines_told_apart_iff scope.symbols scope.methods distinct
    (fun it _ d old inside => by rw [top d old] at inside; cases inside) compiled
  exact ⟨output, later, compiled, apart.mpr (by decide)⟩

/-- Two overloads that are iterators get machines that cannot be told apart. -/
theorem overloads_not_told_apart :
    let unit := overloadUnit [⟨0⟩, ⟨1⟩]
    (unit.symbols.typeDefs.map TypeDef.identity).Nodup ∧
      (∀ d ∈ unit.symbols.typeDefs, ¬"<>d__".toList <+: d.name.toList) ∧
      ∃ output later, compile {} 1 false {} unit = .ok (output, later) ∧
        ¬(output.symbols.typeDefs.map TypeDef.identity).Nodup := by
  intro unit
  refine ⟨by decide, by decide, ?_⟩
  obtain ⟨⟨output, later⟩, compiled⟩ := exists_eq_ok (x := compile {} 1 false {} unit)
    (by decide +kernel)
  have shared : (compile {} 1 false {} unit).toOption.map (fun made =>
      decide (made.1.symbols.typeDefs.map TypeDef.identity).Nodup) = some false := by
    decide +kernel
  rw [compiled] at shared
  exact ⟨output, later, compiled, of_decide_eq_false (Option.some.inj shared)⟩

end ManagedCode
