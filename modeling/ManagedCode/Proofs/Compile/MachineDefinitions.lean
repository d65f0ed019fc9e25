import ManagedCode.Proofs.Iterator.LoweredScope
import ManagedCode.Proofs.Symbols.WellFormed

namespace ManagedCode

namespace Symbols

variable {symbols later : Symbols}

theorem ReferenceInScope.mono {r : Reference} (h : symbols.ReferenceInScope r)
    (grows : symbols.Grows later) : later.ReferenceInScope r := by
  cases r with
  | assembly | module => trivial
  | type t | signature t => exact InScope.mono h grows.typeDefs
  | arrayMethod kind t => exact InScope.mono h grows.typeDefs
  | member m => exact MemberInScope.mono h grows

theorem BodyInScope.mono {body : Body} (h : symbols.BodyInScope body)
    (grows : symbols.Grows later) : later.BodyInScope body :=
  fun r hr => (h r hr).mono grows

theorem grows_addNestedType (symbols : Symbols) (encloser : TypeDefId) (name : String)
    (genericArity : Nat) :
    symbols.Grows (symbols.addNestedType encloser name genericArity).2 :=
  ⟨by simp [addNestedType, addTypeDef], Nat.le_refl _, Nat.le_refl _⟩

theorem grows_addField (symbols : Symbols) (owner : TypeDefId) (name : String) (t : Ty) :
    symbols.Grows (symbols.addField owner name t).2 :=
  ⟨by simp [addField], by simp [addField], Nat.le_refl _⟩

theorem grows_addMethod (symbols : Symbols) (owner : TypeDefId) (name : String)
    (params : List ParamDef) (ret : Ty) :
    symbols.Grows (symbols.addMethod owner name params ret).2 :=
  ⟨by simp [addMethod], Nat.le_refl _, by simp [addMethod]⟩

theorem WellFormed.addMachineFields (wf : symbols.WellFormed) {owner : TypeDefId}
    (inRange : owner.index < symbols.typeDefs.length) {fields : List MachineField}
    (scope : ∀ f ∈ fields, symbols.InScope f.ty) :
    (symbols.addMachineFields owner fields).2.WellFormed ∧
      symbols.Grows (symbols.addMachineFields owner fields).2 := by
  induction fields generalizing symbols with
  | nil => exact ⟨wf, .refl symbols⟩
  | cons f fields ih =>
    have grows := symbols.grows_addField owner f.name f.ty
    have wf' := wf.addField inRange f.name (scope f List.mem_cons_self) false
    obtain ⟨wf'', grows'⟩ := ih wf' (Nat.lt_of_lt_of_le inRange grows.typeDefs) fun g hg =>
      (scope g (List.mem_cons_of_mem f hg)).mono grows.typeDefs
    exact ⟨wf'', grows.trans grows'⟩

theorem WellFormed.addMachineMethods (wf : symbols.WellFormed) {owner : TypeDefId}
    (inRange : owner.index < symbols.typeDefs.length) {methods : List SynthesizedMethod}
    (scope : ∀ m ∈ methods, symbols.InScope m.ret) :
    (symbols.addMachineMethods owner methods).2.WellFormed ∧
      symbols.Grows (symbols.addMachineMethods owner methods).2 := by
  induction methods generalizing symbols with
  | nil => exact ⟨wf, .refl symbols⟩
  | cons m methods ih =>
    have grows := symbols.grows_addMethod owner m.name [] m.ret
    have none : ∀ p ∈ ([] : List ParamDef), symbols.InScope p.ty := nofun
    have wf' := wf.addMethod inRange m.name none (scope m List.mem_cons_self) 0 false
    obtain ⟨wf'', grows'⟩ := ih wf' (Nat.lt_of_lt_of_le inRange grows.typeDefs) fun n hn =>
      (scope n (List.mem_cons_of_mem m hn)).mono grows.typeDefs
    exact ⟨wf'', grows.trans grows'⟩

/-- What a machine needs of the program that it is added to. -/
structure MachineInScope (symbols : Symbols) (machine : StateMachine) : Prop where
  method : machine.method.index < symbols.methods.length
  fields : ∀ f ∈ machine.fields, symbols.InScope f.ty
  methods : ∀ m ∈ machine.methods, symbols.InScope m.ret ∧ symbols.BodyInScope m.body

theorem MachineInScope.mono {machine : StateMachine} (h : symbols.MachineInScope machine)
    (grows : symbols.Grows later) : later.MachineInScope machine where
  method := Nat.lt_of_lt_of_le h.method grows.methods
  fields f hf := (h.fields f hf).mono grows.typeDefs
  methods m hm := ⟨(h.methods m hm).1.mono grows.typeDefs, (h.methods m hm).2.mono grows⟩

theorem WellFormed.addMachine (wf : symbols.WellFormed) {machine : StateMachine}
    (scope : symbols.MachineInScope machine) :
    (symbols.addMachine machine).2.WellFormed ∧ symbols.Grows (symbols.addMachine machine).2 := by
  obtain ⟨inRange, -, -, -⟩ := wf.method scope.method
  have grows := symbols.grows_addNestedType (symbols.method machine.method).owner machine.name 0
  have wf₁ := wf.addNestedType inRange machine.name 0
  have added : (symbols.addNestedType (symbols.method machine.method).owner machine.name 0).1.index <
      (symbols.addNestedType (symbols.method machine.method).owner machine.name 0).2.typeDefs.length :=
    by simp [Symbols.addNestedType, Symbols.addTypeDef]
  have scope₁ := scope.mono grows
  obtain ⟨wf₂, grows₂⟩ := wf₁.addMachineFields added scope₁.fields
  have scope₂ := scope₁.mono grows₂
  obtain ⟨wf₃, grows₃⟩ := wf₂.addMachineMethods (Nat.lt_of_lt_of_le added grows₂.typeDefs)
    fun m hm => (scope₂.methods m hm).1
  exact ⟨wf₃, (grows.trans grows₂).trans grows₃⟩

/-- Machines are defined one by one, each in the program that the earlier ones are part of. -/
theorem WellFormed.addMachines (wf : symbols.WellFormed) {machines : List StateMachine}
    (scope : ∀ machine ∈ machines, symbols.MachineInScope machine) :
    (symbols.addMachines machines).2.WellFormed ∧
      symbols.Grows (symbols.addMachines machines).2 ∧
      (symbols.addMachines machines).1.map (·.machine) = machines := by
  induction machines generalizing symbols with
  | nil => exact ⟨wf, .refl symbols, rfl⟩
  | cons machine machines ih =>
    obtain ⟨wf', grows⟩ := wf.addMachine (scope machine List.mem_cons_self)
    obtain ⟨wf'', grows', same⟩ := ih wf' fun other ho =>
      (scope other (List.mem_cons_of_mem machine ho)).mono grows
    exact ⟨wf'', grows.trans grows', congrArg (machine :: ·) same⟩

end Symbols

end ManagedCode
