import ManagedCode.Proofs.Compile.MachineDefinitions
import ManagedCode.Proofs.Symbols.Made

namespace ManagedCode

/-! What the machines of a unit add to its program. -/

/-- The definition of a field of a machine whose type is `owner`. -/
def MachineField.definition (owner : TypeDefId) (field : MachineField) : FieldDef :=
  { name := field.name, owner, ty := field.ty }

/-- The definition of a method of a machine whose type is `owner`. -/
def SynthesizedMethod.definition (owner : TypeDefId) (method : SynthesizedMethod) : MethodDef :=
  { name := method.name, owner, params := [], ret := method.ret }

namespace Symbols

/-- The type that the iterator of a machine is a method of. -/
def iteratorOwner (symbols : Symbols) (machine : StateMachine) : TypeDefId :=
  (symbols.method machine.method).owner

/-- The type of a machine: nested in the type of its iterator, with all its fields and methods. -/
def machineType (symbols : Symbols) (emitted : EmittedMachine) : TypeDef :=
  let owner := symbols.iteratorOwner emitted.machine
  { name := emitted.machine.name
    module := (symbols.typeDef owner).module
    enclosing := owner :: (symbols.typeDef owner).enclosing
    fields := emitted.fields
    methods := emitted.methods }

/-- A program with one more machine, whose definitions come behind all others. -/
structure Adds (symbols : Symbols) (emitted : EmittedMachine) (later : Symbols) : Prop where
  typeDef : emitted.typeDef = ⟨symbols.typeDefs.length⟩
  fieldIds : emitted.fields =
    (List.range' symbols.fields.length emitted.machine.fields.length).map FieldId.mk
  methodIds : emitted.methods =
    (List.range' symbols.methods.length emitted.machine.methods.length).map MethodId.mk
  typeDefs : later.typeDefs = symbols.typeDefs ++ [symbols.machineType emitted]
  fields : later.fields =
    symbols.fields ++ emitted.machine.fields.map (·.definition emitted.typeDef)
  methods : later.methods =
    symbols.methods ++ emitted.machine.methods.map (·.definition emitted.typeDef)

variable {symbols : Symbols}

theorem modify_last {α : Type} (f : α → α) (before : List α) (last : α) :
    (before ++ [last]).modify before.length f = before ++ [f last] := by
  induction before with
  | nil => rfl
  | cons a before ih => exact congrArg (a :: ·) ih

/-- The fields of a machine are defined in slot order and listed by the type defined last. -/
theorem addMachineFields_eq {before : List TypeDef} {last : TypeDef} {owner : TypeDefId}
    (here : owner.index = before.length) (types : symbols.typeDefs = before ++ [last])
    (fields : List MachineField) :
    let ids := (List.range' symbols.fields.length fields.length).map FieldId.mk
    let later := (symbols.addMachineFields owner fields).2
    (symbols.addMachineFields owner fields).1 = ids ∧
      later.typeDefs = before ++ [{ last with fields := last.fields ++ ids }] ∧
      later.fields = symbols.fields ++ fields.map (·.definition owner) ∧
      later.methods = symbols.methods := by
  induction fields generalizing symbols last with
  | nil =>
    refine ⟨rfl, ?_, (List.append_nil _).symm, rfl⟩
    rw [List.length_nil, List.range'_zero, List.map_nil, List.append_nil]
    exact types
  | cons field fields ih =>
    let next := (symbols.addField owner field.name field.ty).2
    have types' : next.typeDefs =
        before ++ [{ last with fields := last.fields ++ [⟨symbols.fields.length⟩] }] := by
      change symbols.typeDefs.modify owner.index _ = _
      rw [types, here, modify_last]
    have defs : next.fields = symbols.fields ++ [field.definition owner] := rfl
    obtain ⟨ids, listed, defs', others⟩ := ih types'
    rw [defs, List.length_append, List.length_singleton] at ids listed
    rw [List.length_cons, List.range'_succ, List.map_cons]
    refine ⟨congrArg (List.cons _) ids, ?_, ?_, others⟩
    · rw [List.append_cons last.fields]
      exact listed
    · rw [List.map_cons, List.append_cons, ← defs]
      exact defs'

theorem addMachineMethods_eq {before : List TypeDef} {last : TypeDef} {owner : TypeDefId}
    (here : owner.index = before.length) (types : symbols.typeDefs = before ++ [last])
    (methods : List SynthesizedMethod) :
    let ids := (List.range' symbols.methods.length methods.length).map MethodId.mk
    let later := (symbols.addMachineMethods owner methods).2
    (symbols.addMachineMethods owner methods).1 = ids ∧
      later.typeDefs = before ++ [{ last with methods := last.methods ++ ids }] ∧
      later.fields = symbols.fields ∧
      later.methods = symbols.methods ++ methods.map (·.definition owner) := by
  induction methods generalizing symbols last with
  | nil =>
    refine ⟨rfl, ?_, rfl, (List.append_nil _).symm⟩
    rw [List.length_nil, List.range'_zero, List.map_nil, List.append_nil]
    exact types
  | cons method methods ih =>
    let next := (symbols.addMethod owner method.name [] method.ret).2
    have types' : next.typeDefs =
        before ++ [{ last with methods := last.methods ++ [⟨symbols.methods.length⟩] }] := by
      change symbols.typeDefs.modify owner.index _ = _
      rw [types, here, modify_last]
    have defs : next.methods = symbols.methods ++ [method.definition owner] := rfl
    obtain ⟨ids, listed, others, defs'⟩ := ih types'
    rw [defs, List.length_append, List.length_singleton] at ids listed
    rw [List.length_cons, List.range'_succ, List.map_cons]
    refine ⟨congrArg (List.cons _) ids, ?_, others, ?_⟩
    · rw [List.append_cons last.methods]
      exact listed
    · rw [List.map_cons, List.append_cons, ← defs]
      exact defs'

theorem adds_addMachine (symbols : Symbols) (machine : StateMachine) :
    symbols.Adds (symbols.addMachine machine).1 (symbols.addMachine machine).2 := by
  let nested := (symbols.addNestedType (symbols.iteratorOwner machine) machine.name 0).2
  let added := (symbols.addMachine machine).1
  have here : added.typeDef.index = symbols.typeDefs.length := rfl
  have types : nested.typeDefs = symbols.typeDefs ++ [_] := rfl
  have fields := addMachineFields_eq here types machine.fields
  have methods := addMachineMethods_eq here fields.2.1 machine.methods
  have fieldIds : added.fields = _ := fields.1
  have methodIds : added.methods = _ := methods.1
  rw [fields.2.2.2] at methodIds
  refine ⟨rfl, fieldIds, methodIds, methods.2.1.trans ?_, methods.2.2.1.trans fields.2.2.1, ?_⟩
  · rw [fields.2.2.2]
    unfold machineType
    rw [fieldIds, methodIds]
    rfl
  · refine methods.2.2.2.trans ?_
    rw [fields.2.2.2]
    rfl

/-- All definitions of a program are kept in another one, with others behind them. -/
structure KeptIn (symbols later : Symbols) : Prop where
  typeDefs : symbols.typeDefs <+: later.typeDefs
  fields : symbols.fields <+: later.fields
  methods : symbols.methods <+: later.methods

variable {later last : Symbols} {emitted : EmittedMachine}

theorem KeptIn.refl (symbols : Symbols) : symbols.KeptIn symbols :=
  ⟨List.prefix_rfl, List.prefix_rfl, List.prefix_rfl⟩

theorem KeptIn.trans (h : symbols.KeptIn later) (h' : later.KeptIn last) : symbols.KeptIn last :=
  ⟨h.typeDefs.trans h'.typeDefs, h.fields.trans h'.fields, h.methods.trans h'.methods⟩

theorem Adds.keptIn (h : symbols.Adds emitted later) : symbols.KeptIn later where
  typeDefs := ⟨_, h.typeDefs.symm⟩
  fields := ⟨_, h.fields.symm⟩
  methods := ⟨_, h.methods.symm⟩

theorem getD_of_kept {α : Type} {l l' : List α} (h : l <+: l') {i : Nat} (inside : i < l.length)
    (other : α) : l'.getD i other = l.getD i other := by
  obtain ⟨more, rfl⟩ := h
  rw [List.getD_eq_getElem?_getD, List.getElem?_append_left inside, List.getD_eq_getElem?_getD]

theorem KeptIn.typeDef (h : symbols.KeptIn later) {d : TypeDefId}
    (inside : d.index < symbols.typeDefs.length) : later.typeDef d = symbols.typeDef d :=
  getD_of_kept h.typeDefs inside _

theorem KeptIn.method (h : symbols.KeptIn later) {m : MethodId}
    (inside : m.index < symbols.methods.length) : later.method m = symbols.method m :=
  getD_of_kept h.methods inside _

theorem keptIn_addMachines (symbols : Symbols) (machines : List StateMachine) :
    symbols.KeptIn (symbols.addMachines machines).2 := by
  induction machines generalizing symbols with
  | nil => exact .refl symbols
  | cons machine machines ih => exact (symbols.adds_addMachine machine).keptIn.trans (ih _)

theorem map_machine_addMachines (symbols : Symbols) (machines : List StateMachine) :
    (symbols.addMachines machines).1.map (·.machine) = machines := by
  induction machines generalizing symbols with
  | nil => rfl
  | cons machine machines ih => exact congrArg (machine :: ·) (ih _)

/-- The types of machines are numbered behind those of the program, in order. -/
theorem map_typeDef_addMachines (symbols : Symbols) (machines : List StateMachine) :
    (symbols.addMachines machines).1.map (·.typeDef) =
      (List.range' symbols.typeDefs.length machines.length).map TypeDefId.mk := by
  induction machines generalizing symbols with
  | nil => rfl
  | cons machine machines ih =>
    have adds := symbols.adds_addMachine machine
    have others := ih (symbols.addMachine machine).2
    rw [adds.typeDefs, List.length_append, List.length_singleton] at others
    rw [List.length_cons, List.range'_succ, List.map_cons, ← others, ← adds.typeDef]
    rfl

/-- The iterator of a machine is a method of a type of the program. -/
structure Houses (symbols : Symbols) (machine : StateMachine) : Prop where
  method : machine.method.index < symbols.methods.length
  owner : (symbols.iteratorOwner machine).index < symbols.typeDefs.length

theorem WellFormed.houses (wf : symbols.WellFormed) {machine : StateMachine}
    (method : machine.method.index < symbols.methods.length) : symbols.Houses machine :=
  ⟨method, (wf.method method).1⟩

theorem Houses.mono {machine : StateMachine} (h : symbols.Houses machine)
    (kept : symbols.KeptIn later) : later.Houses machine where
  method := Nat.lt_of_lt_of_le h.method kept.methods.length_le
  owner := by
    unfold iteratorOwner
    rw [kept.method h.method]
    exact Nat.lt_of_lt_of_le h.owner kept.typeDefs.length_le

theorem Houses.machineType_eq (h : symbols.Houses emitted.machine) (kept : symbols.KeptIn later) :
    later.machineType emitted = symbols.machineType emitted := by
  have owner : later.iteratorOwner emitted.machine = symbols.iteratorOwner emitted.machine := by
    unfold iteratorOwner
    rw [kept.method h.method]
  simp only [machineType, owner, kept.typeDef h.owner]

/-- A unit with its machines has the types of the unit and then those of the machines, as they are
defined in the end. -/
theorem typeDefs_addMachines {machines : List StateMachine}
    (housed : ∀ machine ∈ machines, symbols.Houses machine) :
    (symbols.addMachines machines).2.typeDefs =
      symbols.typeDefs ++ (symbols.addMachines machines).1.map symbols.machineType := by
  induction machines generalizing symbols with
  | nil => exact (List.append_nil _).symm
  | cons machine machines ih =>
    let next := (symbols.addMachine machine).2
    have adds : symbols.Adds (symbols.addMachine machine).1 next := symbols.adds_addMachine machine
    have housed' : ∀ other ∈ machines, symbols.Houses other := fun other among =>
      housed other (List.mem_cons_of_mem _ among)
    have others := ih fun other among => (housed' other among).mono adds.keptIn
    -- The other machines are described in `next`, but their iterators were there before it.
    have same : (next.addMachines machines).1.map next.machineType =
        (next.addMachines machines).1.map symbols.machineType := by
      refine List.map_congr_left fun emitted among => ?_
      have home : emitted.machine ∈ machines := by
        rw [← map_machine_addMachines next machines]
        exact List.mem_map_of_mem among
      exact (housed' _ home).machineType_eq adds.keptIn
    rw [same, adds.typeDefs, List.append_assoc] at others
    exact others

end Symbols

/-- All fields and methods of a machine are defined in a program as members of its type. -/
structure EmittedMachine.DefinedIn (symbols : Symbols) (emitted : EmittedMachine) : Prop where
  fields : List.Forall₂ (fun field id => symbols.field id = field.definition emitted.typeDef)
    emitted.machine.fields emitted.fields
  methods : List.Forall₂ (fun method id => symbols.method id = method.definition emitted.typeDef)
    emitted.machine.methods emitted.methods

namespace Symbols

variable {symbols later last : Symbols} {emitted : EmittedMachine}

/-- What is put behind a list is found there by number. -/
theorem forall₂_range'_getD {α β : Type} {before whole : List β} {l : List α} {f : α → β}
    (h : before ++ l.map f <+: whole) (other : β) :
    List.Forall₂ (fun a i => whole.getD i other = f a) l (List.range' before.length l.length) := by
  obtain ⟨more, rfl⟩ := h
  refine List.forall₂_iff_get.mpr ⟨by simp, fun i inside _ => ?_⟩
  have behind : ¬before.length + i < before.length := by omega
  simp [List.getD_eq_getElem?_getD, List.getElem?_append, inside, behind]

theorem Adds.definedIn (h : symbols.Adds emitted later) (kept : later.KeptIn last) :
    emitted.DefinedIn last where
  fields := by
    have fields := h.fields ▸ kept.fields
    rw [h.fieldIds, List.forall₂_map_right_iff]
    exact forall₂_range'_getD fields _
  methods := by
    have methods := h.methods ▸ kept.methods
    rw [h.methodIds, List.forall₂_map_right_iff]
    exact forall₂_range'_getD methods _

theorem definedIn_addMachines (symbols : Symbols) (machines : List StateMachine) :
    ∀ emitted ∈ (symbols.addMachines machines).1,
      emitted.DefinedIn (symbols.addMachines machines).2 := by
  induction machines generalizing symbols with
  | nil => exact nofun
  | cons machine machines ih =>
    intro emitted among
    rcases List.mem_cons.mp among with rfl | among
    · exact (symbols.adds_addMachine machine).definedIn (keptIn_addMachines _ machines)
    · exact ih _ emitted among

/-- Machines are defined one by one from parts that are there. -/
theorem Made.addMachineFields (made : symbols.Made) {owner : TypeDefId}
    (inRange : owner.index < symbols.typeDefs.length) {fields : List MachineField}
    (scope : ∀ f ∈ fields, symbols.InScope f.ty) : (symbols.addMachineFields owner fields).2.Made := by
  induction fields generalizing symbols with
  | nil => exact made
  | cons f fields ih =>
    have grows := symbols.grows_addField owner f.name f.ty
    refine ih (made.addField inRange f.name (scope f List.mem_cons_self) false)
      (Nat.lt_of_lt_of_le inRange grows.typeDefs) fun g hg => ?_
    exact (scope g (List.mem_cons_of_mem f hg)).mono grows.typeDefs

theorem Made.addMachineMethods (made : symbols.Made) {owner : TypeDefId}
    (inRange : owner.index < symbols.typeDefs.length) {methods : List SynthesizedMethod}
    (scope : ∀ m ∈ methods, symbols.InScope m.ret) :
    (symbols.addMachineMethods owner methods).2.Made := by
  induction methods generalizing symbols with
  | nil => exact made
  | cons m methods ih =>
    have grows := symbols.grows_addMethod owner m.name [] m.ret
    have none : ∀ p ∈ ([] : List ParamDef), symbols.InScope p.ty := nofun
    refine ih (made.addMethod inRange m.name none (scope m List.mem_cons_self) 0 false)
      (Nat.lt_of_lt_of_le inRange grows.typeDefs) fun n hn => ?_
    exact (scope n (List.mem_cons_of_mem m hn)).mono grows.typeDefs

theorem Made.addMachine (made : symbols.Made) {machine : StateMachine}
    (scope : symbols.MachineInScope machine) : (symbols.addMachine machine).2.Made := by
  have inRange := (made.wellFormed.houses scope.method).owner
  let nested := (symbols.addNestedType (symbols.iteratorOwner machine) machine.name 0).2
  let owner : TypeDefId := ⟨symbols.typeDefs.length⟩
  have grows : symbols.Grows nested := symbols.grows_addNestedType _ machine.name 0
  have made₁ : nested.Made := made.addNestedType inRange machine.name 0
  have inside : owner.index < nested.typeDefs.length := by
    simp [owner, nested, Symbols.addNestedType, Symbols.addTypeDef]
  have scope₁ := scope.mono grows
  have made₂ := made₁.addMachineFields inside scope₁.fields
  have grows₂ := (made₁.wellFormed.addMachineFields inside scope₁.fields).2
  exact made₂.addMachineMethods (Nat.lt_of_lt_of_le inside grows₂.typeDefs)
    fun m hm => ((scope₁.mono grows₂).methods m hm).1

theorem Made.addMachines (made : symbols.Made) {machines : List StateMachine}
    (scope : ∀ machine ∈ machines, symbols.MachineInScope machine) :
    (symbols.addMachines machines).2.Made := by
  induction machines generalizing symbols with
  | nil => exact made
  | cons machine machines ih =>
    have first := scope machine List.mem_cons_self
    have grows := (made.wellFormed.addMachine first).2
    exact ih (made.addMachine first) fun other among =>
      (scope other (List.mem_cons_of_mem machine among)).mono grows

end Symbols

end ManagedCode
