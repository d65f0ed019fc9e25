import ManagedCode.Proofs.Symbols.Substitution

namespace ManagedCode

/-- Numbering types one after another. Fails on numbers that the table does not have. -/
abbrev Numbering := StateT TypeTable Option

namespace Numbering

/-- The kind of a numbered type. -/
def kindOf (id : TyId) : Numbering (TyKind TyId) := fun table => (table.kind? id).map (·, table)

/-- The number of the type that a call stands for. -/
def request (call : TyKind TyId) : Numbering TyId := fun table => table.request call

theorem bind_of_some {α β : Type} {x : Numbering α} {f : α → Numbering β} {table later : TypeTable}
    {a : α} (h : x table = some (a, later)) : (x >>= f) table = f a later := by
  change (x table).bind (fun result => f result.1 result.2) = _
  rw [h, Option.bind_some]

end Numbering

/-- A level with its parts taken through an action, from left to right. -/
def TyKind.traverse {m : Type → Type} [Monad m] {α β : Type} (f : α → m β) :
    TyKind α → m (TyKind β)
  | .primitive p => return .primitive p
  | .named d => return .named d
  | .inst d args => return .inst d (← args.mapM f)
  | .typeParam i => return .typeParam i
  | .methodParam i => return .methodParam i
  | .vector t => return .vector (← f t)
  | .array t rank => return .array (← f t) rank
  | .pointer t => return .pointer (← f t)
  | .byRef t => return .byRef (← f t)

/-- Numbered arguments for the generic parameters of types and of methods. -/
structure TypeIdMap where
  typeArgs : List TyId := []
  methodArgs : List TyId := []
  deriving DecidableEq, Inhabited

namespace TypeIdMap

def isEmpty (map : TypeIdMap) : Bool :=
  map.typeArgs.isEmpty && map.methodArgs.isEmpty

/-- Applies the substitution to a type of at most so many levels and numbers what it makes. -/
def substituteTo (map : TypeIdMap) : Nat → TyId → Numbering TyId
  | 0, _ => failure
  | depth + 1, id =>
    if map.isEmpty then
      return id
    else do
      match ← Numbering.kindOf id with
      | .typeParam i => return map.typeArgs[i]?.getD id
      | .methodParam i => return map.methodArgs[i]?.getD id
      | .primitive _ | .named _ => return id
      | kind => Numbering.request (← kind.traverse (map.substituteTo depth))

/-- Applies the substitution to a numbered type. No type has more levels than its number allows. -/
def substitute (map : TypeIdMap) (id : TyId) : Numbering TyId := map.substituteTo (id.index + 1) id

/-- The arguments of one map, each with those of another put in. -/
def andThen (inner outer : TypeIdMap) : Numbering TypeIdMap :=
  return {
    typeArgs := ← inner.typeArgs.mapM outer.substitute
    methodArgs := ← inner.methodArgs.mapM outer.substitute }

/-- The arguments that the numbers of a map stand for, read level by level. -/
def tree? (map : TypeIdMap) (table : TypeTable) : Option TypeMap :=
  return {
    typeArgs := ← map.typeArgs.mapM table.tree?
    methodArgs := ← map.methodArgs.mapM table.tree? }

end TypeIdMap

namespace TypeTable

variable {table later : TypeTable} {id : TyId} {t : Ty}

theorem Sound.tree?_eq_some_iff (sound : table.Sound) : table.tree? id = some t ↔ table.ty? id = some t := by
  refine ⟨fun h => ?_, sound.tree?_eq⟩
  obtain ⟨kind, hkind, -⟩ := Option.bind_eq_some_iff.mp h
  obtain ⟨u, hu, -⟩ := sound.kind?_eq_some_iff.mp hkind
  rw [sound.tree?_eq hu] at h
  exact h ▸ hu

/-- Numbering a type keeps all numbers. -/
theorem Sound.internTy (sound : table.Sound) (t : Ty) :
    (table.internTy t).2.Sound ∧ table.Extends (table.internTy t).2 ∧
      (table.internTy t).2.ty? (table.internTy t).1 = some t := by
  obtain ⟨calls, ids, run, numbered⟩ := called t table sound
  obtain ⟨soundLater, grows⟩ := sound.requests run
  exact ⟨soundLater, grows, soundLater.id?_eq_some_iff.mp numbered⟩

theorem Sound.addTys (sound : table.Sound) (ts : List Ty) :
    (table.addTys ts).Sound ∧ table.Extends (table.addTys ts) ∧
      ∀ t ∈ ts, ((table.addTys ts).id? t).isSome := by
  obtain ⟨calls, ids, run, numbered⟩ := calledAll ts table sound
  obtain ⟨soundLater, grows⟩ := sound.requests run
  exact ⟨soundLater, grows, numbered⟩

/-- It makes no difference whether the parts of a type were numbered before. -/
theorem Sound.internTy_addTys (sound : table.Sound) (t : Ty) :
    (table.addTys t.kind.parts).internTy t = table.internTy t := by
  cases known : table.id? t with
  | some id =>
    rw [addTys_of_known fun p hp => ?_]
    obtain ⟨part, -, hpart⟩ := sound.parts (sound.id?_eq_some_iff.mp known) p hp
    exact sound.isSome_id? hpart
  | none => rw [internTy_of_parts (sound.addTys _).2.2, internTy_of_new known]

end TypeTable

namespace TypeIdMap

variable {map : TypeIdMap} {args : TypeMap} {table later : TypeTable} {id : TyId} {t : Ty}

/-- The numbers of a map stand for these arguments. -/
structure Reads (map : TypeIdMap) (table : TypeTable) (args : TypeMap) : Prop where
  typeArgs : List.Forall₂ (fun id t => table.ty? id = some t) map.typeArgs args.typeArgs
  methodArgs : List.Forall₂ (fun id t => table.ty? id = some t) map.methodArgs args.methodArgs

theorem Reads.of_extends (reads : map.Reads table args) (grows : table.Extends later) :
    map.Reads later args where
  typeArgs := reads.typeArgs.imp fun _ _ => TypeTable.ty?_of_extends grows
  methodArgs := reads.methodArgs.imp fun _ _ => TypeTable.ty?_of_extends grows

theorem reads_iff (sound : table.Sound) : map.tree? table = some args ↔ map.Reads table args := by
  have read : ∀ {ids ts}, ids.mapM table.tree? = some ts ↔
      List.Forall₂ (fun id t => table.ty? id = some t) ids ts := by
    intro ids ts
    simp only [mapM_eq_some_iff_forall₂, sound.tree?_eq_some_iff]
  constructor
  · intro h
    obtain ⟨typeArgs, htypes, h⟩ := Option.bind_eq_some_iff.mp h
    obtain ⟨methodArgs, hmethods, h⟩ := Option.bind_eq_some_iff.mp h
    cases h
    exact ⟨read.mp htypes, read.mp hmethods⟩
  · rintro ⟨types, methods⟩
    refine Option.bind_eq_some_iff.mpr ⟨_, read.mpr types, ?_⟩
    exact Option.bind_eq_some_iff.mpr ⟨_, read.mpr methods, rfl⟩

theorem Reads.isEmpty_eq (reads : map.Reads table args) : map.isEmpty = args.isEmpty := by
  have same : ∀ {ids : List TyId} {ts : List Ty},
      List.Forall₂ (fun id t => table.ty? id = some t) ids ts → ids.isEmpty = ts.isEmpty := by
    intro ids ts h
    cases h <;> rfl
  rw [isEmpty, TypeMap.isEmpty, same reads.typeArgs, same reads.methodArgs]

/-- An argument is found at the place of its number, and a parameter without one stays. -/
theorem getD_reads {ids : List TyId} {ts : List Ty}
    (reads : List.Forall₂ (fun id t => table.ty? id = some t) ids ts) (ht : table.ty? id = some t)
    (i : Nat) : table.ty? (ids[i]?.getD id) = some (ts.getD i t) := by
  induction reads generalizing i with
  | nil => exact ht
  | cons first rest ih =>
    cases i with
    | zero => exact first
    | succ i => exact ih i

/-- A step numbers what becomes of a type, in whatever table that holds the type under this number. -/
def Numbers (step : Numbering TyId) (table : TypeTable) (id : TyId) (g : Ty → Ty) : Prop :=
  ∀ (later : TypeTable) (t : Ty), later.Sound → table.Extends later → later.ty? id = some t →
    step later = some (later.internTy (g t))

theorem mapM_numbers {f : TyId → Numbering TyId} {g : Ty → Ty} {ids : List TyId} {ts : List Ty}
    (sound : table.Sound) (held : List.Forall₂ (fun id t => table.ty? id = some t) ids ts)
    (numbers : ∀ id ∈ ids, Numbers (f id) table id g) :
    ∃ results, (ids.mapM f) table = some (results, table.addTys (ts.map g)) ∧
      List.Forall₂ (fun id t => (table.addTys (ts.map g)).ty? id = some t) results (ts.map g) := by
  induction ids generalizing table ts with
  | nil =>
    cases held
    exact ⟨[], rfl, .nil⟩
  | cons id ids ih =>
    obtain _ | @⟨_, t, _, ts, first, rest⟩ := held
    obtain ⟨soundMiddle, grows, here⟩ := sound.internTy (g t)
    obtain ⟨results, run, there⟩ := ih soundMiddle
      (rest.imp fun _ _ => TypeTable.ty?_of_extends grows)
      fun id hid later t soundLater growsLater =>
        numbers id (List.mem_cons_of_mem _ hid) later t soundLater (grows.trans growsLater)
    refine ⟨(table.internTy (g t)).1 :: results, ?_, .cons ?_ there⟩
    · have step := numbers id List.mem_cons_self table t sound (.refl _) first
      rw [List.mapM_cons, Numbering.bind_of_some step, Numbering.bind_of_some run]
      rfl
    · exact TypeTable.ty?_of_extends (soundMiddle.addTys _).2.1 here

/-- What numbers the result of `g` for each part of a level does so for all parts in turn. -/
theorem traverse_numbers {f : TyId → Numbering TyId} {g : Ty → Ty} {kind : TyKind TyId}
    {level : TyKind Ty} (sound : table.Sound) (held : kind.mapM table.ty? = some level)
    (numbers : ∀ id ∈ kind.parts, Numbers (f id) table id g) :
    ∃ result, (kind.traverse f) table = some (result, table.addTys (level.map g).parts) ∧
      result.mapM (table.addTys (level.map g).parts).ty? = some (level.map g) := by
  have here := fun u => (sound.internTy (g u)).2.2
  have sole : ∀ {id u}, table.ty? id = some u → ∀ wrap : TyId → TyKind TyId,
      id ∈ kind.parts → ((do return wrap (← f id)) : Numbering (TyKind TyId)) table =
        some (wrap (table.internTy (g u)).1, (table.internTy (g u)).2) := by
    intro id u hu wrap among
    have step := numbers id among table u sound (.refl _) hu
    rw [Numbering.bind_of_some step]
    rfl
  cases kind with
  | primitive | named | typeParam | methodParam =>
    cases held
    exact ⟨_, rfl, rfl⟩
  | inst d ids =>
    obtain ⟨ts, hts, rfl⟩ := Option.map_eq_some_iff.mp held
    obtain ⟨results, run, there⟩ := mapM_numbers sound (mapM_eq_some_iff_forall₂.mp hts) numbers
    refine ⟨.inst d results, ?_, congrArg (Option.map _) (mapM_eq_some_iff_forall₂.mpr there)⟩
    rw [TyKind.traverse, Numbering.bind_of_some run]
    rfl
  | vector id =>
    obtain ⟨u, hu, rfl⟩ := Option.map_eq_some_iff.mp held
    exact ⟨.vector _, sole hu .vector List.mem_cons_self, congrArg (Option.map TyKind.vector) (here u)⟩
  | array id rank =>
    obtain ⟨u, hu, rfl⟩ := Option.map_eq_some_iff.mp held
    exact ⟨.array _ rank, sole hu (.array · rank) List.mem_cons_self,
      congrArg (Option.map (TyKind.array · rank)) (here u)⟩
  | pointer id =>
    obtain ⟨u, hu, rfl⟩ := Option.map_eq_some_iff.mp held
    exact ⟨.pointer _, sole hu .pointer List.mem_cons_self, congrArg (Option.map TyKind.pointer) (here u)⟩
  | byRef id =>
    obtain ⟨u, hu, rfl⟩ := Option.map_eq_some_iff.mp held
    exact ⟨.byRef _, sole hu .byRef List.mem_cons_self, congrArg (Option.map TyKind.byRef) (here u)⟩

/-- Substitution in a numbered type numbers the type in which the substitution was made. -/
theorem substituteTo_eq {depth : Nat} (sound : table.Sound) (reads : map.Reads table args)
    (ht : table.ty? id = some t) (deep : id.index < depth) :
    map.substituteTo depth id table = some (table.internTy (args.substitute t)) := by
  induction depth generalizing table id t with
  | zero => omega
  | succ depth ih =>
    unfold substituteTo
    cases empty : map.isEmpty with
    | true =>
      rw [reads.isEmpty_eq] at empty
      rw [TypeMap.substitute_of_leaves (TypeMap.leaves_of_isEmpty empty t),
        TypeTable.internTy_of_id? (sound.id?_eq_some_iff.mpr ht)]
      rfl
    | false =>
      obtain ⟨kind, hkind, built⟩ := sound.exists_kind? ht
      obtain ⟨level, hlevel, rfl⟩ := Option.map_eq_some_iff.mp built
      have found : Numbering.kindOf id table = some (kind, table) := by
        rw [Numbering.kindOf, hkind, Option.map_some]
      have parts : ∀ part ∈ kind.parts, Numbers (map.substituteTo depth part) table part
          args.substitute := fun part hpart later u soundLater grows hu =>
        ih soundLater (reads.of_extends grows) hu (by have := sound.part_lt hkind part hpart; omega)
      -- A number that the table already has for the result.
      have known : ∀ {result : TyId} {u : Ty}, table.ty? result = some u →
          some (result, table) = some (table.internTy u) := fun h =>
        congrArg some (TypeTable.internTy_of_id? (sound.id?_eq_some_iff.mpr h)).symm
      -- A type that is built anew from what becomes of its parts.
      have rebuilt : args.argument? level.ty = none →
          ((do Numbering.request (← kind.traverse (map.substituteTo depth))) : Numbering TyId) table =
            some (table.internTy (args.substitute level.ty)) := by
        intro plain
        obtain ⟨result, run, there⟩ := traverse_numbers sound hlevel parts
        have same : (level.map args.substitute).ty = args.substitute level.ty := by
          rw [TypeMap.substitute_eq, plain, Option.getD_none, TyKind.kind_ty]
        have numbered := sound.internTy_addTys (level.map args.substitute).ty
        rw [TyKind.kind_ty, same] at numbered
        rw [Numbering.bind_of_some run]
        simp only [Numbering.request, TypeTable.request, TypeTable.build?, there, Option.map_some,
          same, numbered]
      simp only [Bool.false_eq_true, if_false]
      rw [Numbering.bind_of_some found]
      cases kind with
      | primitive | named =>
        cases hlevel
        exact known ht
      | typeParam i =>
        cases hlevel
        exact known (getD_reads reads.typeArgs ht i)
      | methodParam i =>
        cases hlevel
        exact known (getD_reads reads.methodArgs ht i)
      | inst | vector | array | pointer | byRef =>
        obtain ⟨_, -, rfl⟩ := Option.map_eq_some_iff.mp hlevel
        exact rebuilt rfl

theorem substitute_eq (sound : table.Sound) (reads : map.Reads table args)
    (ht : table.ty? id = some t) :
    map.substitute id table = some (table.internTy (args.substitute t)) :=
  substituteTo_eq sound reads ht (Nat.lt_succ_self _)

theorem numbers_substitute (reads : map.Reads table args) (id : TyId) :
    Numbers (map.substitute id) table id args.substitute := fun _ _ sound grows ht =>
  substitute_eq sound (reads.of_extends grows) ht

/-- Putting the arguments of one map into those of another numbers what they become. -/
theorem andThen_reads {outer : TypeIdMap} {outerArgs : TypeMap} (sound : table.Sound)
    (reads : map.Reads table args) (outerReads : outer.Reads table outerArgs) :
    ∃ composed later, map.andThen outer table = some (composed, later) ∧ later.Sound ∧
      table.Extends later ∧ composed.Reads later (args.andThen outerArgs) := by
  obtain ⟨typeArgs, run, types⟩ := mapM_numbers sound reads.typeArgs
    fun id _ => numbers_substitute outerReads id
  obtain ⟨soundMiddle, grows, -⟩ := sound.addTys (args.typeArgs.map outerArgs.substitute)
  obtain ⟨methodArgs, run', methods⟩ := mapM_numbers soundMiddle (reads.of_extends grows).methodArgs
    fun id _ => numbers_substitute (outerReads.of_extends grows) id
  obtain ⟨soundLater, grows', -⟩ := soundMiddle.addTys (args.methodArgs.map outerArgs.substitute)
  refine ⟨⟨typeArgs, methodArgs⟩, _, ?_, soundLater, grows.trans grows', ?_, methods⟩
  · rw [andThen, Numbering.bind_of_some run, Numbering.bind_of_some run']
    rfl
  · exact types.imp fun _ _ => TypeTable.ty?_of_extends grows'

end TypeIdMap

namespace Numbering

variable {first second : Numbering TyId} {table : TypeTable} {t : Ty}

/-- From a table on, a step gives the number of one type, whatever else has a number by then. -/
def Yields (step : Numbering TyId) (table : TypeTable) (t : Ty) : Prop :=
  ∀ later : TypeTable, later.Sound → table.Extends later → ∃ id last,
    step later = some (id, last) ∧ last.Sound ∧ later.Extends last ∧ last.ty? id = some t

/-- A step succeeds, and whatever calls come after it, another step then gives the same number. -/
def GivesAlso (first second : Numbering TyId) (table : TypeTable) : Prop :=
  ∃ id later, first table = some (id, later) ∧
    ∀ calls ids middle, later.requests calls = some (ids, middle) →
      ∃ last, second middle = some (id, last)

theorem Yields.givesAlso (h : first.Yields table t) (h' : second.Yields table t)
    (sound : table.Sound) : first.GivesAlso second table := by
  obtain ⟨id, later, run, soundLater, grows, here⟩ := h table sound (.refl _)
  refine ⟨id, later, run, fun calls ids middle between => ?_⟩
  obtain ⟨soundMiddle, growsMiddle⟩ := soundLater.requests between
  obtain ⟨id', last, run', soundLast, growsLast, here'⟩ :=
    h' middle soundMiddle (grows.trans growsMiddle)
  have kept := TypeTable.ty?_of_extends (growsMiddle.trans growsLast) here
  exact ⟨last, soundLast.ty?_inj here' kept ▸ run'⟩

end Numbering

namespace TypeIdMap

variable {map outer : TypeIdMap} {args outerArgs : TypeMap} {table : TypeTable} {id : TyId} {t : Ty}

theorem yields_substitute_substitute (reads : map.Reads table args)
    (outerReads : outer.Reads table outerArgs) (ht : table.ty? id = some t) :
    (map.substitute id >>= outer.substitute).Yields table
      (outerArgs.substitute (args.substitute t)) := by
  intro later sound grows
  have run := substitute_eq sound (reads.of_extends grows) (TypeTable.ty?_of_extends grows ht)
  obtain ⟨soundMiddle, growsMiddle, here⟩ := sound.internTy (args.substitute t)
  have run' := substitute_eq soundMiddle (outerReads.of_extends (grows.trans growsMiddle)) here
  obtain ⟨soundLast, growsLast, there⟩ :=
    soundMiddle.internTy (outerArgs.substitute (args.substitute t))
  exact ⟨_, _, (Numbering.bind_of_some run).trans run', soundLast, growsMiddle.trans growsLast, there⟩

theorem yields_andThen_substitute (reads : map.Reads table args)
    (outerReads : outer.Reads table outerArgs) (ht : table.ty? id = some t) :
    (map.andThen outer >>= fun composed => composed.substitute id).Yields table
      ((args.andThen outerArgs).substitute t) := by
  intro later sound grows
  obtain ⟨composed, middle, run, soundMiddle, growsMiddle, reads'⟩ :=
    andThen_reads sound (reads.of_extends grows) (outerReads.of_extends grows)
  have run' := substitute_eq soundMiddle reads'
    (TypeTable.ty?_of_extends (grows.trans growsMiddle) ht)
  obtain ⟨soundLast, growsLast, there⟩ :=
    soundMiddle.internTy ((args.andThen outerArgs).substitute t)
  exact ⟨_, _, (Numbering.bind_of_some run).trans run', soundLast, growsMiddle.trans growsLast, there⟩

end TypeIdMap

/-- Substitution in the types of a program replaces at once every parameter that has an argument,
and nothing else. It numbers the result in a table that keeps what each number stands for, and it
gives a type back under its own number if there is nothing to replace. Substituting twice gives the
number that substituting once gives with arguments in which the second substitution was made, if
every parameter has an argument in the first map. -/
theorem substitution_simultaneous_and_composes {symbols : Symbols} (made : symbols.Made)
    {id : TyId} {t : Ty} (ht : symbols.types.tree? id = some t) {map : TypeIdMap} {args : TypeMap}
    (hargs : map.tree? symbols.types = some args) :
    (∃ result later u, map.substitute id symbols.types = some (result, later) ∧
      symbols.types.internTy (args.substitute t) = (result, later) ∧
      later.tree? result = some u ∧ args.Replaces t u ∧
      (∀ earlier kind, symbols.types.kind? earlier = some kind → later.kind? earlier = some kind) ∧
      (∀ earlier tree, symbols.types.tree? earlier = some tree → later.tree? earlier = some tree) ∧
      (args.Leaves t → result = id ∧ later = symbols.types)) ∧
    ∀ {outer : TypeIdMap} {outerArgs : TypeMap}, outer.tree? symbols.types = some outerArgs →
      args.Covers t →
        let twice := map.substitute id >>= outer.substitute
        let once := map.andThen outer >>= fun composed => composed.substitute id
        twice.GivesAlso once symbols.types ∧ once.GivesAlso twice symbols.types := by
  have sound := made.types_reached.sound
  have held := sound.tree?_eq_some_iff.mp ht
  have reads := (TypeIdMap.reads_iff sound).mp hargs
  constructor
  · obtain ⟨soundLater, grows, here⟩ := sound.internTy (args.substitute t)
    refine ⟨_, _, _, TypeIdMap.substitute_eq sound reads held, rfl, soundLater.tree?_eq here,
      args.replaces_substitute t, fun _ _ => sound.kind?_of_extends soundLater grows,
      fun earlier tree h => ?_, fun leaves => ?_⟩
    · have h := sound.tree?_eq_some_iff.mp h
      exact soundLater.tree?_eq (TypeTable.ty?_of_extends grows h)
    · rw [TypeMap.substitute_of_leaves leaves,
        TypeTable.internTy_of_id? (sound.id?_eq_some_iff.mpr held)]
      exact ⟨rfl, rfl⟩
  · intro outer outerArgs houter covered
    have outerReads := (TypeIdMap.reads_iff sound).mp houter
    have yields := TypeIdMap.yields_substitute_substitute reads outerReads held
    have yields' := TypeIdMap.yields_andThen_substitute reads outerReads held
    rw [TypeMap.substitute_substitute covered] at yields
    exact ⟨yields.givesAlso yields' sound, yields'.givesAlso yields sound⟩

/-- A program with an instance of a generic type over parameters, and a vector of a parameter to be
put into it. -/
def instanceSymbols : Symbols :=
  let symbols := (Symbols.internTy {} (.inst ⟨0⟩ [.typeParam 0, .vector (.methodParam 1)])).2
  let symbols := (symbols.internTy (.vector (.methodParam 0))).2
  (symbols.internTy .int32).2

theorem substitution_simultaneous_and_composes_instance :
    let map : TypeIdMap := { typeArgs := [⟨5⟩], methodArgs := [⟨6⟩, ⟨0⟩] }
    let outer : TypeIdMap := { typeArgs := [⟨6⟩] }
    (∃ later, map.substitute ⟨3⟩ instanceSymbols.types = some (⟨8⟩, later) ∧
      later.tree? ⟨8⟩ = some (.inst ⟨0⟩ [.vector (.methodParam 0), .vector (.typeParam 0)])) ∧
    (map.substitute ⟨3⟩ >>= outer.substitute).GivesAlso
      (map.andThen outer >>= fun composed => composed.substitute ⟨3⟩) instanceSymbols.types := by
  intro map outer
  have made : instanceSymbols.Made := ((Symbols.Made.empty.internTy _).internTy _).internTy _
  have hargs : map.tree? instanceSymbols.types = some
      { typeArgs := [.vector (.methodParam 0)], methodArgs := [.int32, .typeParam 0] } := by
    decide +kernel
  have houter : outer.tree? instanceSymbols.types = some { typeArgs := [.int32] } := by
    decide +kernel
  have ht : instanceSymbols.types.tree? ⟨3⟩ =
      some (.inst ⟨0⟩ [.typeParam 0, .vector (.methodParam 1)]) := by decide +kernel
  obtain ⟨⟨result, later, u, run, numbered, read, replaced, -⟩, composes⟩ :=
    substitution_simultaneous_and_composes made ht hargs
  have number : result = ⟨8⟩ := (congrArg Prod.fst numbered).symm.trans (by decide +kernel)
  subst number
  rw [replaced.eq] at read
  refine ⟨⟨later, run, read⟩, (composes houter ?_).1⟩
  refine .of_parts nofun (List.forall_mem_cons.mpr ⟨.of_parts (fun _ => rfl) nofun, ?_⟩)
  refine List.forall_mem_singleton.mpr (.of_parts nofun (List.forall_mem_singleton.mpr ?_))
  exact .of_parts (fun _ => rfl) nofun

end ManagedCode
