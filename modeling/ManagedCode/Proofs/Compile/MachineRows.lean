import ManagedCode.Proofs.Compile.Compiled
import ManagedCode.Proofs.Metadata.NodeVisits
import ManagedCode.Proofs.Metadata.RowsByToken

namespace ManagedCode

/-! Where the fields and methods of machines lie in an image. -/

/-- The kinds of members that a type lists. -/
inductive MemberKind where
  | field
  | method

/-- The table that holds the members of a kind. -/
def MemberKind.table : MemberKind → TableKind
  | .field => .field
  | .method => .methodDef

def TypeDef.members (typeDef : TypeDef) : MemberKind → List OpenMember
  | .field => typeDef.fields.map .field
  | .method => typeDef.methods.map .method

def TypeDefRow.list (row : TypeDefRow) : MemberKind → UInt32
  | .field => row.fieldList
  | .method => row.methodList

def TablesImage.memberRows (image : TablesImage) : MemberKind → List MemberDefRow
  | .field => image.fields
  | .method => image.methods

def OpenMember.key (member : OpenMember) : RefKey := .member member.ref

/-- The members of a kind that a module defines, in the order of their rows. -/
def Target.members (target : Target) (kind : MemberKind) : List OpenMember :=
  target.typeDefs.flatMap fun d => (target.symbols.typeDef d).members kind

/-- The row that the token of a member names, with its name and its signature. -/
structure Target.MemberRow (target : Target) (session : Session) (heaps : Draft) (kind : MemberKind)
    (member : OpenMember) (name : String) (signature : Except Fault (List UInt8)) (r : Nat)
    (row : MemberDefRow) : Prop where
  token : target.definition? member.key = some (Token.ofRow kind.table r)
  name : heaps.Names name row.name
  signature : heaps.Signs signature row.signature

/-- The rows of the members that the `i`-th type of a module lists. They come behind some others, as
the list column of the type says, end where those of the next type begin, and the `k`-th of them is
as it should be with its number in the table. -/
structure TablesImage.Run (image : TablesImage) (kind : MemberKind) (i before count : Nat)
    (holds : Nat → Nat → MemberDefRow → Prop) : Prop where
  first : image.typeDefs[i]?.map (·.list kind) = some (.ofNat (before + 1))
  next : image.typeDefs[i + 1]?.elim ((image.memberRows kind).length = before + count)
    fun row => row.list kind = .ofNat (before + count + 1)
  row : ∀ k < count, ∃ row, (image.memberRows kind)[before + k]? = some row ∧
    holds k (before + k + 1) row

theorem TablesImage.Run.imp {image : TablesImage} {kind : MemberKind} {i before count : Nat}
    {holds holds' : Nat → Nat → MemberDefRow → Prop} (h : image.Run kind i before count holds)
    (implied : ∀ k r row, holds k r row → holds' k r row) : image.Run kind i before count holds' where
  first := h.first
  next := h.next
  row k inside := by
    obtain ⟨row, at_, held⟩ := h.row k inside
    exact ⟨row, at_, implied _ _ _ held⟩

variable {target : Target} {session : Session} {heaps : Draft} {image : TablesImage}

theorem Target.members_field (target : Target) :
    target.members .field = target.fields.map .field :=
  List.map_flatMap.symm

theorem Target.members_method (target : Target) :
    target.members .method = target.methods.map .method :=
  List.map_flatMap.symm

theorem Target.definitions_members (target : Target) (kind : MemberKind) :
    target.definitions kind.table = (target.members kind).map OpenMember.key := by
  cases kind with
  | field =>
    rw [target.members_field, List.map_map]
    rfl
  | method =>
    rw [target.members_method, List.map_map]
    rfl

namespace Layout.Laid

theorem members (laid : Laid target session heaps image) (kind : MemberKind) :
    List.Forall₂ (target.DescribesMemberDef session heaps) (target.members kind)
      (image.memberRows kind) := by
  cases kind with
  | field =>
    rw [target.members_field, List.forall₂_map_left_iff]
    exact laid.definitions.fields
  | method =>
    rw [target.members_method, List.forall₂_map_left_iff]
    exact laid.definitions.methods

/-- A list column gives the row behind those of the types before. -/
theorem list (laid : Laid target session heaps image) {i : Nat} {row : TypeDefRow}
    (here : image.typeDefs[i]? = some row) (kind : MemberKind) :
    row.list kind = .ofNat (((target.typeDefs.take i).flatMap fun d =>
      (target.symbols.typeDef d).members kind).length + 1) := by
  obtain ⟨fields, methods⟩ := laid.definitions.lists here
  rw [Nat.zero_add] at fields methods
  cases kind with
  | field => simpa [TypeDefRow.list, TypeDef.members, List.length_flatMap] using fields
  | method => simpa [TypeDefRow.list, TypeDef.members, List.length_flatMap] using methods

/-- The members of a type have consecutive rows, each with its token. -/
theorem run (laid : Laid target session heaps image) (made : target.symbols.Made) {i : Nat}
    {d : TypeDefId} (here : target.typeDefs[i]? = some d) (kind : MemberKind) :
    let members := (target.symbols.typeDef d).members kind
    ∃ before, image.Run kind i before members.length fun k r row =>
      ∃ member, members[k]? = some member ∧ target.MemberRow session heaps kind member
        (target.symbols.openName member) (target.encodeOpen session member) r row := by
  intro members
  let listed (d : TypeDefId) : List OpenMember := (target.symbols.typeDef d).members kind
  let before := ((target.typeDefs.take i).flatMap listed).length
  have after : ((target.typeDefs.take (i + 1)).flatMap listed).length = before + members.length := by
    rw [flatMap_take_succ here, List.length_append]
  refine ⟨before, ?_, ?_, fun k inside => ?_⟩
  · obtain ⟨row, at_, -⟩ := forall₂_getElem? laid.definitions.types here
    rw [at_]
    exact congrArg some (laid.list at_ kind)
  -- The next type begins behind these members, and if there is none, the table ends there.
  · cases next : image.typeDefs[i + 1]? with
    | some row =>
      have column := laid.list next kind
      rw [after] at column
      exact column
    | none =>
      have last := List.getElem?_eq_none_iff.mp next
      rw [← laid.definitions.types.length_eq] at last
      rw [List.take_of_length_le last] at after
      exact (laid.members kind).length_eq.symm.trans after
  · have among : members[k]? = some members[k] := List.getElem?_eq_getElem inside
    have at_ : (target.members kind)[before + k]? = some members[k] := getElem?_flatMap here among
    obtain ⟨row, found, name, signature⟩ := forall₂_getElem? (laid.members kind) at_
    refine ⟨row, found, members[k], among, ?_, name, signature⟩
    refine (Target.definition?_eq_some_iff made).mpr ⟨kind.table, before + k, ?_, rfl⟩
    rw [target.definitions_members, List.getElem?_map, at_]
    rfl

/-- What the members of a type were made from has their rows. -/
theorem run_paired (laid : Laid target session heaps image) (made : target.symbols.Made) {i : Nat}
    {d : TypeDefId} (here : target.typeDefs[i]? = some d) (kind : MemberKind) {α ι : Type}
    {sources : List α} {ids : List ι} {member : ι → OpenMember} {origin : α → ι → Prop}
    (listed : (target.symbols.typeDef d).members kind = ids.map member)
    (paired : List.Forall₂ origin sources ids) :
    ∃ before, image.Run kind i before sources.length fun k r row =>
      ∃ source id, sources[k]? = some source ∧ ids[k]? = some id ∧ origin source id ∧
        target.MemberRow session heaps kind (member id) (target.symbols.openName (member id))
          (target.encodeOpen session (member id)) r row := by
  obtain ⟨before, run⟩ := laid.run made here kind
  rw [listed, List.length_map, ← paired.length_eq] at run
  refine ⟨before, run.imp ?_⟩
  rintro k r row ⟨_, among, at_⟩
  obtain ⟨id, at_id, rfl⟩ := Option.map_eq_some_iff.mp (List.getElem?_map ▸ among)
  obtain ⟨source, at_source, pair⟩ := forall₂_getElem? paired.flip at_id
  exact ⟨source, id, at_source, at_id, pair, at_⟩

end Layout.Laid

/-- A machine in the image of a unit: its type, in the type that its iterator is a method of, has
the row `i`, counted from 0, and its fields and methods have the rows that the type lists. -/
structure EmittedMachine.LinesUp (emitted : EmittedMachine) (target : Target) (session : Session)
    (heaps : Draft) (image : TablesImage) (owner : TypeDefId) (i : Nat) : Prop where
  encloser : target.symbols.encloser? emitted.typeDef = some owner
  token : target.definition? (.type (.named emitted.typeDef)) = some (Token.ofRow .typeDef (i + 1))
  row : ∃ row, image.typeDefs[i]? = some row ∧
    target.DescribesTypeDef session heaps emitted.typeDef row
  fields : ∃ before, image.Run .field i before emitted.machine.fields.length fun k r row =>
    ∃ field id, emitted.machine.fields[k]? = some field ∧ emitted.fields[k]? = some id ∧
      target.MemberRow session heaps .field (.field id) field.name
        (Signature.encodeField target session field.ty) r row
  methods : ∃ before, image.Run .method i before emitted.machine.methods.length fun j r row =>
    ∃ method id, emitted.machine.methods[j]? = some method ∧ emitted.methods[j]? = some id ∧
      target.MemberRow session heaps .method (.method id) method.name
        (Signature.encodeMethod target session { params := [], ret := method.ret, hasThis := true })
        r row
  /-- No other type lists a field or a method of the machine. -/
  alone : ∀ d, (∃ id ∈ emitted.fields, id ∈ (target.symbols.typeDef d).fields) ∨
    (∃ id ∈ emitted.methods, id ∈ (target.symbols.typeDef d).methods) → d = emitted.typeDef

namespace EmittedMachine

variable {emitted : EmittedMachine}

theorem linesUp (laid : Layout.Laid target session heaps image) (made : target.symbols.Made)
    {owner : TypeDefId} (encloser : target.symbols.encloser? emitted.typeDef = some owner)
    (fields : (target.symbols.typeDef emitted.typeDef).fields = emitted.fields)
    (methods : (target.symbols.typeDef emitted.typeDef).methods = emitted.methods)
    (defined : emitted.DefinedIn target.symbols) {i : Nat}
    (here : target.typeDefs[i]? = some emitted.typeDef) :
    emitted.LinesUp target session heaps image owner i where
  encloser := encloser
  token := Option.map_eq_some_iff.mpr
    ⟨i, (idxOf?_eq_some_iff_of_nodup Target.nodup_typeDefs).mpr here, rfl⟩
  row := forall₂_getElem? laid.definitions.types here
  fields := by
    obtain ⟨before, run⟩ := laid.run_paired made here .field
      (congrArg (List.map OpenMember.field) fields) defined.fields
    refine ⟨before, run.imp ?_⟩
    rintro k r row ⟨field, id, slot, listed, same, at_⟩
    simp only [Symbols.openName, Target.encodeOpen, same] at at_
    exact ⟨field, id, slot, listed, at_⟩
  methods := by
    obtain ⟨before, run⟩ := laid.run_paired made here .method
      (congrArg (List.map OpenMember.method) methods) defined.methods
    refine ⟨before, run.imp ?_⟩
    rintro j r row ⟨method, id, slot, listed, same, at_⟩
    simp only [Symbols.openName, Target.encodeOpen, same] at at_
    exact ⟨method, id, slot, listed, at_⟩
  alone := by
    rintro d (⟨id, own, listed⟩ | ⟨id, own, listed⟩)
    · rw [← fields] at own
      exact (made.wellFormed.listedField listed).2.symm.trans (made.wellFormed.listedField own).2
    · rw [← methods] at own
      exact (made.wellFormed.listedMethod listed).2.symm.trans (made.wellFormed.listedMethod own).2

end EmittedMachine

/-- The slots of machines line up with the rows of the image. In whatever unit is compiled, with
iterators in the types of its own module, there is one machine for each iterator, in their order,
and the types of the machines come behind all other types of the module. A field slot is a row
counted from where the list of fields of the machine's type begins, and so is a method id. -/
theorem machine_slots_are_rows {settings : Settings} {processors : Nat} {cancelled : Bool}
    {files later : FileStore} {unit : CompilationUnit} {output : EmitOutput}
    (made : unit.symbols.Made) (scope : unit.InScope)
    (own : ∀ it ∈ unit.iterators,
      unit.symbols.isDefinedIn (unit.symbols.method it.method).owner unit.module)
    (h : compile settings processors cancelled files unit = .ok (output, later)) :
    (output.target unit).typeDefs =
        unit.symbols.typeDefsIn unit.module ++ output.machines.map (·.typeDef) ∧
      ∃ (session : Session) (heaps : Draft),
        Layout.image (output.target unit) session { arrayMethods := session.arrayMethods } =
          .ok output.image heaps ∧
        (∀ name n, heaps.strings.Gives name n →
          utf8Bytes name ++ [0] <+: output.image.strings.drop n) ∧
        (output.image.blobs.length ≤ 0x100000000 → ∀ blob column, heaps.Stores blob column →
          output.image.blob? column = some blob) ∧
        output.machines.length = unit.iterators.length ∧
        ∀ (p : Nat) (it : IteratorMethod) (emitted : EmittedMachine), unit.iterators[p]? = some it →
          output.machines[p]? = some emitted →
            lowerIterator unit.symbols settings.lowering it = .ok emitted.machine ∧
            emitted.LinesUp (output.target unit) session heaps output.image
              (unit.symbols.method it.method).owner
              ((unit.symbols.typeDefsIn unit.module).length + p) := by
  have compiled := compiledFrom_of_compile h
  have wf := made.wellFormed
  have types := compiled.typeDefs_target wf scope.methods own
  have made' : (output.target unit).symbols.Made := compiled.made made scope
  obtain ⟨session, _, visited, built⟩ := compiled.image
  have tidy := Session.tidy_of_visitAll visited
  obtain ⟨heaps, written, sound, laid, strings, blobs⟩ := Target.laid_of_image tidy built
  refine ⟨types, session, heaps, written,
    fun name n given => strings ▸ given.placed sound.strings,
    fun small blob column stored => TablesImage.blob?_of_stores sound blobs small stored,
    compiled.lowered.length_eq.symm, fun p it emitted given here => ?_⟩
  obtain ⟨emitted', here', lowered⟩ := forall₂_getElem? compiled.lowered given
  obtain rfl := Option.some.inj (here.symm.trans here')
  have among := List.mem_of_getElem? here
  have type : output.symbols.typeDef emitted.typeDef = unit.symbols.machineType emitted :=
    compiled.typeDef_machine wf scope.methods among
  refine ⟨lowered, EmittedMachine.linesUp laid made' ?_ ?_ ?_ (compiled.definedIn among) ?_⟩
  · rw [← method_of_lowerIterator lowered]
    exact congrArg (fun d : TypeDef => d.enclosing.head?) type
  · exact congrArg TypeDef.fields type
  · exact congrArg TypeDef.methods type
  · rw [types, List.getElem?_append_right (Nat.le_add_right _ p), Nat.add_sub_cancel_left,
      List.getElem?_map, here]
    rfl

theorem machine_slots_are_rows_of_two : ∃ output later session heaps emitted,
    compile {} 1 false {} (overloadUnit [⟨0⟩, ⟨2⟩]) = .ok (output, later) ∧
      output.machines[1]? = some emitted ∧
      emitted.LinesUp (output.target (overloadUnit [⟨0⟩, ⟨2⟩])) session heaps output.image ⟨0⟩ 2 := by
  let unit := overloadUnit [⟨0⟩, ⟨2⟩]
  obtain ⟨⟨output, later⟩, compiled⟩ := exists_eq_ok (x := compile {} 1 false {} unit)
    (by decide +kernel)
  obtain ⟨-, session, heaps, -, -, -, count, lines⟩ := machine_slots_are_rows made_overloadSymbols
    (inScope_overloadUnit (by decide)) (by decide) compiled
  have inside : 1 < output.machines.length := count ▸ (by decide : 1 < unit.iterators.length)
  have here := List.getElem?_eq_getElem inside
  exact ⟨output, later, session, heaps, _, compiled, here, (lines 1 _ _ rfl here).2⟩

end ManagedCode
