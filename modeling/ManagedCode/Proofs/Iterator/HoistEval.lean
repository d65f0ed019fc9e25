import Mathlib.Data.List.Nodup
import ManagedCode.Proofs.Iterator.HoistBody
import ManagedCode.Proofs.Iterator.Slots
import ManagedCode.Proofs.Run.Mirror

namespace ManagedCode

/-! Hoisting commutes with evaluation. -/

variable {σ : Type} {n : Nat} {locals : LocalId → Prop} {params : ParamId → Prop}

/-- A relation between the worlds of a body and of its machine, kept whatever the host does, in
which the fields of the machine hold what is read from an activation. -/
structure HoistedReads (n : Nat) (locals : LocalId → Prop) (params : ParamId → Prop)
    (activation : Activation) (rel : World σ → World σ → Prop) : Prop where
  host : ∀ {u w}, rel u w → u.host = w.host
  onHost : ∀ {u w}, rel u w → ∀ host, rel { u with host } { w with host }
  locals : ∀ {u w id}, rel u w → locals id → w.field (id.slot n) = activation.readLocal id
  params : ∀ {u w id}, rel u w → params id → w.field id.slot = activation.readParam id

namespace HoistedReads

variable {activation activation' : Activation} {rel : World σ → World σ → Prop}

theorem readField {u w : World σ} {slot : FieldSlot} {r : Except RunError Value}
    (related : rel u w) (same : w.field slot = r) :
    Mirrors rel (ofExcept r) u (World.readField slot) w := by
  obtain ⟨r', u', w', related', fuel, left, right⟩ := Mirrors.outcome r related
  refine ⟨r', u', w', related', fuel, left, fun f => ?_⟩
  rw [← right f, World.readField_eq]
  have value : (w.withFuel f).field slot = r := same
  rw [value]
  cases r <;> rfl

variable {host : Host σ}
  {invoke invoke' : SynthMethodId → List Value → EStateM RunError (World σ) Value}

theorem mirrors_onHost {α : Type} (reads : HoistedReads n locals params activation rel)
    {u w : World σ} (h : rel u w) (action : EStateM RunError σ α) :
    Mirrors rel (World.onHost action) u (World.onHost action) w :=
  .onHost action (reads.host h) (reads.onHost h)

mutual

/-- An expression has the same value over the fields. -/
theorem eval (reads : HoistedReads n locals params activation rel) (e : Expr)
    (own : e.Uses (.iterator locals params)) {u w : World σ} (h : rel u w) :
    Mirrors rel (e.eval host invoke activation) u
      ((e.hoist n).eval host invoke' activation') w := by
  cases e with
  | const value => exact .pure _ h
  | «local» id => exact readField h (reads.locals h own)
  | param id => exact readField h (reads.params h own)
  | machineField slot => exact own.elim
  | field receiver member =>
    cases receiver with
    | none => exact reads.mirrors_onHost h _
    | some receiver =>
      exact (eval reads receiver own h).bind fun _ _ _ h => reads.mirrors_onHost h _
  | call callee receiver args =>
    cases callee with
    | method member =>
      cases receiver with
      | none => exact (evalAll reads args own h).bind fun _ _ _ h => reads.mirrors_onHost h _
      | some receiver =>
        exact (eval reads receiver own.1 h).bind fun _ _ _ h =>
          (evalAll reads args own.2 h).bind fun _ _ _ h => reads.mirrors_onHost h _
    | synthesized method => cases receiver <;> exact own.1.elim
  | binary op lhs rhs =>
    exact (eval reads lhs own.1 h).bind fun _ _ _ h => (eval reads rhs own.2 h).bind fun _ _ _ h =>
      .outcome _ h
  | unary op operand => exact (eval reads operand own h).bind fun _ _ _ h => .outcome _ h
  | element | addressOf | newArray | typeToken => exact .fails _ h

theorem evalAll (reads : HoistedReads n locals params activation rel) (es : List Expr)
    (own : Expr.UsesAll (.iterator locals params) es) {u w : World σ} (h : rel u w) :
    Mirrors rel (Expr.evalAll host invoke activation es) u
      (Expr.evalAll host invoke' activation' (Expr.hoistAll n es)) w := by
  cases es with
  | nil => exact .pure _ h
  | cons e es =>
    exact (eval reads e own.1 h).bind fun _ _ _ h =>
      (evalAll reads es own.2 h).bind fun _ _ _ h => .pure _ h

end

end HoistedReads

/-! Fields that hold an activation. -/

/-- What locals and parameters are in an activation is in the fields that they are hoisted to. -/
structure FieldsHold (n : Nat) (locals : LocalId → Prop) (params : ParamId → Prop)
    (activation : Activation) (fields : List Value) : Prop where
  locals : ∀ id, locals id → ∃ value,
    activation.readLocal id = .ok value ∧ fields[(id.slot n).index]? = some value
  params : ∀ id, params id → ∃ value,
    activation.readParam id = .ok value ∧ fields[id.slot.index]? = some value

/-- Two lists of fields that differ in one slot at most, where the second holds a value. -/
structure WrittenAt (slot? : Option FieldSlot) (value : Value) (fields fields' : List Value) :
    Prop where
  here : ∀ slot, slot? = some slot → fields'[slot.index]? = some value
  elsewhere : ∀ k, (∀ slot, slot? = some slot → slot.index ≠ k) → fields'[k]? = fields[k]?

theorem WrittenAt.none {value : Value} {fields : List Value} :
    WrittenAt Option.none value fields fields :=
  ⟨nofun, fun _ _ => rfl⟩

theorem WrittenAt.set {slot : FieldSlot} {value : Value} {fields : List Value}
    (room : slot.index < fields.length) :
    WrittenAt (some slot) value fields (fields.set slot.index value) where
  here := by
    rintro _ ⟨⟩
    exact List.getElem?_set_self room
  elsewhere k other := List.getElem?_set_ne (other slot rfl)

/-- The slot that a place of the method itself is hoisted to. -/
def Place.slot? (n : Nat) : Place → Option FieldSlot
  | .local id => some (id.slot n)
  | .param id => some id.slot
  | _ => none

/-- A slot that is hoisted to is none of the machine's own. -/
theorem Place.two_le_of_slot? {place : Place} {slot : FieldSlot} (h : place.slot? n = some slot) :
    2 ≤ slot.index := by
  cases place with
  | «local» id =>
    cases h
    exact Nat.le_trans (Nat.le_add_right 2 n) (Nat.le_add_right _ _)
  | param id =>
    cases h
    exact Nat.le_add_right 2 _
  | _ => cases h

/-- An activation after a value was written to a place. -/
def Activation.stored (value : Value) (activation : Activation) : Place → Activation
  | .local id => activation.writeLocal id value
  | .param id => { activation with args := activation.args.set id.index value }
  | _ => activation

theorem Activation.length_of_readParam {activation : Activation} {id : ParamId} {value : Value}
    (h : activation.readParam id = .ok value) : id.index < activation.args.length := by
  unfold Activation.readParam at h
  split at h
  next found => exact (List.getElem?_eq_some_iff.mp found).1
  next => cases h

namespace FieldsHold

variable {activation : Activation} {fields : List Value}

theorem room_local (h : FieldsHold n locals params activation fields) {id : LocalId}
    (own : locals id) : (id.slot n).index < fields.length := by
  obtain ⟨value, -, held⟩ := h.locals id own
  exact (List.getElem?_eq_some_iff.mp held).1

theorem room_param (h : FieldsHold n locals params activation fields) {id : ParamId}
    (own : params id) : id.slot.index < fields.length := by
  obtain ⟨value, -, held⟩ := h.params id own
  exact (List.getElem?_eq_some_iff.mp held).1

/-- Slots that fields are held in are 32-bit numbers if there are no more fields. -/
theorem within_slotted (h : FieldsHold n locals params activation fields)
    (few : fields.length ≤ idLimit) :
    (Vocabulary.iterator locals params).Within (.slotted n True) where
  locals own := Nat.lt_of_lt_of_le (h.room_local own) few
  params own := Nat.lt_of_lt_of_le (h.room_param own) few
  slots := False.elim
  methods := False.elim
  suspends := id
  returns := False.elim

theorem hoistedReads (h : FieldsHold n locals params activation fields) {u w : World σ}
    (held : w.fields = fields) :
    HoistedReads n locals params activation fun u' w' : World σ =>
      ∃ host, u' = { u with host } ∧ w' = { w with host } where
  host := by
    rintro _ _ ⟨host, rfl, rfl⟩
    rfl
  onHost := by
    rintro _ _ ⟨_, rfl, rfl⟩ host
    exact ⟨host, rfl, rfl⟩
  locals := by
    rintro _ _ id ⟨_, rfl, rfl⟩ own
    obtain ⟨value, read, held'⟩ := h.locals id own
    rw [read, World.field, held, held']
    rfl
  params := by
    rintro _ _ id ⟨_, rfl, rfl⟩ own
    obtain ⟨value, read, held'⟩ := h.params id own
    rw [read, World.field, held, held']
    rfl

/-- A local and the field it is hoisted to are written. -/
theorem writeLocal (h : FieldsHold n locals params activation fields)
    (fewer : ∀ id, params id → id.index < n) {id : LocalId} (own : locals id) (value : Value) :
    FieldsHold n locals params (activation.writeLocal id value)
      (fields.set (id.slot n).index value) where
  locals other own' := by
    by_cases same : other = id
    · subst same
      refine ⟨value, ?_, List.getElem?_set_self (h.room_local own)⟩
      rw [Activation.readLocal, Activation.lookup_writeLocal_self]
    · obtain ⟨value', read, held⟩ := h.locals other own'
      refine ⟨value', ?_, ?_⟩
      · rw [← read, Activation.readLocal, Activation.lookup_writeLocal_of_ne _ _ same]
        rfl
      · rw [← held]
        refine List.getElem?_set_ne fun collide => same ?_
        have equal : id.index = other.index := Nat.add_left_cancel collide
        exact congrArg LocalId.mk equal.symm
  params other own' := by
    obtain ⟨value', read, held⟩ := h.params other own'
    refine ⟨value', read, ?_⟩
    rw [← held]
    refine List.getElem?_set_ne ?_
    have below := fewer other own'
    unfold LocalId.slot ParamId.slot
    dsimp only
    omega

/-- A parameter and the field it is hoisted to are written. -/
theorem writeParam (h : FieldsHold n locals params activation fields) {id : ParamId}
    (below : id.index < n) (own : params id) (value : Value) :
    FieldsHold n locals params { activation with args := activation.args.set id.index value }
      (fields.set id.slot.index value) where
  locals other own' := by
    obtain ⟨value', read, held⟩ := h.locals other own'
    refine ⟨value', read, ?_⟩
    rw [← held]
    refine List.getElem?_set_ne ?_
    unfold LocalId.slot ParamId.slot
    dsimp only
    omega
  params other own' := by
    obtain ⟨value', read, held⟩ := h.params other own'
    by_cases same : other = id
    · subst same
      have room := Activation.length_of_readParam read
      refine ⟨value, ?_, List.getElem?_set_self (h.room_param own)⟩
      rw [Activation.readParam, List.getElem?_set_self room]
    · have apart : id.index ≠ other.index := fun equal => same (congrArg ParamId.mk equal.symm)
      refine ⟨value', ?_, ?_⟩
      · rw [← read, Activation.readParam, List.getElem?_set_ne apart]
        rfl
      · rw [← held]
        exact List.getElem?_set_ne fun collide => apart (Nat.add_left_cancel collide)

end FieldsHold

/-! Expressions and places. -/

section

variable {env env' : Environment σ} {a b : Config σ}

/-- An expression has over fields the result that it has over the activation that they hold. -/
theorem eval_hoist (run run' : List Stmt → Exec σ Flow) (sameHost : env.host = env'.host)
    (start : a.world.host = b.world.host)
    (holds : FieldsHold n locals params a.activation b.world.fields) {e : Expr}
    (own : e.Uses (.iterator locals params)) :
    ∃ result host,
      env.eval run e a = reached result { a with world := { a.world with host } } ∧
      env'.eval run' (e.hoist n) b = reached result { b with world := { b.world with host } } := by
  have reads := holds.hoistedReads (u := a.world) (w := b.world) rfl
  have mirrored : Mirrors _ (e.eval env'.host (env.invoke run) a.activation) a.world
      ((e.hoist n).eval env'.host (env'.invoke run') b.activation) b.world :=
    reads.eval e own ⟨b.world.host, by rw [← start], rfl⟩
  obtain ⟨result, _, _, ⟨host, rfl, rfl⟩, -, left, right⟩ := mirrored
  refine ⟨result, host, ?_, Exec.onWorld_eq (right b.world.fuel)⟩
  refine Exec.onWorld_eq ?_
  rw [sameHost]
  exact left

/-- A value written to a field of the machine. -/
theorem write_machineField {run : List Stmt → Exec σ Flow} {slot : FieldSlot} {value : Value}
    (room : slot.index < b.world.fields.length) :
    env.write run value (.machineField slot) b = reached (.ok ()) { b with
      world := { b.world with fields := b.world.fields.set slot.index value } } := by
  change Exec.onWorld (fun _ => World.writeField slot value) b = _
  exact Exec.onWorld_eq (World.writeField_eq value room)

/-- The host cannot see on which side it acts. -/
theorem onHost_alike {α : Type} (action : EStateM RunError σ α) (host : σ) (a b : Config σ) :
    ∃ result host',
      Exec.onWorld (fun _ => World.onHost action) { a with world := { a.world with host } } =
        reached result { a with world := { a.world with host := host' } } ∧
      Exec.onWorld (fun _ => World.onHost action) { b with world := { b.world with host } } =
        reached result { b with world := { b.world with host := host' } } := by
  obtain ⟨result, host', acted⟩ := exists_reached (action host)
  exact ⟨result, host', Exec.onWorld_eq (World.onHost_eq acted),
    Exec.onWorld_eq (World.onHost_eq acted)⟩

/-- A value written to a place goes to the one field that the place is hoisted to, or to the
host. -/
theorem write_hoist (run run' : List Stmt → Exec σ Flow) (sameHost : env.host = env'.host)
    (start : a.world.host = b.world.host)
    (holds : FieldsHold n locals params a.activation b.world.fields) {place : Place}
    (own : place.Uses (.iterator locals params)) (value : Value) :
    ∃ result host fields,
      env.write run value place a =
        reached result ⟨a.activation.stored value place, { a.world with host }⟩ ∧
      env'.write run' value (place.hoist n) b =
        reached result { b with world := { b.world with host, fields } } ∧
      WrittenAt (place.slot? n) value b.world.fields fields ∧
      ((∀ id, params id → id.index < n) →
        FieldsHold n locals params (a.activation.stored value place) fields) := by
  have stored {slot : FieldSlot} (room : slot.index < b.world.fields.length) :
      env'.write run' value (.machineField slot) b = reached (.ok ()) { b with
        world := { b.world with
          host := a.world.host, fields := b.world.fields.set slot.index value } } := by
    rw [start]
    exact write_machineField room
  cases place with
  | «local» id =>
    refine ⟨.ok (), a.world.host, _, rfl, stored (holds.room_local own), .set (holds.room_local own),
      fun fewer => holds.writeLocal fewer own value⟩
  | param id =>
    obtain ⟨_, read, -⟩ := holds.params id own
    have room := Activation.length_of_readParam read
    refine ⟨.ok (), a.world.host, _, ?_, stored (holds.room_param own), .set (holds.room_param own),
      fun fewer => holds.writeParam (fewer id own) own value⟩
    change Exec.setParam id value a = _
    unfold Exec.setParam
    rw [get_bind, Activation.writeParam, if_pos room]
    rfl
  | machineField slot => exact own.elim
  | field receiver member =>
    cases receiver with
    | none =>
      obtain ⟨result, host, left, right⟩ :=
        onHost_alike (env'.host.store member none value) a.world.host a b
      refine ⟨result, host, _, ?_, ?_, .none, fun _ => holds⟩
      · rw [← sameHost] at left
        exact left
      · rw [start] at right
        exact right
    | some receiver =>
      obtain ⟨result, host, left, right⟩ :=
        eval_hoist run run' sameHost start holds (e := receiver) own
      -- A receiver that fails does so on both sides, and then nothing is written.
      cases result with
      | error fault =>
        exact ⟨.error fault, host, _, bind_of_error left, bind_of_error right, .none,
          fun _ => holds⟩
      | ok target =>
        obtain ⟨result, host', left', right'⟩ :=
          onHost_alike (env'.host.store member (some target) value) host a b
        refine ⟨result, host', _, (bind_of_ok left).trans ?_, (bind_of_ok right).trans right', .none,
          fun _ => holds⟩
        rw [← sameHost] at left'
        exact left'
  | element =>
    refine ⟨.error (.unsupported .elementWrite), a.world.host, _, rfl, ?_, .none, fun _ => holds⟩
    rw [start]
    rfl

end

/-! The layout of a machine. -/

theorem map_kind_machineFields (iterator : IteratorMethod) :
    (machineFields iterator).map (·.kind) =
      .state :: .current ::
        ((List.range iterator.body.params.length).map (fun i => .param ⟨i⟩) ++
          (List.range iterator.body.locals.length).map fun i => .local ⟨i⟩) := by
  simp only [machineFields, List.cons_append, List.map_cons, List.map_append]
  refine congrArg₂ (fun params locals => FieldKind.state :: .current :: (params ++ locals)) ?_ ?_
  · exact List.ext_getElem (by simp) fun i _ _ => by simp
  · exact List.ext_getElem (by simp) fun i _ _ => by simp

/-- No two fields of a machine are of one kind. -/
theorem nodup_kind_machineFields (iterator : IteratorMethod) :
    ((machineFields iterator).map (·.kind)).Nodup := by
  have params : ((List.range iterator.body.params.length).map
      fun i => FieldKind.param ⟨i⟩).Nodup :=
    List.Nodup.map (fun i j h => by cases h; rfl) List.nodup_range
  have locals : ((List.range iterator.body.locals.length).map
      fun i => FieldKind.local ⟨i⟩).Nodup :=
    List.Nodup.map (fun i j h => by cases h; rfl) List.nodup_range
  rw [map_kind_machineFields, List.nodup_cons, List.nodup_cons]
  refine ⟨by simp, by simp, List.nodup_append.mpr ⟨params, locals, ?_⟩⟩
  rintro _ left _ right rfl
  obtain ⟨i, -, rfl⟩ := List.mem_map.mp left
  obtain ⟨j, -, ⟨⟩⟩ := List.mem_map.mp right

namespace StateMachine

variable {machine : StateMachine} {iterator : IteratorMethod}

/-- A field is found by its kind. -/
theorem slot?_kind (fields : machine.fields = machineFields iterator) {k : Nat}
    {field : MachineField} (h : machine.fields[k]? = some field) :
    machine.slot? field.kind = some ⟨k⟩ := by
  obtain ⟨room, rfl⟩ := List.getElem?_eq_some_iff.mp h
  have distinct : (machine.fields.map (·.kind)).Nodup := by
    rw [fields]
    exact nodup_kind_machineFields iterator
  have found : machine.fields.findIdx? (·.kind = machine.fields[k].kind) = some k := by
    refine List.findIdx?_eq_some_iff_getElem.mpr ⟨room, by simp, fun j below => ?_⟩
    have differ := List.pairwise_iff_getElem.mp (List.pairwise_map.mp distinct) j k (by omega) room
      below
    simpa using differ
  unfold slot?
  rw [found]
  rfl

/-- The field of a parameter. -/
theorem getElem?_param (fields : machine.fields = machineFields iterator) {i : Nat}
    {param : LocalDecl} (h : iterator.body.params[i]? = some param) :
    ∃ field, machine.fields[(ParamId.slot ⟨i⟩).index]? = some field ∧ field.kind = .param ⟨i⟩ ∧
      field.ty = param.ty := by
  have room := (List.getElem?_eq_some_iff.mp h).1
  have place : (ParamId.slot ⟨i⟩).index = i + 1 + 1 := Nat.add_comm 2 i
  rw [fields, place, machineFields, List.cons_append, List.cons_append, List.getElem?_cons_succ,
    List.getElem?_cons_succ, List.getElem?_append_left (by simpa using room), List.getElem?_mapIdx, h]
  exact ⟨_, rfl, rfl, rfl⟩

/-- The field of a local, after those of all parameters. -/
theorem getElem?_local (fields : machine.fields = machineFields iterator) {j : Nat}
    {decl : LocalDecl} (h : iterator.body.locals[j]? = some decl) :
    ∃ field, machine.fields[(LocalId.slot iterator.body.params.length ⟨j⟩).index]? = some field ∧
      field.kind = .local ⟨j⟩ ∧ field.ty = decl.ty := by
  have place : (LocalId.slot iterator.body.params.length ⟨j⟩).index =
      iterator.body.params.length + j + 1 + 1 := by
    unfold LocalId.slot
    dsimp only
    omega
  rw [fields, place, machineFields, List.cons_append, List.cons_append, List.getElem?_cons_succ,
    List.getElem?_cons_succ, List.getElem?_append_right (by simp), List.length_mapIdx,
    Nat.add_sub_cancel_left, List.getElem?_mapIdx, h]
  exact ⟨_, rfl, rfl, rfl⟩

end StateMachine

section

open Lowering

variable {env env' : Environment σ} {run run' : List Stmt → Exec σ Flow} {a b : Config σ}

/-- Hoisting commutes with evaluation. Over fields that hold an activation, a hoisted expression has
the result of the expression and does the same to the host, which may well write down all that it is
asked, and through a hoisted place the field of what the place writes is written, and no other. The
slots are those of the machine that the body is lowered to. -/
theorem hoisting_commutes_with_evaluation {source : Source} (sameHost : env.host = env'.host)
    (start : a.world.host = b.world.host)
    (holds : FieldsHold source.paramCount locals params a.activation b.world.fields) :
    (∀ e : Expr, e.Uses (.iterator locals params) →
      (b.world.fields.length ≤ idLimit → ∀ progress,
        hoistExpr source e progress = .ok (e.hoist source.paramCount, progress)) ∧
      ∃ result host,
        env.eval run e a = reached result { a with world := { a.world with host } } ∧
        env'.eval run' (e.hoist source.paramCount) b =
          reached result { b with world := { b.world with host } }) ∧
    (∀ (place : Place) (value : Value), place.Uses (.iterator locals params) →
      (b.world.fields.length ≤ idLimit → ∀ progress,
        hoistPlace source place progress = .ok (place.hoist source.paramCount, progress)) ∧
      ∃ result host fields,
        env.write run value place a =
          reached result ⟨a.activation.stored value place, { a.world with host }⟩ ∧
        env'.write run' value (place.hoist source.paramCount) b =
          reached result { b with world := { b.world with host, fields } } ∧
        WrittenAt (place.slot? source.paramCount) value b.world.fields fields ∧
        (∀ slot ∈ [stateField, currentField],
          fields[slot.index]? = b.world.fields[slot.index]?) ∧
        ((∀ id, params id → id.index < source.paramCount) →
          FieldsHold source.paramCount locals params (a.activation.stored value place) fields)) ∧
    ∀ symbols options iterator machine facts, source = .of iterator.body facts →
      lowerIterator symbols options iterator = .ok machine →
      (∀ i param, iterator.body.params[i]? = some param →
        machine.paramSlot? ⟨i⟩ = some (ParamId.slot ⟨i⟩) ∧
        ∃ field, machine.fields[(ParamId.slot ⟨i⟩).index]? = some field ∧
          field.kind = .param ⟨i⟩ ∧ field.ty = param.ty) ∧
      ∀ j decl, iterator.body.locals[j]? = some decl →
        machine.localSlot? ⟨j⟩ = some (LocalId.slot source.paramCount ⟨j⟩) ∧
        ∃ field, machine.fields[(LocalId.slot source.paramCount ⟨j⟩).index]? = some field ∧
          field.kind = .local ⟨j⟩ ∧ field.ty = decl.ty := by
  refine ⟨fun e own => ⟨fun few _ => ?_, eval_hoist run run' sameHost start holds own⟩,
    fun place value own => ⟨fun few _ => ?_, ?_⟩, ?_⟩
  · rw [hoistExpr_eq (Expr.Uses.mono (holds.within_slotted few) e own)]
    rfl
  · rw [hoistPlace_eq (Place.Uses.mono (holds.within_slotted few) place own)]
    rfl
  · obtain ⟨result, host, fields, left, right, written, kept⟩ :=
      write_hoist run run' sameHost start holds own value
    refine ⟨result, host, fields, left, right, written, fun slot machineOwn => ?_, kept⟩
    refine written.elsewhere slot.index fun other hoisted => ?_
    have past := Place.two_le_of_slot? hoisted
    have own : slot.index < 2 := by
      simp only [List.mem_cons, List.not_mem_nil, or_false] at machineOwn
      rcases machineOwn with rfl | rfl <;> decide
    omega
  · rintro symbols options iterator machine facts rfl lowered
    have fields := fields_of_lowerIterator lowered
    refine ⟨fun i param h => ?_, fun j decl h => ?_⟩
    · obtain ⟨field, held, kind, ty⟩ := StateMachine.getElem?_param fields h
      have found := StateMachine.slot?_kind fields held
      rw [kind] at found
      exact ⟨found, field, held, kind, ty⟩
    · obtain ⟨field, held, kind, ty⟩ := StateMachine.getElem?_local fields h
      have found := StateMachine.slot?_kind fields held
      rw [kind] at found
      exact ⟨found, field, held, kind, ty⟩

/-- An iterator of one parameter and one local that does nothing. -/
def idleIterator : IteratorMethod where
  method := default
  elementTy := .int32
  body :=
    { params := [{ name := some "n", ty := .int32 }]
      locals := [{ name := some "x", ty := .int32 }]
      root := [] }

theorem hoisting_commutes_with_evaluation_sample :
    let env : Environment Script := { host := Script.host }
    let run : List Stmt → Exec Script Flow := fun _ => pure .normal
    let a : Config Script := ⟨⟨[.int 4], [(⟨0⟩, .int 5)]⟩, { fields := [], fuel := 0, host := {} }⟩
    let b : Config Script := ⟨⟨[], []⟩,
      { fields := [.int 0, .unit, .int 4, .int 5], fuel := 0, host := {} }⟩
    let sum : Expr := .binary .add (.param ⟨0⟩) (.local ⟨0⟩)
    let call : Expr := .call (.method default) none [sum]
    FieldsHold 1 (·.index < 1) (·.index < 1) a.activation b.world.fields ∧
      (∃ result host,
        env.eval run call a = reached result { a with world := { a.world with host } } ∧
        env.eval run (call.hoist 1) b =
          reached result { b with world := { b.world with host } }) ∧
      (∃ result host fields,
        env.write run (.int 9) (.local ⟨0⟩) a =
          reached result ⟨a.activation.writeLocal ⟨0⟩ (.int 9), { a.world with host }⟩ ∧
        env.write run (.int 9) (.machineField ⟨3⟩) b =
          reached result { b with world := { b.world with host, fields } } ∧
        WrittenAt (some ⟨3⟩) (.int 9) b.world.fields fields) ∧
      ∃ machine, lowerIterator .oneMethod {} idleIterator = .ok machine ∧
        machine.paramSlot? ⟨0⟩ = some ⟨2⟩ ∧ machine.localSlot? ⟨0⟩ = some ⟨3⟩ := by
  intro env run a b sum call
  have holds : FieldsHold 1 (·.index < 1) (·.index < 1) a.activation b.world.fields := by
    refine ⟨?_, ?_⟩
    · rintro ⟨i⟩ (own : i < 1)
      obtain rfl : i = 0 := by omega
      exact ⟨.int 5, rfl, rfl⟩
    · rintro ⟨i⟩ (own : i < 1)
      obtain rfl : i = 0 := by omega
      exact ⟨.int 4, rfl, rfl⟩
  obtain ⟨evaluates, writes, layout⟩ :=
    @hoisting_commutes_with_evaluation _ _ _ env env run run a b (.of idleIterator.body default) rfl
      rfl holds
  obtain ⟨machine, lowered⟩ : ∃ machine, lowerIterator .oneMethod {} idleIterator = .ok machine :=
    exists_eq_ok (by decide +kernel)
  obtain ⟨params, locals⟩ := layout .oneMethod {} idleIterator machine default rfl lowered
  obtain ⟨-, result, host, fields, left, right, written, -⟩ :=
    writes (.local ⟨0⟩) (.int 9) (show 0 < 1 by decide)
  refine ⟨holds, (evaluates call ?_).2, ⟨result, host, fields, left, right, written⟩, machine,
    lowered, (params 0 _ rfl).1, (locals 0 _ rfl).1⟩
  exact ⟨⟨show 0 < 1 by decide, show 0 < 1 by decide⟩, trivial⟩

end

end ManagedCode
