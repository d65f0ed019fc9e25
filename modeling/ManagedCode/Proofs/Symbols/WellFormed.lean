import ManagedCode.Compile.Unit
import ManagedCode.Proofs.Symbols.Scope

namespace ManagedCode

theorem getD_append_singleton {α : Type} (l : List α) (a other : α) (i : Nat) :
    (l ++ [a]).getD i other = if i = l.length then a else l.getD i other := by
  by_cases h : i = l.length
  · simp [h, List.getD_eq_getElem?_getD]
  · simp only [List.getD_eq_getElem?_getD, if_neg h, List.getElem?_append]
    split
    next => rfl
    next hb => simp [show ¬i < l.length by omega, show i - l.length ≠ 0 by omega]

namespace Symbols

variable {symbols : Symbols}

theorem typeDef_addTypeDef (typeDef : TypeDef) (d : TypeDefId) :
    (symbols.addTypeDef typeDef).2.typeDef d =
      if d.index = symbols.typeDefs.length then typeDef else symbols.typeDef d :=
  getD_append_singleton ..

theorem typeDef_modify (defs : List TypeDef) (id d : TypeDefId) (f : TypeDef → TypeDef) :
    (defs.modify id.index f).getD d.index default =
      if d = id ∧ d.index < defs.length then f (defs.getD d.index default)
      else defs.getD d.index default := by
  simp only [List.getD_eq_getElem?_getD, List.getElem?_modify]
  cases d; cases id
  grind

/-- A program without definitions. -/
theorem wellFormed_empty : WellFormed {} := by
  constructor <;> simp [typeDef, default, instInhabitedTypeDef.default]

/-- A new type is well formed where it lies inside a type that is there, and has no parts yet. -/
theorem WellFormed.addTypeDef (h : symbols.WellFormed) {added : TypeDef}
    (enclosing : ∀ {e rest}, added.enclosing = e :: rest →
      e.index < symbols.typeDefs.length ∧ (symbols.typeDef e).enclosing = rest ∧
        (symbols.typeDef e).module = added.module)
    (base : added.base = none) (fields : added.fields = []) (methods : added.methods = []) :
    (symbols.addTypeDef added).2.WellFormed := by
  have grows : symbols.typeDefs.length ≤ (symbols.addTypeDef added).2.typeDefs.length := by
    simp [Symbols.addTypeDef]
  have old : ∀ {d : TypeDefId}, d.index < symbols.typeDefs.length →
      (symbols.addTypeDef added).2.typeDef d = symbols.typeDef d := fun hd => by
    rw [typeDef_addTypeDef, if_neg (by omega)]
  constructor
  · intro d e rest hd
    rw [typeDef_addTypeDef _ d] at hd ⊢
    split at hd
    next new =>
      obtain ⟨he, hrest, hm⟩ := enclosing hd
      rw [if_pos new, old he]
      exact ⟨Nat.lt_of_lt_of_le he grows, hrest, hm⟩
    next new =>
      obtain ⟨he, hrest, hm⟩ := h.enclosing hd
      rw [if_neg new, old he]
      exact ⟨Nat.lt_of_lt_of_le he grows, hrest, hm⟩
  · intro d t hd
    rw [typeDef_addTypeDef] at hd
    split at hd
    next => simp [base] at hd
    next => exact (h.base hd).mono grows
  · intro f hf
    obtain ⟨ho, hl, ht⟩ := h.field hf
    refine ⟨Nat.lt_of_lt_of_le ho grows, ?_, ht.mono grows⟩
    exact (old ho).symm ▸ hl
  · intro m hm
    obtain ⟨ho, hl, hp, hr⟩ := h.method hm
    refine ⟨Nat.lt_of_lt_of_le ho grows, ?_, fun p hp' => (hp p hp').mono grows, hr.mono grows⟩
    exact (old ho).symm ▸ hl
  · intro d f hf
    rw [typeDef_addTypeDef] at hf
    split at hf
    next => simp [fields] at hf
    next => exact h.listedField hf
  · intro d m hm
    rw [typeDef_addTypeDef] at hm
    split at hm
    next => simp [methods] at hm
    next => exact h.listedMethod hm

theorem WellFormed.addType (h : symbols.WellFormed) (module : ModuleId)
    (nameSpace : Option String) (name : String) (genericArity : Nat) :
    (symbols.addType module nameSpace name genericArity).2.WellFormed :=
  h.addTypeDef (by simp) rfl rfl rfl

theorem WellFormed.addNestedType (h : symbols.WellFormed) {encloser : TypeDefId}
    (inRange : encloser.index < symbols.typeDefs.length) (name : String) (genericArity : Nat) :
    (symbols.addNestedType encloser name genericArity).2.WellFormed := by
  refine h.addTypeDef ?_ rfl rfl rfl
  intro e rest he
  obtain ⟨rfl, rfl⟩ := List.cons.inj he
  exact ⟨inRange, rfl, rfl⟩

/-- Assemblies, modules, files and numbers of types and members carry no part of the structure. -/
theorem WellFormed.of_defs_eq (h : symbols.WellFormed) {other : Symbols}
    (typeDefs : other.typeDefs = symbols.typeDefs) (fields : other.fields = symbols.fields)
    (methods : other.methods = symbols.methods) : other.WellFormed := by
  cases other; cases typeDefs; cases fields; cases methods
  exact ⟨h.enclosing, h.base, h.field, h.method, h.listedField, h.listedMethod⟩

/-- Changing a type definition keeps its shape if it changes neither its place nor its members. -/
theorem WellFormed.modifyTypeDef (h : symbols.WellFormed) (id : TypeDefId) {f : TypeDef → TypeDef}
    (enclosing : ∀ d, (f d).enclosing = d.enclosing) (module : ∀ d, (f d).module = d.module)
    (fields : ∀ d, (f d).fields = d.fields) (methods : ∀ d, (f d).methods = d.methods)
    (base : ∀ d t, (f d).base = some t → d.base = some t ∨ symbols.InScope t) :
    (symbols.modifyTypeDef id f).WellFormed := by
  have size : (symbols.modifyTypeDef id f).typeDefs.length = symbols.typeDefs.length := by
    simp [Symbols.modifyTypeDef]
  have read : ∀ d, (symbols.modifyTypeDef id f).typeDef d = symbols.typeDef d ∨
      (symbols.modifyTypeDef id f).typeDef d = f (symbols.typeDef d) := fun d => by
    have := typeDef_modify symbols.typeDefs id d f
    split at this
    next => exact .inr this
    next => exact .inl this
  have scope : ∀ {t}, symbols.InScope t → (symbols.modifyTypeDef id f).InScope t :=
    fun ht => ht.mono (Nat.le_of_eq size.symm)
  have outer : ∀ d, ((symbols.modifyTypeDef id f).typeDef d).enclosing =
      (symbols.typeDef d).enclosing := fun d => by rcases read d with hd | hd <;> simp [hd, enclosing]
  have home : ∀ d, ((symbols.modifyTypeDef id f).typeDef d).module =
      (symbols.typeDef d).module := fun d => by rcases read d with hd | hd <;> simp [hd, module]
  have own : ∀ d, ((symbols.modifyTypeDef id f).typeDef d).fields =
      (symbols.typeDef d).fields := fun d => by rcases read d with hd | hd <;> simp [hd, fields]
  have code : ∀ d, ((symbols.modifyTypeDef id f).typeDef d).methods =
      (symbols.typeDef d).methods := fun d => by rcases read d with hd | hd <;> simp [hd, methods]
  constructor
  · intro d e rest hd
    rw [outer] at hd
    rw [outer, home, home, size]
    exact h.enclosing hd
  · intro d t hd
    rcases read d with hr | hr
    · exact scope (h.base (hr ▸ hd))
    · rcases base _ t (hr ▸ hd) with old | new
      · exact scope (h.base old)
      · exact scope new
  · intro fd hf
    obtain ⟨ho, hl, ht⟩ := h.field hf
    exact ⟨size.symm ▸ ho, (own _).symm ▸ hl, scope ht⟩
  · intro m hm
    obtain ⟨ho, hl, hp, hr⟩ := h.method hm
    exact ⟨size.symm ▸ ho, (code _).symm ▸ hl, fun p hp' => scope (hp p hp'), scope hr⟩
  · intro d fd hf
    exact h.listedField (own d ▸ hf)
  · intro d m hm
    exact h.listedMethod (code d ▸ hm)

theorem WellFormed.internTy (h : symbols.WellFormed) (t : Ty) : (symbols.internTy t).2.WellFormed :=
  h.of_defs_eq rfl rfl rfl

theorem WellFormed.setBase (h : symbols.WellFormed) (id : TypeDefId) {t : Ty}
    (scope : symbols.InScope t) : (symbols.setBase id t).WellFormed := by
  refine (h.internTy t).modifyTypeDef id (fun _ => rfl) (fun _ => rfl) (fun _ => rfl)
    (fun _ => rfl) ?_
  intro d u hu
  exact .inr (Option.some.inj hu ▸ scope)

theorem WellFormed.setValueType (h : symbols.WellFormed) (id : TypeDefId) (isValueType : Bool) :
    (symbols.setValueType id isValueType).WellFormed :=
  h.modifyTypeDef id (fun _ => rfl) (fun _ => rfl) (fun _ => rfl) (fun _ => rfl)
    fun _ _ => .inl

/-- A new field is listed last among those of its owner. -/
theorem WellFormed.addField (h : symbols.WellFormed) {owner : TypeDefId}
    (inRange : owner.index < symbols.typeDefs.length) (name : String) {t : Ty}
    (scope : symbols.InScope t) (isStatic : Bool) :
    (symbols.addField owner name t isStatic).2.WellFormed := by
  let new : FieldId := ⟨symbols.fields.length⟩
  let list : TypeDef → TypeDef := fun d => { d with fields := d.fields ++ [new] }
  have size : (symbols.addField owner name t isStatic).2.typeDefs.length =
      symbols.typeDefs.length := List.length_modify ..
  have count : (symbols.addField owner name t isStatic).2.fields.length =
      symbols.fields.length + 1 := List.length_append
  have read : ∀ d, (symbols.addField owner name t isStatic).2.typeDef d =
      if d = owner ∧ d.index < symbols.typeDefs.length then list (symbols.typeDef d)
      else symbols.typeDef d := fun d => typeDef_modify symbols.typeDefs owner d list
  have readField : ∀ f, (symbols.addField owner name t isStatic).2.field f =
      if f.index = symbols.fields.length then { name, owner, ty := t, isStatic }
      else symbols.field f := fun f => getD_append_singleton ..
  have place : ∀ d, ((symbols.addField owner name t isStatic).2.typeDef d).enclosing =
      (symbols.typeDef d).enclosing ∧
      ((symbols.addField owner name t isStatic).2.typeDef d).module =
        (symbols.typeDef d).module ∧
      ((symbols.addField owner name t isStatic).2.typeDef d).base = (symbols.typeDef d).base ∧
      ((symbols.addField owner name t isStatic).2.typeDef d).methods =
        (symbols.typeDef d).methods := fun d => by rw [read]; split <;> exact ⟨rfl, rfl, rfl, rfl⟩
  have scope' : ∀ {u}, symbols.InScope u →
      (symbols.addField owner name t isStatic).2.InScope u :=
    fun hu => hu.mono (Nat.le_of_eq size.symm)
  constructor
  · intro d e rest hd
    rw [(place d).1] at hd
    rw [(place e).1, (place e).2.1, (place d).2.1, size]
    exact h.enclosing hd
  · intro d u hd
    exact scope' (h.base ((place d).2.2.1 ▸ hd))
  · intro f hf
    rw [readField, size, read]
    split
    next last =>
      refine ⟨inRange, ?_, scope' scope⟩
      rw [if_pos ⟨rfl, inRange⟩]
      exact List.mem_append_right _ (List.mem_singleton.mpr (by cases f; simp_all [new]))
    next old =>
      obtain ⟨ho, hl, ht⟩ := h.field (f := f) (by omega)
      refine ⟨ho, ?_, scope' ht⟩
      split
      next => exact List.mem_append_left _ hl
      next => exact hl
  · intro m hm
    obtain ⟨ho, hl, hp, hr⟩ := h.method hm
    exact ⟨size.symm ▸ ho, (place _).2.2.2.symm ▸ hl, fun p hp' => scope' (hp p hp'), scope' hr⟩
  · intro d f hf
    rw [read] at hf
    have listed : f ∈ (symbols.typeDef d).fields ∨ f = new ∧ d = owner := by
      split at hf
      next here =>
        rcases List.mem_append.mp hf with old | last
        · exact .inl old
        · exact .inr ⟨List.mem_singleton.mp last, here.1⟩
      next => exact .inl hf
    rw [readField, count]
    rcases listed with old | ⟨rfl, rfl⟩
    · obtain ⟨hi, ho⟩ := h.listedField old
      rw [if_neg (by omega)]
      exact ⟨by omega, ho⟩
    · rw [if_pos rfl]
      exact ⟨Nat.lt_succ_self _, rfl⟩
  · intro d m hm
    exact h.listedMethod ((place d).2.2.2 ▸ hm)

/-- A new method is listed last among those of its owner. -/
theorem WellFormed.addMethod (h : symbols.WellFormed) {owner : TypeDefId}
    (inRange : owner.index < symbols.typeDefs.length) (name : String) {params : List ParamDef}
    {ret : Ty} (scope : ∀ p ∈ params, symbols.InScope p.ty) (retScope : symbols.InScope ret)
    (genericArity : Nat) (isStatic : Bool) :
    (symbols.addMethod owner name params ret genericArity isStatic).2.WellFormed := by
  let new : MethodId := ⟨symbols.methods.length⟩
  let list : TypeDef → TypeDef := fun d => { d with methods := d.methods ++ [new] }
  let later := (symbols.addMethod owner name params ret genericArity isStatic).2
  have size : later.typeDefs.length = symbols.typeDefs.length := List.length_modify ..
  have count : later.methods.length = symbols.methods.length + 1 := List.length_append
  have read : ∀ d, later.typeDef d =
      if d = owner ∧ d.index < symbols.typeDefs.length then list (symbols.typeDef d)
      else symbols.typeDef d := fun d => typeDef_modify symbols.typeDefs owner d list
  have readMethod : ∀ m, later.method m =
      if m.index = symbols.methods.length then
        { name, owner, params, ret, genericArity, isStatic }
      else symbols.method m := fun m => getD_append_singleton ..
  have place : ∀ d, (later.typeDef d).enclosing = (symbols.typeDef d).enclosing ∧
      (later.typeDef d).module = (symbols.typeDef d).module ∧
      (later.typeDef d).base = (symbols.typeDef d).base ∧
      (later.typeDef d).fields = (symbols.typeDef d).fields :=
    fun d => by rw [read]; split <;> exact ⟨rfl, rfl, rfl, rfl⟩
  have scope' : ∀ {u}, symbols.InScope u → later.InScope u :=
    fun hu => hu.mono (Nat.le_of_eq size.symm)
  change later.WellFormed
  constructor
  · intro d e rest hd
    rw [(place d).1] at hd
    rw [(place e).1, (place e).2.1, (place d).2.1, size]
    exact h.enclosing hd
  · intro d u hd
    exact scope' (h.base ((place d).2.2.1 ▸ hd))
  · intro f hf
    obtain ⟨ho, hl, ht⟩ := h.field hf
    exact ⟨size.symm ▸ ho, (place _).2.2.2.symm ▸ hl, scope' ht⟩
  · intro m hm
    rw [readMethod, size, read]
    split
    next last =>
      refine ⟨inRange, ?_, fun p hp => scope' (scope p hp), scope' retScope⟩
      rw [if_pos ⟨rfl, inRange⟩]
      exact List.mem_append_right _ (List.mem_singleton.mpr (by cases m; simp_all [new]))
    next old =>
      obtain ⟨ho, hl, hp, hr⟩ := h.method (m := m) (by omega)
      refine ⟨ho, ?_, fun p hp' => scope' (hp p hp'), scope' hr⟩
      split
      next => exact List.mem_append_left _ hl
      next => exact hl
  · intro d f hf
    exact h.listedField ((place d).2.2.2 ▸ hf)
  · intro d m hm
    rw [read] at hm
    have listed : m ∈ (symbols.typeDef d).methods ∨ m = new ∧ d = owner := by
      split at hm
      next here =>
        rcases List.mem_append.mp hm with old | last
        · exact .inl old
        · exact .inr ⟨List.mem_singleton.mp last, here.1⟩
      next => exact .inl hm
    rw [readMethod, count]
    rcases listed with old | ⟨rfl, rfl⟩
    · obtain ⟨hi, ho⟩ := h.listedMethod old
      rw [if_neg (by omega)]
      exact ⟨by omega, ho⟩
    · rw [if_pos rfl]
      exact ⟨Nat.lt_succ_self _, rfl⟩

end Symbols

end ManagedCode
