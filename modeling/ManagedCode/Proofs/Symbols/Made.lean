import Mathlib.Data.List.Nodup
import ManagedCode.Metadata.Target
import ManagedCode.Proofs.Symbols.WellFormed

namespace ManagedCode

namespace Symbols

/-- The programs that are put together definition by definition, from parts that are there. -/
inductive Made : Symbols → Prop
  | empty : Made {}
  | addAssembly {symbols : Symbols} (h : Made symbols) (name : String) (version : Version) :
    Made (symbols.addAssembly name version).2
  | addModule {symbols : Symbols} (h : Made symbols) (assembly : AssemblyId) (name : String) :
    Made (symbols.addModule assembly name).2
  | addType {symbols : Symbols} (h : Made symbols) (module : ModuleId) (nameSpace : Option String)
    (name : String) (genericArity : Nat) :
    Made (symbols.addType module nameSpace name genericArity).2
  | addNestedType {symbols : Symbols} (h : Made symbols) {encloser : TypeDefId}
    (inRange : encloser.index < symbols.typeDefs.length) (name : String) (genericArity : Nat) :
    Made (symbols.addNestedType encloser name genericArity).2
  | addField {symbols : Symbols} (h : Made symbols) {owner : TypeDefId}
    (inRange : owner.index < symbols.typeDefs.length) (name : String) {t : Ty}
    (scope : symbols.InScope t) (isStatic : Bool) :
    Made (symbols.addField owner name t isStatic).2
  | addMethod {symbols : Symbols} (h : Made symbols) {owner : TypeDefId}
    (inRange : owner.index < symbols.typeDefs.length) (name : String) {params : List ParamDef}
    {ret : Ty} (scope : ∀ p ∈ params, symbols.InScope p.ty) (retScope : symbols.InScope ret)
    (genericArity : Nat) (isStatic : Bool) :
    Made (symbols.addMethod owner name params ret genericArity isStatic).2
  | setBase {symbols : Symbols} (h : Made symbols) (id : TypeDefId) {t : Ty}
    (scope : symbols.InScope t) : Made (symbols.setBase id t)
  | setValueType {symbols : Symbols} (h : Made symbols) (id : TypeDefId) (isValueType : Bool) :
    Made (symbols.setValueType id isValueType)
  | setContainsMetadata {symbols : Symbols} (h : Made symbols) (id : ModuleId)
    (containsMetadata : Bool) : Made (symbols.setContainsMetadata id containsMetadata)
  | internTy {symbols : Symbols} (h : Made symbols) (t : Ty) : Made (symbols.internTy t).2
  | internMember {symbols : Symbols} (h : Made symbols) (member : MemberRef) :
    Made (symbols.internMember member).2

theorem Made.wellFormed {symbols : Symbols} (h : symbols.Made) : symbols.WellFormed := by
  induction h with
  | empty => exact wellFormed_empty
  | addAssembly _ _ _ ih | addModule _ _ _ ih | setContainsMetadata _ _ _ ih | internTy _ _ ih
  | internMember _ _ ih => exact ih.of_defs_eq rfl rfl rfl
  | addType _ module nameSpace name arity ih => exact ih.addType module nameSpace name arity
  | addNestedType _ inRange name arity ih => exact ih.addNestedType inRange name arity
  | addField _ inRange name scope isStatic ih => exact ih.addField inRange name scope isStatic
  | addMethod _ inRange name scope retScope arity isStatic ih =>
    exact ih.addMethod inRange name scope retScope arity isStatic
  | setBase _ id scope ih => exact ih.setBase id scope
  | setValueType _ id isValueType ih => exact ih.setValueType id isValueType

/-- A nested type comes after the type around it, and a type lists each member once. -/
structure Ordered (symbols : Symbols) : Prop where
  enclosing : ∀ {d e rest}, (symbols.typeDef d).enclosing = e :: rest → e.index < d.index
  fields : ∀ d, (symbols.typeDef d).fields.Nodup
  methods : ∀ d, (symbols.typeDef d).methods.Nodup

variable {symbols : Symbols}

theorem Ordered.of_same (h : symbols.Ordered) {other : Symbols}
    (enclosing : ∀ d, (other.typeDef d).enclosing = (symbols.typeDef d).enclosing)
    (fields : ∀ d, (other.typeDef d).fields = (symbols.typeDef d).fields)
    (methods : ∀ d, (other.typeDef d).methods = (symbols.typeDef d).methods) : other.Ordered where
  enclosing he := h.enclosing ((enclosing _).symm.trans he)
  fields d := fields d ▸ h.fields d
  methods d := methods d ▸ h.methods d

theorem Ordered.addTypeDef (h : symbols.Ordered) {added : TypeDef}
    (enclosing : ∀ {e rest}, added.enclosing = e :: rest → e.index < symbols.typeDefs.length)
    (fields : added.fields = []) (methods : added.methods = []) :
    (symbols.addTypeDef added).2.Ordered where
  enclosing {d e rest} he := by
    rw [typeDef_addTypeDef] at he
    split at he
    next new => exact new ▸ enclosing he
    next => exact h.enclosing he
  fields d := by
    rw [typeDef_addTypeDef]
    split
    next => exact fields ▸ List.nodup_nil
    next => exact h.fields d
  methods d := by
    rw [typeDef_addTypeDef]
    split
    next => exact methods ▸ List.nodup_nil
    next => exact h.methods d

theorem Ordered.modifyTypeDef (h : symbols.Ordered) (id : TypeDefId) {f : TypeDef → TypeDef}
    (enclosing : ∀ d, (f d).enclosing = d.enclosing)
    (fields : (f (symbols.typeDef id)).fields.Nodup)
    (methods : (f (symbols.typeDef id)).methods.Nodup) : (symbols.modifyTypeDef id f).Ordered := by
  have read : ∀ d, (symbols.modifyTypeDef id f).typeDef d = symbols.typeDef d ∨
      d = id ∧ (symbols.modifyTypeDef id f).typeDef d = f (symbols.typeDef d) := fun d => by
    have := typeDef_modify symbols.typeDefs id d f
    split at this
    next here => exact .inr ⟨here.1, this⟩
    next => exact .inl this
  constructor
  · intro d e rest he
    rcases read d with hd | ⟨-, hd⟩
    · exact h.enclosing (hd ▸ he)
    · rw [hd, enclosing] at he
      exact h.enclosing he
  · intro d
    rcases read d with hd | ⟨rfl, hd⟩
    · exact hd ▸ h.fields d
    · exact hd ▸ fields
  · intro d
    rcases read d with hd | ⟨rfl, hd⟩
    · exact hd ▸ h.methods d
    · exact hd ▸ methods

theorem Made.ordered (h : symbols.Made) : symbols.Ordered := by
  induction h with
  | empty => constructor <;> simp [typeDef, default, instInhabitedTypeDef.default]
  | addAssembly _ _ _ ih | addModule _ _ _ ih | setContainsMetadata _ _ _ ih | internTy _ _ ih
  | internMember _ _ ih => exact ih.of_same (fun _ => rfl) (fun _ => rfl) (fun _ => rfl)
  | addType _ module nameSpace name arity ih => exact ih.addTypeDef (by simp) rfl rfl
  | addNestedType _ inRange name arity ih =>
    refine ih.addTypeDef ?_ rfl rfl
    intro e rest he
    obtain ⟨rfl, rfl⟩ := List.cons.inj he
    exact inRange
  | @addField symbols made owner inRange name t scope isStatic ih =>
    let new : FieldId := ⟨symbols.fields.length⟩
    have fresh : new ∉ (symbols.typeDef owner).fields := fun listed =>
      absurd (made.wellFormed.listedField listed).1 (Nat.lt_irrefl _)
    have listed : ((symbols.typeDef owner).fields ++ [new]).Nodup := by
      rw [← List.concat_eq_append]
      exact (ih.fields owner).concat fresh
    have modified : (symbols.modifyTypeDef owner fun d =>
        { d with fields := d.fields ++ [new] }).Ordered :=
      ih.modifyTypeDef owner (fun _ => rfl) listed (ih.methods owner)
    exact modified.of_same (fun _ => rfl) (fun _ => rfl) (fun _ => rfl)
  | @addMethod symbols made owner inRange name params ret scope retScope arity isStatic ih =>
    let new : MethodId := ⟨symbols.methods.length⟩
    have fresh : new ∉ (symbols.typeDef owner).methods := fun listed =>
      absurd (made.wellFormed.listedMethod listed).1 (Nat.lt_irrefl _)
    have listed : ((symbols.typeDef owner).methods ++ [new]).Nodup := by
      rw [← List.concat_eq_append]
      exact (ih.methods owner).concat fresh
    have modified : (symbols.modifyTypeDef owner fun d =>
        { d with methods := d.methods ++ [new] }).Ordered :=
      ih.modifyTypeDef owner (fun _ => rfl) (ih.fields owner) listed
    exact modified.of_same (fun _ => rfl) (fun _ => rfl) (fun _ => rfl)
  | @setBase symbols _ id t scope ih =>
    have interned : (symbols.internTy t).2.Ordered :=
      ih.of_same (fun _ => rfl) (fun _ => rfl) (fun _ => rfl)
    exact interned.modifyTypeDef id (fun _ => rfl) (interned.fields id) (interned.methods id)
  | setValueType _ id isValueType ih =>
    exact ih.modifyTypeDef id (fun _ => rfl) (ih.fields id) (ih.methods id)

end Symbols

namespace Target

variable {target : Target}

theorem nodup_typeDefs : target.typeDefs.Nodup := by
  refine List.Nodup.filter _ (List.Nodup.map ?_ List.nodup_range)
  exact fun i j h => congrArg TypeDefId.index h

/-- No two types list one member, so that each has one row. -/
theorem nodup_fields (made : target.symbols.Made) : target.fields.Nodup := by
  refine List.nodup_flatMap.mpr ⟨fun d _ => made.ordered.fields d, ?_⟩
  refine nodup_typeDefs.imp fun {d e} distinct f hd he => distinct ?_
  exact (made.wellFormed.listedField hd).2.symm.trans (made.wellFormed.listedField he).2

theorem nodup_methods (made : target.symbols.Made) : target.methods.Nodup := by
  refine List.nodup_flatMap.mpr ⟨fun d _ => made.ordered.methods d, ?_⟩
  refine nodup_typeDefs.imp fun {d e} distinct m hd he => distinct ?_
  exact (made.wellFormed.listedMethod hd).2.symm.trans (made.wellFormed.listedMethod he).2

end Target

end ManagedCode
