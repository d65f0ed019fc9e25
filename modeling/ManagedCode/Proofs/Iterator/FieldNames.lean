import Mathlib.Data.List.DropRight
import Mathlib.Data.List.Nodup
import ManagedCode.Proofs.Iterator.LowerSteps
import ManagedCode.Proofs.Lists

namespace ManagedCode

/-! The names of the fields of a machine. A name that was made up begins with a bracket. Without the
number at its end it tells by its last character what it is for. -/

namespace FieldName

/-- A name without the digits at its end. -/
def stem (name : String) : List Char := name.toList.rdropWhile Char.isDigit

/-- The last character of a name that is no digit. -/
def mark (name : String) : Option Char := (stem name).getLast?

variable {text text' : String} {i j : Nat}

theorem stem_append_repr (text : String) (i : Nat) : stem (text ++ i.repr) = stem text := by
  have digits : ∀ c ∈ (Nat.toDigits 10 i).reverse, c.isDigit = true := by
    intro c hc
    exact Nat.isDigit_of_mem_toDigits (by decide) (by decide) (List.mem_reverse.mp hc)
  unfold stem List.rdropWhile
  rw [String.toList_append, Nat.toList_repr, List.reverse_append,
    List.dropWhile_append_of_pos digits]

/-- A text that ends without a digit is its own stem. -/
theorem stem_eq_toList {c : Char} (last : text.toList.getLast? = some c)
    (other : c.isDigit = false) : stem text = text.toList := by
  obtain ⟨front, whole⟩ := List.getLast?_eq_some_iff.mp last
  unfold stem
  rw [whole, List.rdropWhile_concat_neg _ _ _ (by simp [other])]

/-- A numbered name can be read in one way only. -/
theorem append_repr_inj {c c' : Char} (last : text.toList.getLast? = some c)
    (other : c.isDigit = false) (last' : text'.toList.getLast? = some c')
    (other' : c'.isDigit = false) (h : text ++ i.repr = text' ++ j.repr) :
    text = text' ∧ i = j := by
  have stems := congrArg stem h
  rw [stem_append_repr, stem_append_repr, stem_eq_toList last other, stem_eq_toList last' other']
    at stems
  have same : text = text' := String.toList_inj.mp stems
  subst same
  have digits := congrArg String.toList ((String.append_right_inj text).mp h)
  rw [Nat.toList_repr, Nat.toList_repr] at digits
  have number := congrArg (Nat.ofDigitChars 10 · 0) digits
  simp only [Nat.ofDigitChars_ten_toDigits] at number
  exact ⟨rfl, number⟩

theorem mark_append_repr {c : Char} (last : text.toList.getLast? = some c)
    (other : c.isDigit = false) (i : Nat) : mark (text ++ i.repr) = some c := by
  unfold mark
  rw [stem_append_repr, stem_eq_toList last other, last]

/-- The name of the field of a parameter. -/
def ofParam (i : Nat) (param : LocalDecl) : String := param.name.getD ("<>3__arg" ++ i.repr)

/-- What the name of the field of a local begins with. -/
def localStem (decl : LocalDecl) : String :=
  decl.name.elim "<>7__wrap" fun name => "<" ++ name ++ ">5__"

/-- The name of the field of a local. -/
def ofLocal (i : Nat) (decl : LocalDecl) : String := localStem decl ++ (i + 1).repr

theorem exists_last_localStem (decl : LocalDecl) :
    ∃ c, (localStem decl).toList.getLast? = some c ∧ c.isDigit = false ∧ (c = '_' ∨ c = 'p') := by
  unfold localStem
  cases decl.name with
  | none => exact ⟨'p', by decide, by decide, .inr rfl⟩
  | some name =>
    refine ⟨'_', ?_, by decide, .inl rfl⟩
    rw [Option.elim_some, String.toList_append, List.getLast?_append]
    rfl

theorem mark_ofLocal (i : Nat) (decl : LocalDecl) :
    mark (ofLocal i decl) = some '_' ∨ mark (ofLocal i decl) = some 'p' := by
  obtain ⟨c, last, other, kinds⟩ := exists_last_localStem decl
  have marked : mark (ofLocal i decl) = some c := mark_append_repr last other (i + 1)
  rw [marked]
  simpa using kinds

theorem head_ofLocal (i : Nat) (decl : LocalDecl) : (ofLocal i decl).toList.head? = some '<' := by
  unfold ofLocal localStem
  cases decl.name <;> simp [String.toList_append]

/-- A local does not share the name of its field, whatever it is called. -/
theorem ofLocal_inj {decl decl' : LocalDecl} (h : ofLocal i decl = ofLocal j decl') : i = j := by
  obtain ⟨c, last, other, -⟩ := exists_last_localStem decl
  obtain ⟨c', last', other', -⟩ := exists_last_localStem decl'
  have numbers := (append_repr_inj last other last' other' h).2
  omega

variable {param param' : LocalDecl}

/-- A parameter whose name, if it has one, does not begin as made up names do. -/
def Plain (param : LocalDecl) : Prop :=
  ∀ name, param.name = some name → name.toList.head? ≠ some '<'

theorem ofParam_cases (plain : Plain param) (i : Nat) :
    (param.name = some (ofParam i param) ∧ (ofParam i param).toList.head? ≠ some '<') ∨
      ofParam i param = "<>3__arg" ++ i.repr := by
  unfold ofParam
  cases h : param.name with
  | none => exact .inr rfl
  | some name => exact .inl ⟨rfl, plain name h⟩

theorem head_arg (i : Nat) : ("<>3__arg" ++ i.repr).toList.head? = some '<' := by
  simp [String.toList_append]

theorem mark_arg (i : Nat) : mark ("<>3__arg" ++ i.repr) = some 'g' :=
  mark_append_repr (by decide) (by decide) i

/-- The field of a parameter is not called as one that was made up for something else. -/
theorem ofParam_ne (plain : Plain param) (i : Nat) (head : text.toList.head? = some '<')
    (other : mark text ≠ some 'g') : ofParam i param ≠ text := by
  rintro rfl
  rcases ofParam_cases plain i with ⟨-, first⟩ | made
  · exact first head
  · rw [made, mark_arg] at other
    exact other rfl

/-- Two parameters share the name of their fields only if they share their own. -/
theorem ofParam_inj (plain : Plain param) (plain' : Plain param')
    (h : ofParam i param = ofParam j param') :
    i = j ∨ ∃ name, param.name = some name ∧ param'.name = some name := by
  rcases ofParam_cases plain i with ⟨named, first⟩ | made <;>
    rcases ofParam_cases plain' j with ⟨named', first'⟩ | made'
  · exact .inr ⟨_, named, h ▸ named'⟩
  · rw [h, made'] at first
    exact absurd (head_arg j) first
  · rw [← h, made] at first'
    exact absurd (head_arg i) first'
  · rw [made, made'] at h
    have last : "<>3__arg".toList.getLast? = some 'g' := by decide
    exact .inl (append_repr_inj last (by decide) last (by decide) h).2

end FieldName

open FieldName

variable {iterator : IteratorMethod}

theorem map_name_machineFields (iterator : IteratorMethod) :
    (machineFields iterator).map (·.name) =
      "<>1__state" :: "<>2__current" ::
        (iterator.body.params.mapIdx ofParam ++ iterator.body.locals.mapIdx ofLocal) := by
  simp only [machineFields, List.cons_append, List.map_cons, List.map_append]
  refine congrArg₂ (fun params locals => "<>1__state" :: "<>2__current" :: (params ++ locals)) ?_ ?_
  · apply List.ext_getElem (by simp)
    intro i hi hj
    simp only [List.getElem_map, List.getElem_mapIdx]
    rfl
  · apply List.ext_getElem (by simp)
    intro i hi hj
    have inside : i < iterator.body.locals.length := by simpa using hj
    simp only [List.getElem_map, List.getElem_mapIdx]
    unfold ofLocal localStem
    cases iterator.body.locals[i].name <;> rfl

/-- The names of the fields of a machine can be told apart if those of the parameters can, and none
of these begins as a made up name does. -/
theorem nodup_name_machineFields
    (distinct : (iterator.body.params.filterMap (·.name)).Nodup)
    (plain : ∀ param ∈ iterator.body.params, Plain param) :
    ((machineFields iterator).map (·.name)).Nodup := by
  have params : (iterator.body.params.mapIdx ofParam).Nodup := by
    apply nodup_mapIdx
    intro i j param param' hi hj same
    have first := plain param (List.mem_of_getElem? hi)
    have second := plain param' (List.mem_of_getElem? hj)
    rcases ofParam_inj first second same with here | ⟨name, named, named'⟩
    · exact here
    · exact eq_of_nodup_filterMap distinct hi hj named named'
  have locals : (iterator.body.locals.mapIdx ofLocal).Nodup :=
    nodup_mapIdx fun _ _ same => ofLocal_inj same
  have ofParams : ∀ {text : String}, text.toList.head? = some '<' → mark text ≠ some 'g' →
      text ∉ iterator.body.params.mapIdx ofParam := by
    intro text head other mem
    obtain ⟨i, hi, same⟩ := List.mem_mapIdx.mp mem
    exact ofParam_ne (plain _ (List.getElem_mem hi)) i head other same
  have ofLocals : ∀ {text : String}, mark text ≠ some '_' → mark text ≠ some 'p' →
      text ∉ iterator.body.locals.mapIdx ofLocal := by
    intro text other other' mem
    obtain ⟨i, hi, rfl⟩ := List.mem_mapIdx.mp mem
    rcases mark_ofLocal i iterator.body.locals[i] with marked | marked
    · exact other marked
    · exact other' marked
  have apart : ∀ a ∈ iterator.body.params.mapIdx ofParam,
      ∀ b ∈ iterator.body.locals.mapIdx ofLocal, a ≠ b := by
    rintro a ha b hb rfl
    obtain ⟨i, hi, rfl⟩ := List.mem_mapIdx.mp hb
    have other : mark (ofLocal i iterator.body.locals[i]) ≠ some 'g' := by
      rcases mark_ofLocal i iterator.body.locals[i] with marked | marked <;> simp [marked]
    exact ofParams (head_ofLocal i _) other ha
  rw [map_name_machineFields, List.nodup_cons, List.nodup_cons, List.mem_cons, List.mem_append,
    List.mem_append, List.nodup_append]
  refine ⟨?_, ?_, params, locals, apart⟩
  · rintro (same | mem | mem)
    · exact absurd same (by decide)
    · exact ofParams (by decide) (by decide) mem
    · exact ofLocals (by decide) (by decide) mem
  · rintro (mem | mem)
    · exact ofParams (by decide) (by decide) mem
    · exact ofLocals (by decide) (by decide) mem

/-- However locals are called, and whatever has no name, the fields of a machine have names of their
own. -/
theorem field_names_never_clash {symbols : Symbols} {options : LoweringOptions}
    {machine : StateMachine} (lowered : lowerIterator symbols options iterator = .ok machine)
    (distinct : (iterator.body.params.filterMap (·.name)).Nodup)
    (plain : ∀ param ∈ iterator.body.params, ∀ name, param.name = some name →
      name.toList.head? ≠ some '<') :
    (machine.fields.map (·.name)).Nodup := by
  rw [fields_of_lowerIterator lowered]
  exact nodup_name_machineFields distinct plain

/-- Locals that are called like one another, like a parameter and like the fields of others. -/
def crowdedIterator : IteratorMethod where
  method := default
  elementTy := .int32
  body :=
    { params := [some "x", none, some ">5__1"].map ({ name := ·, ty := .int32 })
      locals := [some "x", some "x", none, some "x>5__1", some "<>3__arg1"].map
        ({ name := ·, ty := .int32 })
      root := [.yield (.local ⟨0⟩)] }

theorem field_names_never_clash_crowded : ∃ machine,
    lowerIterator .oneMethod {} crowdedIterator = .ok machine ∧
      machine.fields.map (·.name) =
        ["<>1__state", "<>2__current", "x", "<>3__arg1", ">5__1", "<x>5__1", "<x>5__2",
          "<>7__wrap3", "<x>5__1>5__4", "<<>3__arg1>5__5"] ∧
      (machine.fields.map (·.name)).Nodup := by
  obtain ⟨machine, lowered⟩ : ∃ machine, lowerIterator .oneMethod {} crowdedIterator = .ok machine :=
    exists_eq_ok (by decide +kernel)
  have names : (machineFields crowdedIterator).map (·.name) =
      ["<>1__state", "<>2__current", "x", "<>3__arg1", ">5__1", "<x>5__1", "<x>5__2", "<>7__wrap3",
        "<x>5__1>5__4", "<<>3__arg1>5__5"] := by decide +kernel
  refine ⟨machine, lowered, ?_, field_names_never_clash lowered (by decide) ?_⟩
  · rw [fields_of_lowerIterator lowered, names]
  · decide

end ManagedCode
