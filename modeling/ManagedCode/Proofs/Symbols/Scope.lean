import ManagedCode.Symbols.Definitions

namespace ManagedCode

namespace Ty

mutual

/-- The definitions named anywhere in a type, in reading order. -/
def mentions : Ty → List TypeDefId
  | .primitive _ | .typeParam _ | .methodParam _ => []
  | .named d => [d]
  | .inst d args => d :: mentionsAll args
  | .vector t | .array t _ | .pointer t | .byRef t => mentions t

def mentionsAll : List Ty → List TypeDefId
  | [] => []
  | t :: ts => mentions t ++ mentionsAll ts

end

theorem mentionsAll_eq_flatMap (ts : List Ty) : mentionsAll ts = ts.flatMap mentions := by
  induction ts with
  | nil => rfl
  | cons t ts ih => simp [mentionsAll, ih]

@[simp] theorem mentions_stripByRef (t : Ty) : t.stripByRef.mentions = t.mentions := by
  cases t <;> simp [stripByRef, mentions]

theorem chainLeaf_chainLeaf (t : Ty) : t.chainLeaf.chainLeaf = t.chainLeaf := by
  cases t with
  | vector t | array t _ | pointer t => exact chainLeaf_chainLeaf t
  | _ => rfl

@[simp] theorem mentions_chainLeaf (t : Ty) : t.chainLeaf.mentions = t.mentions := by
  fun_induction chainLeaf t <;> simp_all [mentions]

end Ty

namespace Symbols

/-- Every definition that a type names is one of the program. -/
def InScope (symbols : Symbols) (t : Ty) : Prop :=
  ∀ d ∈ t.mentions, d.index < symbols.typeDefs.length

/-- Every definition that a member use names is one of the program. -/
def MemberInScope (symbols : Symbols) : MemberRef → Prop
  | .field f => f.index < symbols.fields.length
  | .method m => m.index < symbols.methods.length
  | .specializedField f container => f.index < symbols.fields.length ∧ symbols.InScope container
  | .specializedMethod m container => m.index < symbols.methods.length ∧ symbols.InScope container
  | .methodInstance m args => symbols.MemberInScope m ∧ ∀ t ∈ args, symbols.InScope t

/-- What holds of the definitions of a program however they were added: a nested type lives where
the type around it lives, members are listed by their owners, and all types are in scope. -/
structure WellFormed (symbols : Symbols) : Prop where
  enclosing : ∀ {d e rest}, (symbols.typeDef d).enclosing = e :: rest →
    e.index < symbols.typeDefs.length ∧ (symbols.typeDef e).enclosing = rest ∧
      (symbols.typeDef e).module = (symbols.typeDef d).module
  base : ∀ {d t}, (symbols.typeDef d).base = some t → symbols.InScope t
  field : ∀ {f : FieldId}, f.index < symbols.fields.length →
    (symbols.field f).owner.index < symbols.typeDefs.length ∧
      f ∈ (symbols.typeDef (symbols.field f).owner).fields ∧ symbols.InScope (symbols.field f).ty
  method : ∀ {m : MethodId}, m.index < symbols.methods.length →
    (symbols.method m).owner.index < symbols.typeDefs.length ∧
      m ∈ (symbols.typeDef (symbols.method m).owner).methods ∧
      (∀ p ∈ (symbols.method m).params, symbols.InScope p.ty) ∧
      symbols.InScope (symbols.method m).ret
  listedField : ∀ {d f}, f ∈ (symbols.typeDef d).fields →
    f.index < symbols.fields.length ∧ (symbols.field f).owner = d
  listedMethod : ∀ {d m}, m ∈ (symbols.typeDef d).methods →
    m.index < symbols.methods.length ∧ (symbols.method m).owner = d

theorem InScope.mono {symbols later : Symbols} {t : Ty}
    (h : symbols.InScope t) (grows : symbols.typeDefs.length ≤ later.typeDefs.length) :
    later.InScope t :=
  fun d hd => Nat.lt_of_lt_of_le (h d hd) grows

/-- The tables that a definition can be looked up in only ever grow. -/
structure Grows (symbols later : Symbols) : Prop where
  typeDefs : symbols.typeDefs.length ≤ later.typeDefs.length
  fields : symbols.fields.length ≤ later.fields.length
  methods : symbols.methods.length ≤ later.methods.length

theorem Grows.refl (symbols : Symbols) : symbols.Grows symbols :=
  ⟨Nat.le_refl _, Nat.le_refl _, Nat.le_refl _⟩

theorem Grows.trans {first second third : Symbols} (h : first.Grows second)
    (h' : second.Grows third) : first.Grows third :=
  ⟨Nat.le_trans h.typeDefs h'.typeDefs, Nat.le_trans h.fields h'.fields,
    Nat.le_trans h.methods h'.methods⟩

theorem MemberInScope.mono {symbols later : Symbols} {m : MemberRef}
    (h : symbols.MemberInScope m) (grows : symbols.Grows later) : later.MemberInScope m := by
  induction m with
  | field f => exact Nat.lt_of_lt_of_le h grows.fields
  | method m => exact Nat.lt_of_lt_of_le h grows.methods
  | specializedField f container =>
    exact ⟨Nat.lt_of_lt_of_le h.1 grows.fields, h.2.mono grows.typeDefs⟩
  | specializedMethod m container =>
    exact ⟨Nat.lt_of_lt_of_le h.1 grows.methods, h.2.mono grows.typeDefs⟩
  | methodInstance m args ih => exact ⟨ih h.1, fun t ht => (h.2 t ht).mono grows.typeDefs⟩

end Symbols

end ManagedCode
