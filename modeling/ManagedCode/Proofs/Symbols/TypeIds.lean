import ManagedCode.Proofs.Intern
import ManagedCode.Proofs.Symbols.Made

namespace ManagedCode

/-- One level of a type, over what stands for its parts. -/
inductive TyKind (Part : Type) where
  | primitive (primitive : Primitive)
  | named (definition : TypeDefId)
  | inst (definition : TypeDefId) (args : List Part)
  | typeParam (index : Nat)
  | methodParam (index : Nat)
  | vector (element : Part)
  | array (element : Part) (rank : Nat)
  | pointer (pointee : Part)
  | byRef (referent : Part)
  deriving DecidableEq

namespace TyKind

variable {α β : Type}

def parts : TyKind α → List α
  | .inst _ args => args
  | .vector t | .array t _ | .pointer t | .byRef t => [t]
  | _ => []

/-- The element of an array or vector, or what a pointer points to. -/
def chainElement? : TyKind α → Option α
  | .vector element => some element
  | .array element _ => some element
  | .pointer pointee => some pointee
  | _ => none

def mapM (f : α → Option β) : TyKind α → Option (TyKind β)
  | .primitive p => some (.primitive p)
  | .named d => some (.named d)
  | .inst d args => (args.mapM f).map (.inst d)
  | .typeParam i => some (.typeParam i)
  | .methodParam i => some (.methodParam i)
  | .vector t => (f t).map .vector
  | .array t rank => (f t).map (.array · rank)
  | .pointer t => (f t).map .pointer
  | .byRef t => (f t).map .byRef

/-- The type with these parts. -/
def ty : TyKind Ty → Ty
  | .primitive p => .primitive p
  | .named d => .named d
  | .inst d args => .inst d args
  | .typeParam i => .typeParam i
  | .methodParam i => .methodParam i
  | .vector t => .vector t
  | .array t rank => .array t rank
  | .pointer t => .pointer t
  | .byRef t => .byRef t

end TyKind

/-- The top level of a type. -/
def Ty.kind : Ty → TyKind Ty
  | .primitive p => .primitive p
  | .named d => .named d
  | .inst d args => .inst d args
  | .typeParam i => .typeParam i
  | .methodParam i => .methodParam i
  | .vector t => .vector t
  | .array t rank => .array t rank
  | .pointer t => .pointer t
  | .byRef t => .byRef t

@[simp] theorem Ty.ty_kind (t : Ty) : t.kind.ty = t := by
  cases t <;> rfl

@[simp] theorem TyKind.kind_ty (kind : TyKind Ty) : kind.ty.kind = kind := by
  cases kind <;> rfl

namespace TyKind

variable {α β : Type} {f g : α → Option β} {kind : TyKind α} {kind' : TyKind β}

theorem mapM_parts (h : kind.mapM f = some kind') :
    List.Forall₂ (fun a b => f a = some b) kind.parts kind'.parts := by
  cases kind with
  | primitive | named | typeParam | methodParam =>
    cases h
    exact .nil
  | inst d args =>
    obtain ⟨args', hargs, rfl⟩ := Option.map_eq_some_iff.mp h
    exact mapM_eq_some_iff_forall₂.mp hargs
  | vector | array | pointer | byRef =>
    obtain ⟨t, ht, rfl⟩ := Option.map_eq_some_iff.mp h
    exact .cons ht .nil

theorem mapM_mono (h : kind.mapM f = some kind')
    (kept : ∀ a ∈ kind.parts, ∀ b, f a = some b → g a = some b) : kind.mapM g = some kind' := by
  cases kind with
  | primitive | named | typeParam | methodParam => exact h
  | inst d args =>
    obtain ⟨args', hargs, rfl⟩ := Option.map_eq_some_iff.mp h
    have among := (List.forall₂_and_left _ _).mpr ⟨kept, mapM_eq_some_iff_forall₂.mp hargs⟩
    have replaced := among.imp fun a b hab => hab.1 b hab.2
    exact congrArg (Option.map _) (mapM_eq_some_iff_forall₂.mpr replaced)
  | vector | array | pointer | byRef =>
    obtain ⟨t, ht, rfl⟩ := Option.map_eq_some_iff.mp h
    exact congrArg (Option.map _) (kept _ List.mem_cons_self _ ht)

theorem exists_mapM (defined : ∀ p ∈ kind.parts, (f p).isSome) : ∃ kind', kind.mapM f = some kind' := by
  cases kind with
  | primitive | named | typeParam | methodParam => exact ⟨_, rfl⟩
  | inst d args =>
    obtain ⟨args', hargs⟩ := exists_mapM_eq_some defined
    exact ⟨.inst d args', congrArg (Option.map _) hargs⟩
  | vector | array | pointer | byRef =>
    obtain ⟨t, ht⟩ := Option.isSome_iff_exists.mp (defined _ List.mem_cons_self)
    exact ⟨_, congrArg (Option.map _) ht⟩

/-- What is replaced can be put back. -/
theorem mapM_back {g : β → Option α} (h : kind.mapM f = some kind')
    (back : ∀ a b, f a = some b → g b = some a) : kind'.mapM g = some kind := by
  cases kind with
  | primitive | named | typeParam | methodParam =>
    cases h
    rfl
  | inst d args =>
    obtain ⟨args', hargs, rfl⟩ := Option.map_eq_some_iff.mp h
    have replaced := (mapM_eq_some_iff_forall₂.mp hargs).flip.imp fun b a => back a b
    exact congrArg (Option.map _) (mapM_eq_some_iff_forall₂.mpr replaced)
  | vector | array | pointer | byRef =>
    obtain ⟨t, ht, rfl⟩ := Option.map_eq_some_iff.mp h
    exact congrArg (Option.map _) (back _ _ ht)

theorem chainElement?_mem_parts {element : α} (h : kind.chainElement? = some element) :
    element ∈ kind.parts := by
  cases kind <;> cases h <;> exact List.mem_cons_self

theorem chainElement?_of_mapM (h : kind.mapM f = some kind') :
    kind'.chainElement? = kind.chainElement?.bind f := by
  cases kind with
  | primitive | named | typeParam | methodParam =>
    cases h
    rfl
  | inst | byRef =>
    obtain ⟨_, -, rfl⟩ := Option.map_eq_some_iff.mp h
    rfl
  | vector | array | pointer =>
    obtain ⟨_, ht, rfl⟩ := Option.map_eq_some_iff.mp h
    exact ht.symm

end TyKind

theorem Ty.chainLeaf_eq (t : Ty) :
    t.chainLeaf = (t.kind.chainElement?.map chainLeaf).getD t := by
  cases t <;> simp [kind, TyKind.chainElement?, chainLeaf]

namespace TypeTable

/-- The type that a call stands for whose arguments are ids of the table. -/
def build? (table : TypeTable) (call : TyKind TyId) : Option Ty :=
  (call.mapM table.ty?).map TyKind.ty

/-- Numbers the type that a call stands for. -/
def request (table : TypeTable) (call : TyKind TyId) : Option (TyId × TypeTable) :=
  (table.build? call).map table.internTy

/-- Calls one after another, each with ids that the table has by then. -/
def requests (table : TypeTable) : List (TyKind TyId) → Option (List TyId × TypeTable)
  | [] => some ([], table)
  | call :: calls => do
    let (id, table) ← table.request call
    let (ids, table) ← requests table calls
    return (id :: ids, table)

/-- One level of a numbered type, over the numbers of its parts. -/
def kind? (table : TypeTable) (id : TyId) : Option (TyKind TyId) :=
  (table.ty? id).bind fun t => t.kind.mapM table.id?

/-- The type that a number stands for, read level by level down to the given depth. -/
def readTo? (table : TypeTable) : Nat → TyId → Option Ty
  | 0, _ => none
  | depth + 1, id => do
    let kind ← table.kind? id
    TyKind.ty <$> kind.mapM (table.readTo? depth)

/-- Where a walk along the elements of arrays, vectors and pointers ends, if it does within the
given number of looks. -/
def chainEnd? (table : TypeTable) : Nat → TyId → Option TyId
  | 0, _ => none
  | looks + 1, id => do
    let kind ← table.kind? id
    match kind.chainElement? with
    | some element => table.chainEnd? looks element
    | none => some id

/-- The type that a number stands for. No type has more levels than its number allows. -/
def tree? (table : TypeTable) (id : TyId) : Option Ty :=
  table.readTo? (id.index + 1) id

/-- What holds of the tables that types were numbered in: each type is there once, after its
parts. -/
structure Sound (table : TypeTable) : Prop where
  distinct : table.entries.Nodup
  parts : ∀ {id t}, table.ty? id = some t → ∀ p ∈ t.kind.parts,
    ∃ part : TyId, part.index < id.index ∧ table.ty? part = some p

variable {table later : TypeTable} {id : TyId} {t : Ty} {kind call : TyKind TyId}

theorem sound_empty : Sound {} where
  distinct := List.nodup_nil
  parts h := by cases h

theorem Sound.id?_eq_some_iff (sound : table.Sound) : table.id? t = some id ↔ table.ty? id = some t := by
  rw [ty?, ← InternTable.lookup?_eq_some_iff sound.distinct, id?, Option.map_eq_some_iff]
  constructor
  · rintro ⟨index, h, rfl⟩
    exact h
  · intro h
    exact ⟨id.index, h, rfl⟩

theorem Sound.isSome_id? (sound : table.Sound) (h : table.ty? id = some t) :
    (table.id? t).isSome :=
  Option.isSome_of_eq_some (sound.id?_eq_some_iff.mpr h)

/-- The kind of an id is the call that builds its type. -/
theorem Sound.kind?_eq_some_iff (sound : table.Sound) :
    table.kind? id = some kind ↔ ∃ t, table.ty? id = some t ∧ table.build? kind = some t := by
  constructor
  · intro h
    obtain ⟨t, ht, h⟩ := Option.bind_eq_some_iff.mp h
    have back := TyKind.mapM_back h fun _ _ => sound.id?_eq_some_iff.mp
    exact ⟨t, ht, Option.map_eq_some_iff.mpr ⟨_, back, t.ty_kind⟩⟩
  · rintro ⟨t, ht, h⟩
    obtain ⟨built, hbuilt, rfl⟩ := Option.map_eq_some_iff.mp h
    refine Option.bind_eq_some_iff.mpr ⟨_, ht, ?_⟩
    rw [TyKind.kind_ty]
    exact TyKind.mapM_back hbuilt fun _ _ => sound.id?_eq_some_iff.mpr

theorem ty?_of_extends (grows : table.Extends later) (h : table.ty? id = some t) :
    later.ty? id = some t :=
  grows.get? h

theorem Sound.id?_of_extends (sound : table.Sound) (soundLater : later.Sound)
    (grows : table.Extends later) (h : table.id? t = some id) : later.id? t = some id :=
  soundLater.id?_eq_some_iff.mpr (ty?_of_extends grows (sound.id?_eq_some_iff.mp h))

/-- The kind of an id never changes. -/
theorem Sound.kind?_of_extends (sound : table.Sound) (soundLater : later.Sound)
    (grows : table.Extends later) (h : table.kind? id = some kind) :
    later.kind? id = some kind := by
  obtain ⟨t, ht, h⟩ := Option.bind_eq_some_iff.mp h
  refine Option.bind_eq_some_iff.mpr ⟨t, ty?_of_extends grows ht, ?_⟩
  exact TyKind.mapM_mono h fun _ _ _ => sound.id?_of_extends soundLater grows

theorem build?_of_extends (grows : table.Extends later) (h : table.build? call = some t) :
    later.build? call = some t := by
  obtain ⟨built, hbuilt, rfl⟩ := Option.map_eq_some_iff.mp h
  exact Option.map_eq_some_iff.mpr
    ⟨built, TyKind.mapM_mono hbuilt fun _ _ _ => ty?_of_extends grows, rfl⟩

/-- Every type of the table has a kind. -/
theorem Sound.exists_kind? (sound : table.Sound) (ht : table.ty? id = some t) :
    ∃ kind, table.kind? id = some kind ∧ table.build? kind = some t := by
  have known : ∀ p ∈ t.kind.parts, (table.id? p).isSome := by
    intro p hp
    obtain ⟨part, -, hpart⟩ := sound.parts ht p hp
    exact sound.isSome_id? hpart
  obtain ⟨kind, h⟩ := TyKind.exists_mapM known
  have here : table.kind? id = some kind := Option.bind_eq_some_iff.mpr ⟨t, ht, h⟩
  obtain ⟨t', ht', hb⟩ := sound.kind?_eq_some_iff.mp here
  cases ht.symm.trans ht'
  exact ⟨kind, here, hb⟩

/-- The parts of a type have smaller numbers than the type. -/
theorem Sound.part_lt (sound : table.Sound) (h : table.kind? id = some kind) :
    ∀ p ∈ kind.parts, p.index < id.index := by
  intro part hpart
  obtain ⟨t, ht, h⟩ := Option.bind_eq_some_iff.mp h
  obtain ⟨p, hp, numbered⟩ := forall₂_mem_right (TyKind.mapM_parts h) hpart
  obtain ⟨before, smaller, hbefore⟩ := sound.parts ht p hp
  rw [sound.id?_eq_some_iff] at numbered
  have same : part = before := Option.some.inj
    ((sound.id?_eq_some_iff.mpr numbered).symm.trans (sound.id?_eq_some_iff.mpr hbefore))
  exact same ▸ smaller

/-! Numbering a type whose parts are numbered. -/

theorem internTy_of_id? (h : table.id? t = some id) : table.internTy t = (id, table) := by
  cases t <;> simp only [internTy, h]

/-- A new type is added after all its parts. -/
theorem internTy_of_new (h : table.id? t = none) :
    table.internTy t = (⟨(InternTable.intern (table.addTys t.kind.parts) t).1⟩,
      (InternTable.intern (table.addTys t.kind.parts) t).2) := by
  cases t <;> simp only [internTy, h, Ty.kind, TyKind.parts, addTys]

theorem addTys_of_known {ts : List Ty} (known : ∀ t ∈ ts, (table.id? t).isSome) :
    table.addTys ts = table := by
  induction ts with
  | nil => rfl
  | cons t ts ih =>
    obtain ⟨id, hid⟩ := Option.isSome_iff_exists.mp (known t List.mem_cons_self)
    rw [addTys, internTy_of_id? hid]
    exact ih fun u hu => known u (List.mem_cons_of_mem _ hu)

theorem internTy_of_parts (known : ∀ p ∈ t.kind.parts, (table.id? p).isSome) :
    table.internTy t = (⟨(InternTable.intern table t).1⟩, (InternTable.intern table t).2) := by
  cases h : table.lookup? t with
  | some index =>
    rw [InternTable.intern_of_lookup? h]
    exact internTy_of_id? (congrArg (Option.map TyId.mk) h)
  | none =>
    have new : table.id? t = none := congrArg (Option.map TyId.mk) h
    rw [internTy_of_new new, addTys_of_known known]

theorem Sound.append (sound : table.Sound) (known : ∀ p ∈ t.kind.parts, (table.id? p).isSome)
    (new : table.lookup? t = none) : Sound ⟨table.entries ++ [t]⟩ where
  distinct := InternTable.nodup_append_of_new sound.distinct new
  parts {id u} hu p hp := by
    have grows : InternTable.Extends table ⟨table.entries ++ [t]⟩ := List.prefix_append _ _
    rcases Nat.lt_or_ge id.index table.entries.length with old | fresh
    · have held : table.ty? id = some u := (List.getElem?_append_left old).symm.trans hu
      obtain ⟨part, smaller, hpart⟩ := sound.parts held p hp
      exact ⟨part, smaller, ty?_of_extends grows hpart⟩
    · have last : u = t := by
        have := (List.getElem?_append_right fresh).symm.trans hu
        exact (List.mem_singleton.mp (List.mem_of_getElem? this))
      subst last
      obtain ⟨part, hpart⟩ := Option.isSome_iff_exists.mp (known p hp)
      have held := sound.id?_eq_some_iff.mp hpart
      have inside := InternTable.get?_isSome_iff.mp (Option.isSome_of_eq_some held)
      exact ⟨part, Nat.lt_of_lt_of_le inside fresh, ty?_of_extends grows held⟩

/-- What a call does: it finds its type, or it adds it at the end. -/
theorem Sound.request (sound : table.Sound) (h : table.request call = some (id, later)) :
    later.Sound ∧ table.Extends later ∧
      ∃ t, table.build? call = some t ∧ later.ty? id = some t ∧
        (later = table ∨ later.entries = table.entries ++ [t] ∧ t ∉ table.entries) := by
  obtain ⟨t, built, h⟩ := Option.map_eq_some_iff.mp h
  have known : ∀ p ∈ t.kind.parts, (table.id? p).isSome := by
    obtain ⟨level, hlevel, rfl⟩ := Option.map_eq_some_iff.mp built
    intro p hp
    rw [TyKind.kind_ty] at hp
    obtain ⟨part, -, hpart⟩ := forall₂_mem_right (TyKind.mapM_parts hlevel) hp
    exact sound.isSome_id? hpart
  rw [internTy_of_parts known] at h
  cases found : table.lookup? t with
  | some index =>
    rw [InternTable.intern_of_lookup? found] at h
    cases h
    have here := (InternTable.lookup?_eq_some_iff sound.distinct).mp found
    exact ⟨sound, .refl _, t, built, here, .inl rfl⟩
  | none =>
    rw [InternTable.intern_of_new found] at h
    cases h
    have here : TypeTable.ty? ⟨table.entries ++ [t]⟩ ⟨table.size⟩ = some t := by
      simp [ty?, InternTable.get?, InternTable.size]
    exact ⟨sound.append known found, List.prefix_append _ _, t, built, here,
      .inr ⟨rfl, List.idxOf?_eq_none_iff.mp found⟩⟩

/-- A table filled by calls: every id it gave reads back as the call it was given for, and the
types are those of the calls in the order of their first sight. -/
structure Records (table : TypeTable) (calls : List (TyKind TyId)) (ids : List TyId) : Prop where
  sound : table.Sound
  answers : List.Forall₂ (fun call id => table.kind? id = some call) calls ids
  order : List.Forall₂ (fun call t => table.build? call = some t) calls.eraseDups table.entries

variable {calls more : List (TyKind TyId)} {ids moreIds : List TyId}

theorem records_empty : Records {} [] [] :=
  ⟨sound_empty, .nil, .nil⟩

theorem eraseDups_append_singleton {α : Type} [DecidableEq α] (l : List α) (a : α) :
    (l ++ [a]).eraseDups = if a ∈ l then l.eraseDups else l.eraseDups ++ [a] := by
  rw [List.eraseDups_append]
  split <;> simp_all [List.removeAll, List.eraseDups_cons]

/-- A call is recorded where its type is. -/
theorem Records.mem_calls_iff (records : table.Records calls ids)
    (built : table.build? call = some t) : call ∈ calls ↔ t ∈ table.entries := by
  rw [← List.mem_eraseDups]
  constructor
  · intro h
    obtain ⟨u, hu, hbuilt⟩ := forall₂_mem_right records.order.flip h
    cases built.symm.trans hbuilt
    exact hu
  · intro h
    obtain ⟨first, hfirst, hbuilt⟩ := forall₂_mem_right records.order h
    obtain ⟨index, here⟩ := List.getElem?_of_mem h
    have answered : table.kind? ⟨index⟩ = some first :=
      records.sound.kind?_eq_some_iff.mpr ⟨t, here, hbuilt⟩
    rw [records.sound.kind?_eq_some_iff.mpr ⟨t, here, built⟩] at answered
    exact Option.some.inj answered ▸ hfirst

theorem Records.request (records : table.Records calls ids)
    (h : table.request call = some (id, later)) : later.Records (calls ++ [call]) (ids ++ [id]) := by
  obtain ⟨sound, grows, t, built, here, outcome⟩ := records.sound.request h
  have answers := records.answers.imp fun _ _ => records.sound.kind?_of_extends sound grows
  have order := records.order.imp fun _ _ => build?_of_extends grows
  have answered : later.kind? id = some call :=
    sound.kind?_eq_some_iff.mpr ⟨t, here, build?_of_extends grows built⟩
  refine ⟨sound, List.rel_append answers (.cons answered .nil), ?_⟩
  rw [eraseDups_append_singleton]
  rcases outcome with rfl | ⟨hlater, new⟩
  · rw [if_pos ((records.mem_calls_iff built).mpr (List.mem_of_getElem? here))]
    exact records.order
  · rw [if_neg (mt (records.mem_calls_iff built).mp new), hlater]
    exact List.rel_append order (.cons (build?_of_extends grows built) .nil)

theorem Records.requests (records : table.Records calls ids)
    (h : table.requests more = some (moreIds, later)) :
    later.Records (calls ++ more) (ids ++ moreIds) ∧ table.Extends later := by
  induction more generalizing table calls ids moreIds with
  | nil =>
    cases h
    simpa using ⟨records, InternTable.Extends.refl later⟩
  | cons call more ih =>
    obtain ⟨⟨id, middle⟩, first, h⟩ := Option.bind_eq_some_iff.mp h
    obtain ⟨⟨rest, last⟩, others, h⟩ := Option.bind_eq_some_iff.mp h
    cases h
    obtain ⟨recorded, grows⟩ := ih (records.request first) others
    rw [List.append_assoc, List.append_assoc] at recorded
    exact ⟨recorded, (records.sound.request first).2.1.trans grows⟩

/-- An id is the place of its call among the distinct calls. -/
theorem Records.index_eq (records : table.Records calls ids) (h : table.kind? id = some call) :
    id.index = calls.eraseDups.idxOf call := by
  obtain ⟨t, here, built⟩ := records.sound.kind?_eq_some_iff.mp h
  have among : call ∈ calls.eraseDups :=
    List.mem_eraseDups.mpr ((records.mem_calls_iff built).mpr (List.mem_of_getElem? here))
  have place := List.idxOf_lt_length_of_mem among
  obtain ⟨u, hu, hbuilt⟩ := forall₂_getElem? records.order (List.getElem?_eq_getElem place)
  rw [List.getElem_idxOf place, built] at hbuilt
  cases hbuilt
  have first := (idxOf?_eq_some_iff_of_nodup records.sound.distinct).mpr here
  exact Option.some.inj
    (first.symm.trans ((idxOf?_eq_some_iff_of_nodup records.sound.distinct).mpr hu))

/-! Reading a type level by level comes to an end because parts have smaller numbers. -/

theorem Sound.readTo?_eq (sound : table.Sound) {depth : Nat} (ht : table.ty? id = some t)
    (deep : id.index < depth) : table.readTo? depth id = some t := by
  induction depth generalizing id t with
  | zero => omega
  | succ depth ih =>
    obtain ⟨kind, hkind, built⟩ := sound.exists_kind? ht
    obtain ⟨level, hlevel, rfl⟩ := Option.map_eq_some_iff.mp built
    have unfolded : kind.mapM (table.readTo? depth) = some level := by
      refine TyKind.mapM_mono hlevel fun part hpart u hu => ih hu ?_
      have := sound.part_lt hkind part hpart
      omega
    simp [readTo?, hkind, unfolded]

/-- A walk along the elements of a chain ends at the number of the chain's leaf. -/
theorem Sound.chainEnd?_eq (sound : table.Sound) {looks : Nat} (ht : table.ty? id = some t)
    (enough : id.index < looks) :
    ∃ leaf, table.ty? leaf = some t.chainLeaf ∧ table.chainEnd? looks id = some leaf := by
  induction looks generalizing id t with
  | zero => omega
  | succ looks ih =>
    obtain ⟨kind, hkind, built⟩ := sound.exists_kind? ht
    obtain ⟨level, hlevel, rfl⟩ := Option.map_eq_some_iff.mp built
    have walked := TyKind.chainElement?_of_mapM hlevel
    rw [Ty.chainLeaf_eq, TyKind.kind_ty, walked]
    cases next : kind.chainElement? with
    | none => exact ⟨id, ht, by simp [chainEnd?, hkind, next]⟩
    | some element =>
      have among := TyKind.chainElement?_mem_parts next
      have smaller := sound.part_lt hkind element among
      obtain ⟨u, -, hu⟩ := forall₂_mem_right (TyKind.mapM_parts hlevel).flip among
      obtain ⟨leaf, hleaf, ended⟩ := ih hu (by omega)
      exact ⟨leaf, by simpa [hu] using hleaf, by simpa [chainEnd?, hkind, next] using ended⟩

theorem Sound.ty?_inj (sound : table.Sound) {other : TyId} (h : table.ty? id = some t)
    (h' : table.ty? other = some t) : id = other :=
  Option.some.inj ((sound.id?_eq_some_iff.mpr h).symm.trans (sound.id?_eq_some_iff.mpr h'))

theorem Sound.tree?_eq (sound : table.Sound) (ht : table.ty? id = some t) :
    table.tree? id = some t :=
  sound.readTo?_eq ht (Nat.lt_succ_self _)

theorem Records.exists_ty? (records : table.Records calls ids) (h : id ∈ ids) :
    ∃ t, table.ty? id = some t := by
  obtain ⟨call, -, answered⟩ := forall₂_mem_right records.answers h
  obtain ⟨t, ht, -⟩ := records.sound.kind?_eq_some_iff.mp answered
  exact ⟨t, ht⟩

/-- The ids that calls return say which types are the same. -/
structure Structural (table : TypeTable) (calls : List (TyKind TyId)) (ids : List TyId) :
    Prop where
  /-- Ids count the distinct calls in the order of their first sight. -/
  dense : ids = calls.map fun call => ⟨calls.eraseDups.idxOf call⟩
  size : table.size = calls.eraseDups.length
  kinds : List.Forall₂ (fun call id => table.kind? id = some call) calls ids
  trees : ∀ a ∈ ids, ∀ b ∈ ids, table.tree? a = table.tree? b ↔ a = b
  smaller : ∀ id ∈ ids, ∀ kind, table.kind? id = some kind → ∀ part ∈ kind.parts,
    part.index < id.index
  /-- Reading a type to all its levels ends, and so does a walk along its chain. -/
  ends : ∀ id ∈ ids, ∃ t leaf, table.tree? id = some t ∧ table.tree? leaf = some t.chainLeaf ∧
    ∀ n, id.index < n → table.readTo? n id = some t ∧ table.chainEnd? n id = some leaf

theorem Records.structural (records : table.Records calls ids) : table.Structural calls ids where
  dense := by
    refine (List.forall₂_eq_eq_eq ▸ List.forall₂_map_right_iff.mpr ?_ : ids = _)
    refine records.answers.flip.imp fun id call answered => ?_
    exact congrArg TyId.mk (records.index_eq answered)
  size := records.order.length_eq.symm
  kinds := records.answers
  trees a ha b hb := by
    obtain ⟨t, ht⟩ := records.exists_ty? ha
    obtain ⟨u, hu⟩ := records.exists_ty? hb
    rw [records.sound.tree?_eq ht, records.sound.tree?_eq hu]
    constructor
    · intro same
      cases same
      exact records.sound.ty?_inj ht hu
    · rintro rfl
      exact ht.symm.trans hu
  smaller _ _ _ h := records.sound.part_lt h
  ends id hid := by
    obtain ⟨t, ht⟩ := records.exists_ty? hid
    obtain ⟨leaf, hleaf, -⟩ := records.sound.chainEnd?_eq ht (Nat.lt_succ_self _)
    refine ⟨t, leaf, records.sound.tree?_eq ht, records.sound.tree?_eq hleaf, fun n deep => ?_⟩
    obtain ⟨last, hlast, ended⟩ := records.sound.chainEnd?_eq ht deep
    rw [records.sound.ty?_inj hleaf hlast]
    exact ⟨records.sound.readTo?_eq ht deep, ended⟩

/-! Numbering a whole type is a run of such calls, one for each of its levels that is new. -/

theorem requests_append (h : table.requests calls = some (ids, later)) {last : TypeTable}
    (h' : later.requests more = some (moreIds, last)) :
    table.requests (calls ++ more) = some (ids ++ moreIds, last) := by
  induction calls generalizing table ids with
  | nil =>
    cases h
    exact h'
  | cons call calls ih =>
    obtain ⟨⟨id, middle⟩, first, h⟩ := Option.bind_eq_some_iff.mp h
    obtain ⟨⟨rest, _⟩, others, h⟩ := Option.bind_eq_some_iff.mp h
    cases h
    simp [requests, first, ih others]

theorem Sound.requests (sound : table.Sound) (h : table.requests calls = some (ids, later)) :
    later.Sound ∧ table.Extends later := by
  induction calls generalizing table ids with
  | nil =>
    cases h
    exact ⟨sound, .refl _⟩
  | cons call calls ih =>
    obtain ⟨⟨id, middle⟩, first, h⟩ := Option.bind_eq_some_iff.mp h
    obtain ⟨⟨rest, _⟩, others, h⟩ := Option.bind_eq_some_iff.mp h
    cases h
    obtain ⟨soundMiddle, grows, -⟩ := sound.request first
    obtain ⟨soundLater, growsLater⟩ := ih soundMiddle others
    exact ⟨soundLater, grows.trans growsLater⟩

/-- Numbering a type is a run of calls of which the last returns the number of the type. -/
def Called (t : Ty) : Prop :=
  ∀ table : TypeTable, table.Sound → ∃ calls ids,
    table.requests calls = some (ids ++ [(table.internTy t).1], (table.internTy t).2) ∧
      (table.internTy t).2.id? t = some (table.internTy t).1

/-- Adding types is a run of calls after which all are numbered. -/
def CalledAll (ts : List Ty) : Prop :=
  ∀ table : TypeTable, table.Sound → ∃ calls ids,
    table.requests calls = some (ids, table.addTys ts) ∧
      ∀ t ∈ ts, ((table.addTys ts).id? t).isSome

theorem calledAll_nil : CalledAll [] :=
  fun _ _ => ⟨[], [], rfl, nofun⟩

theorem CalledAll.cons {ts : List Ty} (first : Called t) (rest : CalledAll ts) :
    CalledAll (t :: ts) := by
  intro table sound
  obtain ⟨calls, ids, run, numbered⟩ := first table sound
  obtain ⟨soundMiddle, -⟩ := sound.requests run
  obtain ⟨more, moreIds, runMore, others⟩ := rest _ soundMiddle
  obtain ⟨soundLater, grows⟩ := soundMiddle.requests runMore
  refine ⟨calls ++ more, _, requests_append run runMore, fun u hu => ?_⟩
  rcases List.mem_cons.mp hu with rfl | hu
  · exact Option.isSome_of_eq_some (soundMiddle.id?_of_extends soundLater grows numbered)
  · exact others u hu

theorem Called.of_parts (parts : CalledAll t.kind.parts) : Called t := by
  intro table sound
  cases known : table.id? t with
  | some id =>
    obtain ⟨call, -, built⟩ := sound.exists_kind? (sound.id?_eq_some_iff.mp known)
    refine ⟨[call], [], ?_, ?_⟩
    · simp [TypeTable.requests, request, built]
    · rw [internTy_of_id? known]
      exact known
  | none =>
    obtain ⟨calls, ids, run, numbered⟩ := parts table sound
    obtain ⟨soundMiddle, -⟩ := sound.requests run
    obtain ⟨call, level⟩ := TyKind.exists_mapM numbered
    have back := TyKind.mapM_back level fun _ _ => soundMiddle.id?_eq_some_iff.mp
    have built : (table.addTys t.kind.parts).build? call = some t :=
      Option.map_eq_some_iff.mpr ⟨_, back, t.ty_kind⟩
    have last : (table.addTys t.kind.parts).request call = some (table.internTy t) := by
      rw [internTy_of_new known, ← internTy_of_parts numbered, request, built]
      rfl
    refine ⟨calls ++ [call], ids, requests_append run ?_, ?_⟩
    · simp [TypeTable.requests, last]
    · obtain ⟨soundLater, -, u, hu, here, -⟩ := soundMiddle.request last
      cases built.symm.trans hu
      exact soundLater.id?_eq_some_iff.mpr here

mutual

theorem called : ∀ t : Ty, Called t
  | .primitive _ | .named _ | .typeParam _ | .methodParam _ => .of_parts calledAll_nil
  | .inst _ args => .of_parts (calledAll args)
  | .vector t | .array t _ | .pointer t | .byRef t => .of_parts (.cons (called t) calledAll_nil)

theorem calledAll : ∀ ts : List Ty, CalledAll ts
  | [] => calledAll_nil
  | t :: ts => .cons (called t) (calledAll ts)

end

/-- The tables that calls fill. -/
def Reached (table : TypeTable) : Prop :=
  ∃ calls ids, requests {} calls = some (ids, table)

theorem Reached.sound (reached : table.Reached) : table.Sound := by
  obtain ⟨calls, ids, run⟩ := reached
  exact (sound_empty.requests run).1

theorem Reached.internTy (reached : table.Reached) (t : Ty) : (table.internTy t).2.Reached := by
  obtain ⟨more, moreIds, runMore, -⟩ := called t table reached.sound
  obtain ⟨calls, ids, run⟩ := reached
  exact ⟨calls ++ more, _, requests_append run runMore⟩

theorem Reached.addTys (reached : table.Reached) (ts : List Ty) : (table.addTys ts).Reached := by
  obtain ⟨more, moreIds, runMore, -⟩ := calledAll ts table reached.sound
  obtain ⟨calls, ids, run⟩ := reached
  exact ⟨calls ++ more, _, requests_append run runMore⟩

end TypeTable

/-- The types of a program were numbered by calls. -/
theorem Symbols.Made.types_reached {symbols : Symbols} (made : symbols.Made) :
    symbols.types.Reached := by
  induction made with
  | empty => exact ⟨[], [], rfl⟩
  | addAssembly _ _ _ ih | addModule _ _ _ ih | addType _ _ _ _ _ ih | addNestedType _ _ _ _ ih
  | setValueType _ _ _ ih | setContainsMetadata _ _ _ ih => exact ih
  | addField _ _ _ _ _ ih | setBase _ _ _ ih | internTy _ _ ih => exact ih.internTy _
  | addMethod _ _ _ _ _ _ _ ih | internMember _ _ ih => exact ih.addTys _

/-- Type ids are structural identity, forever. Whatever calls a program's types come from and
whatever calls follow, equal ids stand for equal types, an id keeps the kind it was given for, ids
count the distinct calls, and the parts of a type have smaller ids than the type. -/
theorem type_ids_structural {symbols : Symbols} (made : symbols.Made) {calls : List (TyKind TyId)}
    {ids : List TyId} {table : TypeTable}
    (answered : symbols.types.requests calls = some (ids, table)) :
    (∃ earlier earlierIds, TypeTable.requests {} earlier = some (earlierIds, symbols.types)) ∧
    (∀ earlier earlierIds, TypeTable.requests {} earlier = some (earlierIds, symbols.types) →
      table.Structural (earlier ++ calls) (earlierIds ++ ids)) ∧
    symbols.types.size ≤ table.size ∧
    ∀ id kind, symbols.types.kind? id = some kind → table.kind? id = some kind := by
  have reached := made.types_reached
  obtain ⟨sound, grows⟩ := reached.sound.requests answered
  refine ⟨reached, fun earlier earlierIds run => ?_, grows.size_le, fun id kind h => ?_⟩
  · have records := (TypeTable.records_empty.requests run).1
    exact (records.requests answered).1.structural
  · exact reached.sound.kind?_of_extends sound grows h

/-- A vector of a program, numbered again, in an instance of a generic type and in a type that
differs from that instance in an argument. -/
theorem type_ids_structural_sample :
    let symbols : Symbols := (Symbols.internTy {} (.vector .int32)).2
    let calls : List (TyKind TyId) :=
      [.primitive .int32, .vector ⟨0⟩, .inst ⟨3⟩ [⟨1⟩, ⟨0⟩], .inst ⟨3⟩ [⟨0⟩, ⟨1⟩], .inst ⟨3⟩ [⟨1⟩, ⟨0⟩]]
    symbols.types.size = 2 ∧
      ∃ table, table.size = 4 ∧
        symbols.types.requests calls = some ([⟨0⟩, ⟨1⟩, ⟨2⟩, ⟨3⟩, ⟨2⟩], table) ∧
        ∀ id kind, symbols.types.kind? id = some kind → table.kind? id = some kind := by
  intro symbols calls
  have made : symbols.Made := Symbols.Made.empty.internTy _
  have answered : symbols.types.requests calls = some ([⟨0⟩, ⟨1⟩, ⟨2⟩, ⟨3⟩, ⟨2⟩],
      ⟨[.int32, .vector .int32, .inst ⟨3⟩ [.vector .int32, .int32],
        .inst ⟨3⟩ [.int32, .vector .int32]]⟩) := by
    decide +kernel
  obtain ⟨-, -, -, kept⟩ := type_ids_structural made answered
  exact ⟨by decide +kernel, _, rfl, answered, kept⟩

end ManagedCode
