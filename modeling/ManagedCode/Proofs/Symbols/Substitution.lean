import ManagedCode.Proofs.Symbols.TypeIds
import ManagedCode.Symbols.TypeMap

namespace ManagedCode

namespace TyKind

variable {α β γ : Type}

/-- The level over what its parts are mapped to. -/
def map (f : α → β) : TyKind α → TyKind β
  | .primitive p => .primitive p
  | .named d => .named d
  | .inst d args => .inst d (args.map f)
  | .typeParam i => .typeParam i
  | .methodParam i => .methodParam i
  | .vector t => .vector (f t)
  | .array t rank => .array (f t) rank
  | .pointer t => .pointer (f t)
  | .byRef t => .byRef (f t)

/-- What a level says apart from its parts: of which form it is, and how many parts it has. -/
def frame (kind : TyKind α) : TyKind Unit := kind.map fun _ => ()

@[simp] theorem parts_map (f : α → β) (kind : TyKind α) : (kind.map f).parts = kind.parts.map f := by
  cases kind <;> rfl

@[simp] theorem map_map (f : α → β) (g : β → γ) (kind : TyKind α) :
    (kind.map f).map g = kind.map fun a => g (f a) := by
  cases kind <;> simp [map]

@[simp] theorem frame_map (f : α → β) (kind : TyKind α) : (kind.map f).frame = kind.frame :=
  map_map f _ kind

theorem map_congr {f g : α → β} {kind : TyKind α} (same : ∀ a ∈ kind.parts, f a = g a) :
    kind.map f = kind.map g := by
  cases kind with
  | inst d args => exact congrArg (inst d) (List.map_congr_left same)
  | primitive | named | typeParam | methodParam => rfl
  | vector | array | pointer | byRef => simp only [map, same _ List.mem_cons_self]

theorem map_id {f : α → α} {kind : TyKind α} (same : ∀ a ∈ kind.parts, f a = a) :
    kind.map f = kind := by
  rw [map_congr (g := id) same]
  cases kind <;> simp [map]

/-- A level is known from its frame and its parts. -/
theorem eq_of_frame_of_parts {kind kind' : TyKind α} (frames : kind.frame = kind'.frame)
    (parts : kind.parts = kind'.parts) : kind = kind' := by
  cases kind <;> cases kind' <;> simp_all [frame, map, TyKind.parts]

end TyKind

namespace Ty

mutual

/-- What holds of a type if it holds of its parts holds of every type. -/
theorem induction_on_parts {P : Ty → Prop} (step : ∀ t : Ty, (∀ p ∈ t.kind.parts, P p) → P t) :
    ∀ t, P t
  | .primitive _ | .named _ | .typeParam _ | .methodParam _ => step _ nofun
  | .inst _ args => step _ (induction_on_args step args)
  | .vector t | .array t _ | .pointer t | .byRef t =>
    step _ fun _ hp => List.mem_singleton.mp hp ▸ induction_on_parts step t

theorem induction_on_args {P : Ty → Prop} (step : ∀ t : Ty, (∀ p ∈ t.kind.parts, P p) → P t) :
    ∀ ts : List Ty, ∀ t ∈ ts, P t
  | [] => nofun
  | t :: ts => List.forall_mem_cons.mpr ⟨induction_on_parts step t, induction_on_args step ts⟩

end

/-- The part of a type at the end of a path, which says at each level which part to take. -/
def part? (t : Ty) : List Nat → Option Ty
  | [] => some t
  | i :: path => t.kind.parts[i]?.bind fun p => p.part? path

/-- Whether a type is a parameter of a generic type or method. -/
def isParameter : Ty → Bool
  | .typeParam _ | .methodParam _ => true
  | _ => false

end Ty

namespace TypeMap

variable {map outer inner : TypeMap} {t u : Ty}

/-- The argument for a type, if it is a parameter that has one. -/
def argument? (map : TypeMap) : Ty → Option Ty
  | .typeParam i => map.typeArgs[i]?
  | .methodParam i => map.methodArgs[i]?
  | _ => none

theorem substituteAll_eq (map : TypeMap) (ts : List Ty) :
    map.substituteAll ts = ts.map map.substitute := by
  induction ts with
  | nil => rfl
  | cons t ts ih => rw [substituteAll, ih, List.map_cons]

/-- Substitution looks at one level at a time: a parameter gives way to its argument, any other
level stays around what becomes of its parts. -/
theorem substitute_eq (map : TypeMap) (t : Ty) :
    map.substitute t = (map.argument? t).getD (t.kind.map map.substitute).ty := by
  cases t <;> simp [substitute, argument?, substituteAll_eq, Ty.kind, TyKind.map, TyKind.ty,
    List.getD_eq_getElem?_getD]

theorem substitute_of_argument {a : Ty} (h : map.argument? t = some a) : map.substitute t = a := by
  rw [substitute_eq, h, Option.getD_some]

theorem kind_substitute (h : map.argument? t = none) :
    (map.substitute t).kind = t.kind.map map.substitute := by
  rw [substitute_eq, h, Option.getD_none, TyKind.kind_ty]

/-- Parameters have no parts. -/
theorem argument?_of_part {i : Nat} {p : Ty} (h : t.kind.parts[i]? = some p) :
    map.argument? t = none := by
  cases t <;> first | rfl | cases h

/-- Wherever one type has a parameter with an argument, the other has that argument, and wherever
else one type has something, the other has something of the same form. -/
structure Replaces (map : TypeMap) (t u : Ty) : Prop where
  replaced : ∀ {path p a}, t.part? path = some p → map.argument? p = some a → u.part? path = some a
  kept : ∀ {path p}, t.part? path = some p → map.argument? p = none →
    ∃ q, u.part? path = some q ∧ q.kind.frame = p.kind.frame

theorem replaces_substitute (map : TypeMap) (t : Ty) : map.Replaces t (map.substitute t) := by
  have deeper : ∀ {t p : Ty} {i : Nat} {path}, t.kind.parts[i]? = some p →
      (map.substitute t).part? (i :: path) = (map.substitute p).part? path := by
    intro t p i path h
    simp [Ty.part?, kind_substitute (argument?_of_part h), h]
  constructor
  · intro path
    induction path generalizing t with
    | nil =>
      intro p a hp ha
      cases hp
      exact congrArg some (substitute_of_argument ha)
    | cons i path ih =>
      intro p a hp ha
      obtain ⟨s, hs, hp⟩ := Option.bind_eq_some_iff.mp hp
      rw [deeper hs]
      exact ih s hp ha
  · intro path
    induction path generalizing t with
    | nil =>
      intro p hp none_
      cases hp
      exact ⟨_, rfl, by rw [kind_substitute none_, TyKind.frame_map]⟩
    | cons i path ih =>
      intro p hp none_
      obtain ⟨s, hs, hp⟩ := Option.bind_eq_some_iff.mp hp
      rw [deeper hs]
      exact ih s hp none_

/-- What a type says at every place leaves no choice. -/
theorem Replaces.eq (h : map.Replaces t u) : u = map.substitute t := by
  induction t using Ty.induction_on_parts generalizing u with
  | step t ih =>
    have here : t.part? [] = some t := rfl
    cases arg : map.argument? t with
    | some a =>
      rw [substitute_of_argument arg]
      exact Option.some.inj (h.replaced here arg)
    | none =>
      obtain ⟨_, same, frames⟩ := h.kept here arg
      cases same
      have below : ∀ (i : Nat) (p q : Ty), t.kind.parts[i]? = some p → u.kind.parts[i]? = some q →
          map.Replaces p q := by
        intro i p q hp hq
        have at_ : ∀ path, t.part? (i :: path) = p.part? path ∧ u.part? (i :: path) = q.part? path :=
          fun path => ⟨by simp [Ty.part?, hp], by simp [Ty.part?, hq]⟩
        refine ⟨fun {path _ _} hpart ha => ?_, fun {path _} hpart none_ => ?_⟩
        · rw [← (at_ path).2]
          exact h.replaced ((at_ path).1.trans hpart) ha
        · rw [← (at_ path).2]
          exact h.kept ((at_ path).1.trans hpart) none_
      have sizes : u.kind.parts.length = t.kind.parts.length := by
        have := congrArg (fun kind => kind.parts.length) frames
        simpa [TyKind.frame] using this
      rw [← u.ty_kind, ← (map.substitute t).ty_kind, kind_substitute arg]
      refine congrArg TyKind.ty (TyKind.eq_of_frame_of_parts ?_ ?_)
      · rw [frames, TyKind.frame_map]
      · rw [TyKind.parts_map]
        refine List.ext_getElem (by rw [sizes, List.length_map]) fun i hi hi' => ?_
        rw [List.getElem_map]
        have inside : i < t.kind.parts.length := sizes ▸ hi
        exact ih _ (List.getElem_mem inside)
          (below i _ _ (List.getElem?_eq_getElem inside) (List.getElem?_eq_getElem hi))

/-- No parameter in a type has an argument. -/
def Leaves (map : TypeMap) (t : Ty) : Prop :=
  ∀ path p, t.part? path = some p → map.argument? p = none

/-- Every parameter in a type has an argument. -/
def Covers (map : TypeMap) (t : Ty) : Prop :=
  ∀ path p, t.part? path = some p → p.isParameter → (map.argument? p).isSome

theorem mem_parts_part? {p : Ty} (h : p ∈ t.kind.parts) :
    ∃ i : Nat, ∀ path, t.part? (i :: path) = p.part? path := by
  obtain ⟨i, at_⟩ := List.getElem?_of_mem h
  exact ⟨i, fun path => by simp [Ty.part?, at_]⟩

theorem Leaves.part {p : Ty} (h : map.Leaves t) (hp : p ∈ t.kind.parts) : map.Leaves p := by
  obtain ⟨i, at_⟩ := mem_parts_part? hp
  exact fun path q hq => h _ q ((at_ path).trans hq)

theorem Covers.part {p : Ty} (h : map.Covers t) (hp : p ∈ t.kind.parts) : map.Covers p := by
  obtain ⟨i, at_⟩ := mem_parts_part? hp
  exact fun path q hq => h _ q ((at_ path).trans hq)

theorem Covers.of_parts (here : t.isParameter → (map.argument? t).isSome)
    (parts : ∀ p ∈ t.kind.parts, map.Covers p) : map.Covers t
  | [], _, hp, parameter => by
    cases hp
    exact here parameter
  | _ :: path, q, hq, parameter => by
    obtain ⟨p, hp, hq⟩ := Option.bind_eq_some_iff.mp hq
    exact parts p (List.mem_of_getElem? hp) path q hq parameter

/-- A type without parameters that have arguments stays as it is. -/
theorem substitute_of_leaves (h : map.Leaves t) : map.substitute t = t := by
  induction t using Ty.induction_on_parts with
  | step t ih =>
    rw [substitute_eq, h [] t rfl, Option.getD_none,
      TyKind.map_id fun p hp => ih p hp (h.part hp), Ty.ty_kind]

theorem leaves_of_isEmpty (h : map.isEmpty) (t : Ty) : map.Leaves t := by
  obtain ⟨types, methods⟩ := Bool.and_eq_true_iff.mp h
  rw [List.isEmpty_iff] at types methods
  intro path p _
  cases p <;> simp [argument?, types, methods]

/-- The arguments of one map, each with those of another put in. -/
def andThen (inner outer : TypeMap) : TypeMap where
  typeArgs := inner.typeArgs.map outer.substitute
  methodArgs := inner.methodArgs.map outer.substitute

theorem argument?_andThen (inner outer : TypeMap) (t : Ty) :
    (inner.andThen outer).argument? t = (inner.argument? t).map outer.substitute := by
  cases t <;> simp [argument?, andThen]

/-- To substitute twice is to substitute once, with arguments in which the second substitution was
made, as long as the first leaves no parameter. -/
theorem substitute_substitute (covered : inner.Covers t) :
    outer.substitute (inner.substitute t) = (inner.andThen outer).substitute t := by
  induction t using Ty.induction_on_parts with
  | step t ih =>
    cases arg : inner.argument? t with
    | some a =>
      have arg' : (inner.andThen outer).argument? t = some (outer.substitute a) := by
        rw [argument?_andThen, arg, Option.map_some]
      rw [substitute_of_argument arg, substitute_of_argument arg']
    | none =>
      have arg' : (inner.andThen outer).argument? t = none := by
        rw [argument?_andThen, arg, Option.map_none]
      have constant : ¬t.isParameter := fun parameter => by
        have := covered [] t rfl parameter
        rw [arg] at this
        cases this
      have arg'' : outer.argument? (inner.substitute t) = none := by
        cases t <;> first | rfl | exact absurd rfl constant
      rw [← Ty.ty_kind (outer.substitute _), kind_substitute arg'', kind_substitute arg,
        TyKind.map_map, TyKind.map_congr fun p hp => ih p hp (covered.part hp), ← kind_substitute arg',
        Ty.ty_kind]

end TypeMap

end ManagedCode
