import Mathlib.Data.List.Forall2
import Mathlib.Data.List.Nodup

namespace ManagedCode

/-- In a list without duplicates an element is at its index. -/
theorem idxOf?_eq_some_iff_of_nodup {α : Type} [DecidableEq α] {l : List α} (distinct : l.Nodup)
    {a : α} {i : Nat} : l.idxOf? a = some i ↔ l[i]? = some a := by
  rw [List.idxOf?_eq_some_iff]
  constructor
  · rintro ⟨inside, here, -⟩
    rw [List.getElem?_eq_getElem inside, here]
  · intro here
    obtain ⟨inside, rfl⟩ := List.getElem?_eq_some_iff.mp here
    refine ⟨inside, rfl, fun j hj same => ?_⟩
    have := (List.Nodup.getElem_inj_iff distinct).mp same
    omega

theorem eraseDups_of_nodup {α : Type} [DecidableEq α] {l : List α} (distinct : l.Nodup) :
    l.eraseDups = l := by
  induction l with
  | nil => rfl
  | cons a l ih =>
    obtain ⟨absent, rest⟩ := List.nodup_cons.mp distinct
    have kept : l.filter (fun b => !b == a) = l :=
      List.filter_eq_self.mpr fun b hb => by
        have other : b ≠ a := fun same => absent (same ▸ hb)
        simpa using other
    rw [List.eraseDups_cons, kept, ih rest]

/-- An element that the first part of a list has does not count in the second part. -/
theorem eraseDups_append_cons_of_mem {α : Type} [DecidableEq α] {l : List α} {a : α} (ha : a ∈ l)
    (l' : List α) : (l ++ a :: l').eraseDups = (l ++ l').eraseDups := by
  rw [List.eraseDups_append, List.eraseDups_append]
  have removed : (a :: l').removeAll l = l'.removeAll l := by
    simp [List.removeAll, ha]
  rw [removed]

theorem forall₂_getElem? {α β : Type} {R : α → β → Prop} {as : List α} {bs : List β}
    (h : List.Forall₂ R as bs) {i : Nat} {a : α} (ha : as[i]? = some a) :
    ∃ b, bs[i]? = some b ∧ R a b := by
  induction h generalizing i with
  | nil => cases ha
  | cons hr _ ih =>
    cases i with
    | zero => cases ha; exact ⟨_, rfl, hr⟩
    | succ i => exact ih ha

theorem forall₂_mem_right {α β : Type} {R : α → β → Prop} {as : List α} {bs : List β}
    (h : List.Forall₂ R as bs) {b : β} (hb : b ∈ bs) : ∃ a ∈ as, R a b := by
  obtain ⟨i, at_⟩ := List.getElem?_of_mem hb
  obtain ⟨a, here, related⟩ := forall₂_getElem? h.flip at_
  exact ⟨a, List.mem_of_getElem? here, related⟩

/-- An action that may fail gives all its results if it gives one for each element. -/
theorem mapM_eq_some_iff_forall₂ {α β : Type} {f : α → Option β} {l : List α} {l' : List β} :
    l.mapM f = some l' ↔ List.Forall₂ (fun a b => f a = some b) l l' := by
  induction l generalizing l' with
  | nil =>
    rw [List.mapM_nil, List.forall₂_nil_left_iff]
    exact ⟨fun h => (Option.some.inj h).symm, fun h => h ▸ rfl⟩
  | cons a l ih =>
    rw [List.mapM_cons, List.forall₂_cons_left_iff]
    constructor
    · intro h
      obtain ⟨b, hb, h⟩ := Option.bind_eq_some_iff.mp h
      obtain ⟨bs, hbs, h⟩ := Option.bind_eq_some_iff.mp h
      exact ⟨b, bs, hb, ih.mp hbs, (Option.some.inj h).symm⟩
    · rintro ⟨b, bs, hb, hbs, rfl⟩
      rw [hb, ih.mpr hbs]
      rfl

theorem exists_mapM_eq_some {α β : Type} {f : α → Option β} {l : List α}
    (defined : ∀ a ∈ l, (f a).isSome) : ∃ l', l.mapM f = some l' := by
  induction l with
  | nil => exact ⟨[], rfl⟩
  | cons a l ih =>
    obtain ⟨b, hb⟩ := Option.isSome_iff_exists.mp (defined a List.mem_cons_self)
    obtain ⟨bs, hbs⟩ := ih fun c hc => defined c (List.mem_cons_of_mem _ hc)
    exact ⟨b :: bs, mapM_eq_some_iff_forall₂.mpr (.cons hb (mapM_eq_some_iff_forall₂.mp hbs))⟩

/-! Lists without duplicates that were made from others. -/

theorem nodup_mapIdx {α β : Type} {f : Nat → α → β} {l : List α}
    (injective : ∀ {i j a b}, l[i]? = some a → l[j]? = some b → f i a = f j b → i = j) :
    (l.mapIdx f).Nodup := by
  apply List.pairwise_iff_getElem.mpr
  intro i j hi hj less same
  rw [List.length_mapIdx] at hi hj
  rw [List.getElem_mapIdx, List.getElem_mapIdx] at same
  have here := injective (List.getElem?_eq_getElem hi) (List.getElem?_eq_getElem hj) same
  omega

/-- What is kept of a list without duplicates comes from one place only. -/
theorem eq_of_nodup_filterMap {α β : Type} {f : α → Option β} {l : List α}
    (distinct : (l.filterMap f).Nodup) {i j : Nat} {a b : α} {x : β} (ha : l[i]? = some a)
    (hb : l[j]? = some b) (hx : f a = some x) (hx' : f b = some x) : i = j := by
  have apart := List.pairwise_iff_getElem.mp (List.pairwise_filterMap.mp distinct)
  obtain ⟨hi, rfl⟩ := List.getElem?_eq_some_iff.mp ha
  obtain ⟨hj, rfl⟩ := List.getElem?_eq_some_iff.mp hb
  rcases Nat.lt_trichotomy i j with less | same | less
  · exact absurd rfl (apart i j hi hj less x hx x hx')
  · exact same
  · exact absurd rfl (apart j i hj hi less x hx' x hx)

/-! Lists put behind one another. -/

section

variable {α β : Type} {l : List α} {g : α → List β} {i : Nat} {a : α}

theorem flatMap_take_succ (ha : l[i]? = some a) :
    (l.take (i + 1)).flatMap g = (l.take i).flatMap g ++ g a := by
  obtain ⟨inside, rfl⟩ := List.getElem?_eq_some_iff.mp ha
  rw [← List.take_append_getElem inside, List.flatMap_append]
  simp

theorem flatMap_eq_take_append (l : List α) (g : α → List β) (i : Nat) :
    l.flatMap g = (l.take i).flatMap g ++ (l.drop i).flatMap g := by
  rw [← List.flatMap_append, List.take_append_drop]

/-- The elements of one list come behind those of the lists before it. -/
theorem getElem?_flatMap (ha : l[i]? = some a) {k : Nat} {b : β} (hb : (g a)[k]? = some b) :
    (l.flatMap g)[((l.take i).flatMap g).length + k]? = some b := by
  have inside := (List.getElem?_eq_some_iff.mp hb).1
  rw [flatMap_eq_take_append l g (i + 1), flatMap_take_succ ha, List.append_assoc,
    List.getElem?_append_right (Nat.le_add_right _ k), Nat.add_sub_cancel_left,
    List.getElem?_append_left inside, hb]

end

end ManagedCode
