import ManagedCode.Intern
import ManagedCode.Proofs.Lists

namespace ManagedCode

namespace InternTable

variable {α : Type} {table later : InternTable α} {value : α} {id : Nat}

/-- A later table holds what an earlier one held, under the same numbers. -/
def Extends (table later : InternTable α) : Prop :=
  table.entries <+: later.entries

theorem Extends.refl (table : InternTable α) : table.Extends table :=
  List.prefix_rfl

theorem Extends.trans {first second third : InternTable α} (h : first.Extends second)
    (h' : second.Extends third) : first.Extends third :=
  List.IsPrefix.trans h h'

theorem Extends.size_le (h : table.Extends later) : table.size ≤ later.size :=
  h.length_le

theorem Extends.get? (h : table.Extends later) (held : table.get? id = some value) :
    later.get? id = some value := by
  obtain ⟨inside, -⟩ := List.getElem?_eq_some_iff.mp held
  obtain ⟨added, hadded⟩ := h
  rw [InternTable.get?, ← hadded, List.getElem?_append_left inside]
  exact held

theorem get?_isSome_iff : (table.get? id).isSome ↔ id < table.size := by
  simp [InternTable.get?, size]

variable [DecidableEq α]

/-- Numbers and values are each other's inverses. -/
theorem lookup?_eq_some_iff (distinct : table.entries.Nodup) :
    table.lookup? value = some id ↔ table.get? id = some value :=
  idxOf?_eq_some_iff_of_nodup distinct

theorem intern_of_lookup? (known : table.lookup? value = some id) :
    table.intern value = (id, table) := by
  simp [intern, known]

theorem intern_of_new (new : table.lookup? value = none) :
    table.intern value = (table.size, ⟨table.entries ++ [value]⟩) := by
  simp [intern, new]

theorem nodup_append_of_new (distinct : table.entries.Nodup) (new : table.lookup? value = none) :
    (table.entries ++ [value]).Nodup := by
  rw [← List.concat_eq_append]
  exact distinct.concat (List.idxOf?_eq_none_iff.mp new)

end InternTable

end ManagedCode
