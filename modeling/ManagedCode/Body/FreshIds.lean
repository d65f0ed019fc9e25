import ManagedCode.Body.Tree

namespace ManagedCode

/-- Ids and slots are 32-bit numbers: they lie below this. -/
def idLimit : Nat := 0x100000000

/-- The label and try ids that are not in use yet: those from the two counts on. -/
structure FreshIds where
  labelCount : Nat := 0
  tryCount : Nat := 0
  deriving DecidableEq, Inhabited

namespace FreshIds

/-- The ids that go on after those of `body`. -/
def after (body : Body) : FreshIds := ⟨body.labelCount, body.tryCount⟩

variable (ids : FreshIds)

/-- The next label, unless the count after it is too large. -/
def label? : Option (LabelId × FreshIds) :=
  if ids.labelCount + 1 < idLimit then
    some (⟨ids.labelCount⟩, { ids with labelCount := ids.labelCount + 1 })
  else
    none

/-- The next try id, unless the count after it is too large. -/
def tryId? : Option (TryId × FreshIds) :=
  if ids.tryCount + 1 < idLimit then
    some (⟨ids.tryCount⟩, { ids with tryCount := ids.tryCount + 1 })
  else
    none

end FreshIds

end ManagedCode
