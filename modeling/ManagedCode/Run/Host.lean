import ManagedCode.Run.Value

namespace ManagedCode

/-- What answers calls and field accesses that leave the executed code. A host throws by failing
with `RunError.thrown`. -/
structure Host (σ : Type) where
  call : MemberRef → Option Value → List Value → EStateM RunError σ Value
  load : MemberRef → Option Value → EStateM RunError σ Value
  store : MemberRef → Option Value → Value → EStateM RunError σ Unit

/-- A visible access other than a plain static call. -/
inductive Access where
  | callOn (receiver : Value)
  | load (receiver? : Option Value)
  | store (receiver? : Option Value)
  deriving DecidableEq, Inhabited

/-- A host that keeps a record, with the latest entry first, and answers as it was told to. -/
structure Script where
  recentCalls : List (MemberRef × List Value) := []
  recentAccesses : List Access := []
  /-- Methods whose calls throw their first argument, or 0 if they have none. -/
  throwing : List MemberRef := []
  /-- The answers of methods that do not answer `unit`. -/
  answers : List (MemberRef × Value) := []
  fields : List (MemberRef × Value) := []
  deriving DecidableEq, Inhabited

namespace Script

/-- The calls in the order in which they were made. -/
def calls (script : Script) : List (MemberRef × List Value) := script.recentCalls.reverse

/-- The accesses in the order in which they were made. -/
def accesses (script : Script) : List Access := script.recentAccesses.reverse

def recordCall (script : Script) (member : MemberRef) (args : List Value) : Script :=
  { script with recentCalls := (member, args) :: script.recentCalls }

def recordAccess (script : Script) (access : Access) : Script :=
  { script with recentAccesses := access :: script.recentAccesses }

def setField (script : Script) (member : MemberRef) (value : Value) : Script :=
  { script with
    fields := script.fields.map fun (m, v) => if m = member then (m, value) else (m, v) }

/-- How often a method was called. -/
def count (script : Script) (member : MemberRef) : Nat :=
  script.recentCalls.countP (·.1 = member)

/-- A call is recorded before it throws or answers. -/
def host : Host Script where
  call member receiver? args := do
    modify (·.recordCall member args)
    if let some receiver := receiver? then
      modify (·.recordAccess (.callOn receiver))
    let script ← get
    if member ∈ script.throwing then
      throw (.thrown (args.headD (.int 0)))
    return (script.answers.lookup member).getD .unit
  load member receiver? := do
    modify (·.recordAccess (.load receiver?))
    match (← get).fields.lookup member with
    | some value => return value
    | none => throw (.unsupported .fieldLoad)
  store member receiver? value := do
    modify (·.recordAccess (.store receiver?))
    if ((← get).fields.lookup member).isSome then
      modify (·.setField member value)
    else
      throw (.unsupported .fieldStore)

end Script

end ManagedCode
