import ManagedCode.Metadata.ArrayMethod
import ManagedCode.Metadata.Target
import ManagedCode.Metadata.TokenTable

namespace ManagedCode

/-- What the emission of one module has collected so far. -/
structure Session where
  tokens : TokenTable := {}
  /-- Every reference visited in any way, with or without a token. -/
  seen : List RefKey := []
  arrayMethods : ArrayMethodCache := {}
  deriving DecidableEq, Inhabited

/-- A step of emission. What it did before it failed stays done. -/
abbrev Emit := EStateM Fault Session

namespace Session

variable (target : Target) (session : Session)

def hasSeen (key : RefKey) : Bool := key ∈ session.seen

/-- The token of a definition of the module or of a reference that has one. -/
def lookup? (key : RefKey) : Option Token :=
  target.definition? key <|> session.tokens.get? key

/-- The token of a definition or reference. -/
def lookup (key : RefKey) : Except Fault Token :=
  match session.lookup? target key with
  | some token => .ok token
  | none => .error (.missingToken key)

end Session

namespace Emit

/-- Records a visit; says whether it is the first. -/
def markSeen (key : RefKey) : Emit Bool := do
  if (← get).hasSeen key then
    return false
  modify fun session => { session with seen := session.seen ++ [key] }
  return true

/-- A step that concerns the tokens alone. -/
def onTokens {α : Type} (step : EStateM Fault TokenTable α) : Emit α := fun session =>
  match step session.tokens with
  | .ok a tokens => .ok a { session with tokens }
  | .error fault tokens => .error fault { session with tokens }

/-- Files a reference in a table unless it has a token already. -/
def reserveIn (key : RefKey) (table : TableKind) : Emit Token :=
  onTokens (TokenTable.reserve key table)

/-- Gives a visited reference its token. -/
def reserve (key : RefKey) : Emit Unit := do
  discard <| markSeen key
  discard <| reserveIn key key.table

/-- The token of a definition or reference, which gets one if it had none. -/
def token (target : Target) (key : RefKey) : Emit Token :=
  match target.definition? key with
  | some token => return token
  | none => reserveIn key key.table

def arrayMethod (kind : ArrayMethodKind) (arrayTy : Ty) : Emit ArrayMethod := do
  match (← get).arrayMethods.get kind arrayTy with
  | .ok (method, arrayMethods) =>
    modify fun session => { session with arrayMethods }
    return method
  | .error misuse => throw (.misuse misuse)

/-- Runs a visit unless the reference has its token. -/
def unlessReserved (key : RefKey) (visit : Emit Unit) : Emit Unit := do
  unless (← get).tokens.contains key do
    visit

end Emit

end ManagedCode
