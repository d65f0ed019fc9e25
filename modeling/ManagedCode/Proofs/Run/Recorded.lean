import ManagedCode.Run.Execute

namespace ManagedCode

/-! Hosts that write down what they are asked. -/

/-- What executed code asks of its host. -/
inductive Interaction where
  | call (member : MemberRef) (receiver? : Option Value) (args : List Value)
  | load (member : MemberRef) (receiver? : Option Value)
  | store (member : MemberRef) (receiver? : Option Value) (value : Value)
  deriving DecidableEq, Inhabited

/-- A host and what it was asked, in order. -/
structure Recorded (σ : Type) where
  host : σ
  asked : List Interaction := []
  deriving DecidableEq, Inhabited

/-- An answer of the host to something that it is asked. -/
def Recorded.noting {σ α : Type} (asked : Interaction) (answer : EStateM RunError σ α) :
    EStateM RunError (Recorded σ) α := fun recorded =>
  match answer recorded.host with
  | .ok value host => .ok value ⟨host, recorded.asked ++ [asked]⟩
  | .error error host => .error error ⟨host, recorded.asked ++ [asked]⟩

/-- The host that answers as another one does and writes down what it was asked. -/
def Host.recorded {σ : Type} (host : Host σ) : Host (Recorded σ) where
  call member receiver? args :=
    Recorded.noting (.call member receiver? args) (host.call member receiver? args)
  load member receiver? := Recorded.noting (.load member receiver?) (host.load member receiver?)
  store member receiver? value :=
    Recorded.noting (.store member receiver? value) (host.store member receiver? value)

end ManagedCode
