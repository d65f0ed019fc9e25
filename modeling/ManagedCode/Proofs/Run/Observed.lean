import ManagedCode.Proofs.Run.Recorded
import ManagedCode.Proofs.Step

namespace ManagedCode

/-! Hosts that write down all that an execution does. -/

/-- Something that can be seen of an execution. -/
inductive Event where
  | executed (stmt : Stmt)
  | asked (interaction : Interaction)

/-- A host and what it saw of an execution, in order. -/
structure Observed (σ : Type) where
  host : σ
  events : List Event := []

def Event.interaction? : Event → Option Interaction
  | .executed _ => none
  | .asked interaction => some interaction

def Event.stmt? : Event → Option Stmt
  | .executed stmt => some stmt
  | .asked _ => none

namespace Observed

variable {σ α : Type}

/-- What the host was asked, in order. -/
def asked (observed : Observed σ) : List Interaction := observed.events.filterMap Event.interaction?

/-- The statements that were executed, in order. -/
def executed (observed : Observed σ) : List Stmt := observed.events.filterMap Event.stmt?

def note (event : Event) (observed : Observed σ) : Observed σ :=
  { observed with events := observed.events ++ [event] }

@[simp] theorem executed_note_executed (stmt : Stmt) (observed : Observed σ) :
    (observed.note (.executed stmt)).executed = observed.executed ++ [stmt] :=
  List.filterMap_append

@[simp] theorem executed_note_asked (interaction : Interaction) (observed : Observed σ) :
    (observed.note (.asked interaction)).executed = observed.executed :=
  List.filterMap_append.trans (List.append_nil _)

/-- An answer of the host to something that it is asked. -/
def noting (asked : Interaction) (answer : EStateM RunError σ α) :
    EStateM RunError (Observed σ) α := fun observed =>
  match answer observed.host with
  | .ok value host => .ok value ({ observed with host }.note (.asked asked))
  | .error error host => .error error ({ observed with host }.note (.asked asked))

/-- The host answers as it does, and one entry is added. -/
theorem noting_eq (asked : Interaction) {answer : EStateM RunError σ α} {observed : Observed σ}
    {r : Except RunError α} {host : σ} (h : answer observed.host = reached r host) :
    noting asked answer observed = reached r ({ observed with host }.note (.asked asked)) := by
  unfold noting
  rw [h]
  cases r <;> rfl

end Observed

/-- The host that answers as another one does and writes down what it was asked. -/
def Host.observed {σ : Type} (host : Host σ) : Host (Observed σ) where
  call member receiver? args :=
    Observed.noting (.call member receiver? args) (host.call member receiver? args)
  load member receiver? := Observed.noting (.load member receiver?) (host.load member receiver?)
  store member receiver? value :=
    Observed.noting (.store member receiver? value) (host.store member receiver? value)

/-- Executions in which everything that is executed or asked for is written down. -/
def Environment.observing {σ : Type} (host : Host σ) (methods : List SynthesizedMethod) :
    Environment (Observed σ) where
  host := host.observed
  methods := methods
  watch stmt := Observed.note (.executed stmt)

end ManagedCode
