namespace ManagedCode

/-- Why work that was handed to workers has no result. -/
inductive WorkFault where
  | cancelled
  | broken
  deriving DecidableEq, Inhabited

def WorkFault.message : WorkFault → String
  | .cancelled => "emission cancelled"
  | .broken => "worker thread panicked"

namespace FanOut

variable {α β : Type} {m : Type → Type} [Monad m]

/-- The items in consecutive chunks of the given size, of which the last may be shorter. -/
def chunks (size : Nat) : List α → List (List α)
  | [] => []
  | item :: items => (item :: items.take (size - 1)) :: chunks size (items.drop (size - 1))
termination_by items => items.length
decreasing_by
  simp only [List.length_drop, List.length_cons]
  omega

/-- How many items a worker gets when they are shared as evenly as chunks allow. -/
def chunkSize (items workers : Nat) : Nat :=
  (items + (max workers 1 - 1)) / max workers 1

/-- The share of one worker, who looks before each item whether work was cancelled and stops at
an item that breaks. -/
def runChunk (cancelled : Bool) (work : α → m (Option β)) : List α → m (Except WorkFault (List β))
  | [] => return .ok []
  | item :: items =>
    if cancelled then
      return .error .cancelled
    else do
      match ← work item with
      | none => return .error .broken
      | some result => return (result :: ·) <$> (← runChunk cancelled work items)

end FanOut

open FanOut in
/-- The results of all items in their order. Every worker ends before the first failure, in the
order of the chunks, is reported.

The workers run one after another, each in the state that the one before it left, and whether work
was cancelled is settled for the whole call. How workers at the same time interleave, and that they
may be cancelled on the way, is not described. -/
def fanOut {α β : Type} {m : Type → Type} [Monad m] (workers : Nat) (cancelled : Bool)
    (work : α → m (Option β)) (items : List α) : m (Except WorkFault (List β)) := do
  let shares := chunks (chunkSize items.length workers) items
  let results ← shares.mapM (runChunk cancelled work)
  return do return (← results.mapM id).flatten

end ManagedCode
