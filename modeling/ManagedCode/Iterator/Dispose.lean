import ManagedCode.Iterator.Step

namespace ManagedCode

namespace Dispose

/-- Making code that needs new ids, as long as there are any. -/
abbrev DisposeM := StateT FreshIds Option

def freshLabel : DisposeM LabelId := FreshIds.label?

def freshTry : DisposeM TryId := FreshIds.tryId?

/-- Runs `body` and then, whatever happens there, the handler of a frame. -/
def withHandler (handler? : Option SynthMethodId) (body : List Stmt) :
    DisposeM (List Stmt) := do
  match handler? with
  | none => return body
  | some handler =>
    let id ← freshTry
    return [.tryCatch id body [] (some [.expr (.callSynthesized handler)])]

/-- Runs what is due under a frame and then its handler. The children are told apart by the state
that the local `cached` holds; `depth` bounds how deep frames nest. -/
def frameDispatch (frames : FrameTree) (cached : LocalId) :
    Nat → FrameId → DisposeM (List Stmt)
  | 0, _ => return []
  | depth + 1, frame => do
    let handler? := (frames.frame frame).handler?
    let children := frames.childrenByState frame
    if children.isEmpty then
      withHandler handler? []
    else
      let done ← freshLabel
      let sections ← children.mapM fun (child, states) => do
        let label ← freshLabel
        let inner ← frameDispatch frames cached depth child
        return (states.map fun state => (Int64.ofInt state, label),
          .label label :: inner ++ [.goto done])
      withHandler handler?
        (.switch (.local cached) (sections.flatMap (·.1)) none :: .goto done ::
          sections.flatMap (·.2) ++ [.label done])

/-- The dispose method: runs the handlers of the frames around the state the machine is in,
innermost first, and ends the machine. -/
def build (frames : FrameTree) : DisposeM Body := do
  let cached : LocalId := ⟨0⟩
  let dispatch ← frameDispatch frames cached frames.frames.length FrameTree.root
  return {
    locals := [{ name := none, ty := .int32 }]
    root :=
      .assign (.local cached) (.machineField stateField) :: dispatch ++
        [setState finishedState, .ret none] }

end Dispose

end ManagedCode
