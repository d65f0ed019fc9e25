import ManagedCode.Iterator.Machine

namespace ManagedCode

structure FrameId where
  index : Nat
  deriving DecidableEq, Inhabited

/-- A try statement that suspends. -/
structure Frame where
  /-- The frames around this one, innermost first; the last is the root. -/
  ancestors : List FrameId := []
  /-- The state of the machine while it runs directly in this frame. -/
  finalizeState : Int := runningState
  handler? : Option SynthMethodId := none
  /-- The states of all frames below this one, with the child each lies under. -/
  knownStates : List (Int × FrameId) := []
  /-- For each target outside the frame the label that runs the handler first. -/
  proxies : List (LabelId × LabelId) := []
  definedLabels : List LabelId := []
  deriving DecidableEq, Inhabited

/-- Sets the value of a key, which keeps its place if it is already there. -/
def insertPair {α β : Type} [DecidableEq α] (key : α) (value : β) : List (α × β) → List (α × β)
  | [] => [(key, value)]
  | (k, v) :: rest =>
    if k = key then (key, value) :: rest else (k, v) :: insertPair key value rest

/-- The frames of a body. Frame 0 is the root and stands for the body itself. -/
structure FrameTree where
  frames : List Frame := [{}]
  deriving DecidableEq, Inhabited

namespace FrameTree

def root : FrameId := ⟨0⟩

variable (tree : FrameTree)

def frame (id : FrameId) : Frame := tree.frames.getD id.index default

def modify (id : FrameId) (f : Frame → Frame) : FrameTree :=
  { tree with frames := tree.frames.modify id.index f }

/-- Tells every frame around `id` under which of its children `state` lies. -/
def addState (id : FrameId) (state : Int) : FrameTree :=
  let path := id :: (tree.frame id).ancestors
  (path.zip path.tail).foldl
    (fun tree (child, parent) =>
      tree.modify parent fun f => { f with knownStates := insertPair state child f.knownStates })
    tree

/-- Adds a child of `parent` and makes its finalize state known around it. -/
def push (parent : FrameId) (finalizeState : Int) (handler : SynthMethodId)
    (definedLabels : List LabelId) : FrameId × FrameTree :=
  let id : FrameId := ⟨tree.frames.length⟩
  let frame : Frame :=
    { ancestors := parent :: (tree.frame parent).ancestors
      finalizeState
      handler? := some handler
      definedLabels }
  (id, { tree with frames := tree.frames ++ [frame] : FrameTree }.addState id finalizeState)

/-- A jump to `target` from directly inside frame `id` needs no proxy. -/
def reaches (id : FrameId) (target : LabelId) : Bool :=
  (tree.frame id).ancestors.isEmpty || target ∈ (tree.frame id).definedLabels

def proxy? (id : FrameId) (target : LabelId) : Option LabelId :=
  (tree.frame id).proxies.lookup target

def addProxy (id : FrameId) (target proxy : LabelId) : FrameTree :=
  tree.modify id fun f => { f with proxies := f.proxies ++ [(target, proxy)] }

def takeProxies (id : FrameId) : List (LabelId × LabelId) × FrameTree :=
  ((tree.frame id).proxies, tree.modify id fun f => { f with proxies := [] })

/-- The children of a frame in the order of their first state, each with the states under it. -/
def childrenByState (id : FrameId) : List (FrameId × List Int) :=
  (tree.frame id).knownStates.foldl
    (fun groups (state, child) =>
      insertPair child ((groups.lookup child).getD [] ++ [state]) groups)
    []

end FrameTree

end ManagedCode
