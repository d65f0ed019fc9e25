import ManagedCode.Iterator.Frames
import ManagedCode.Iterator.Hoist
import ManagedCode.Iterator.YieldFacts

namespace ManagedCode

/-- Puts the machine into a state. -/
def setState (state : Int) : Stmt :=
  .assign (.machineField stateField) (.int (Int64.ofInt state))

namespace Lowering

/-- What stays the same for a whole body. -/
structure Source where
  facts : YieldFacts
  /-- The label just before the step method ends. -/
  exitLabel : LabelId
  localTys : List Ty
  paramCount : Nat
  deriving Inhabited

/-- Where a statement lies: its innermost frame, and whether any try is around it. -/
structure Position where
  frame : FrameId := FrameTree.root
  inTry : Bool := false
  deriving DecidableEq, Inhabited

/-- What has been made of a body so far. -/
structure Progress where
  ids : FreshIds
  frames : FrameTree := {}
  /-- The label to go on from in each state, beginning with state 0. -/
  resumeLabels : List LabelId := []
  result? : Option LocalId := none
  /-- The locals of the method being written. -/
  locals : List LocalDecl := []
  handlers : List SynthesizedMethod := []
  deriving Inhabited

abbrev LowerM := StateT Progress (Except LoweringFault)

/-- The result of a step that needs ids or slots which may be too large. -/
def orOverflow {α : Type} : Option α → LowerM α
  | some value => return value
  | none => throw .idOverflow

/-- Stops unless a condition holds. -/
def require (condition : Prop) [Decidable condition] (fault : LoweringFault) : LowerM Unit :=
  if condition then return else throw fault

def freshLabel : LowerM LabelId := do
  let (label, ids) ← orOverflow (← get).ids.label?
  modify fun p => { p with ids }
  return label

def temp (ty : Ty) : LowerM LocalId :=
  modifyGet fun p =>
    (⟨p.locals.length⟩, { p with locals := p.locals ++ [{ name := none, ty }] })

/-- An expression that reads from the machine what it read from the method. -/
def hoistExpr (source : Source) (e : Expr) : LowerM Expr := do
  orOverflow ((slotGuard source.paramCount).visitExpr e)
  return e.hoist source.paramCount

def hoistPlace (source : Source) (place : Place) : LowerM Place := do
  orOverflow ((slotGuard source.paramCount).visitPlace place)
  return place.hoist source.paramCount

/-- A new state under a frame, with the label to go on from. -/
def addState (frame : FrameId) : LowerM (Int × LabelId) := do
  require ((← get).resumeLabels.length + 1 < stateLimit) .idOverflow
  let label ← freshLabel
  modifyGet fun p =>
    let state : Int := p.resumeLabels.length
    ((state, label),
      { p with
        resumeLabels := p.resumeLabels ++ [label]
        frames := p.frames.addState frame state })

/-- The label that a jump from directly inside `frame` must name to get to `target`: one proxy
for each target outside the frame. -/
def route (frame : FrameId) (target : LabelId) : LowerM LabelId := do
  let frames := (← get).frames
  if frames.reaches frame target then
    return target
  match frames.proxy? frame target with
  | some proxy => return proxy
  | none =>
    let proxy ← freshLabel
    modify fun p => { p with frames := p.frames.addProxy frame target proxy }
    return proxy

def finalizeState (frame : FrameId) : LowerM Int := do
  return ((← get).frames.frame frame).finalizeState

/-- Hands out an element and marks the place to go on from. -/
def yieldValue (position : Position) (value : Expr) : LowerM (List Stmt) := do
  let (state, resume) ← addState position.frame
  let finalize ← finalizeState position.frame
  return [.assign (.machineField currentField) value, setState state,
    .ret (some (.bool true)), .label resume, setState finalize]

/-- The local that holds the answer of a step that leaves through handlers. -/
def resultLocal : LowerM LocalId := do
  match (← get).result? with
  | some result => return result
  | none =>
    let result ← temp (.primitive .bool)
    modify fun p => { p with result? := some result }
    return result

/-- Outside every try the step method ends at once, elsewhere it leaves through the exit label. -/
def yieldBreak (source : Source) (position : Position) : LowerM (List Stmt) := do
  if position.inTry then
    let result ← resultLocal
    let target ← route position.frame source.exitLabel
    return [.assign (.local result) (.bool false), .goto target]
  else
    return [setState finishedState, .ret (some (.bool false))]

/-- A new frame with a handler that has no code yet. -/
def pushFrame (source : Source) (parent : FrameId) (id : TryId) : LowerM (FrameId × Nat) := do
  require ((← get).handlers.length + 3 < stateLimit) .frameOverflow
  modifyGet fun p =>
    let index : Nat := p.handlers.length
    let finalizeState := firstFinalizeState - (index : Int)
    let (frame, frames) :=
      p.frames.push parent finalizeState ⟨2 + index⟩ (source.facts.labels id)
    let handler : SynthesizedMethod :=
      { name := s!"<>m__Finally{index + 1}"
        kind := .handler finalizeState
        ret := .void
        body := { root := [] } }
    ((frame, index), { p with frames, handlers := p.handlers ++ [handler] })

/-- Each proxy calls the handler and goes on towards its target. -/
def proxySections (parent : FrameId) (handler : SynthMethodId) :
    List (LabelId × LabelId) → LowerM (List Stmt)
  | [] => return []
  | (target, proxy) :: rest => do
    let next ← route parent target
    let sections ← proxySections parent handler rest
    return .label proxy :: .expr (.callSynthesized handler) :: .goto next :: sections

/-- The end of a frame: the proxies, if jumps leave it, and then the handler for those that
fall out of it. -/
def leaveFrame (parent frame : FrameId) (handler : SynthMethodId) : LowerM (List Stmt) := do
  let proxies ← modifyGet fun p =>
    let (proxies, frames) := p.frames.takeProxies frame
    (proxies, { p with frames })
  if proxies.isEmpty then
    return [.expr (.callSynthesized handler)]
  else
    let dropThrough ← freshLabel
    let sections ← proxySections parent handler proxies
    return .goto dropThrough :: sections ++ [.label dropThrough, .expr (.callSynthesized handler)]

/-- The type of the local that an exception is caught in. -/
def caughtTy (source : Source) (exceptionTy : Option Ty) (caught : LocalId) : Ty :=
  (source.localTys[caught.index]? <|> exceptionTy).getD (.primitive .object)

/-- Writes the handler of a frame in locals of its own: it leaves the frame first and then runs
the finally clause. -/
def writeHandler (parent : FrameId) (index : Nat) (finallyClause : LowerM (List Stmt)) :
    LowerM Unit := do
  let state ← finalizeState parent
  let saved ← modifyGet fun p => (p.locals, { p with locals := [] })
  let stmts ← finallyClause
  modify fun p =>
    let body : Body := { locals := p.locals, root := setState state :: stmts ++ [.ret none] }
    { p with
      locals := saved
      handlers := p.handlers.modify index fun m => { m with body } }

/-- A try statement that suspends becomes a block that enters its frame, runs the body and leaves
through the handler, which holds the finally clause. -/
def suspendingTry (source : Source) (position : Position) (id : TryId)
    (body : Position → LowerM (List Stmt)) (finallyClause : LowerM (List Stmt)) :
    LowerM (List Stmt) := do
  let (frame, index) ← pushFrame source position.frame id
  let entry ← finalizeState frame
  let stmts ← body { frame, inTry := true }
  let leave ← leaveFrame position.frame frame ⟨2 + index⟩
  writeHandler position.frame index finallyClause
  return [.block (setState entry :: stmts ++ leave)]

mutual

def rewriteStmt (source : Source) (position : Position) : Stmt → LowerM (List Stmt)
  | .block stmts => do return [.block (← rewriteStmts source position stmts)]
  | .expr value => return [.expr (← hoistExpr source value)]
  | .assign place value => do
    return [.assign (← hoistPlace source place) (← hoistExpr source value)]
  | .label label => return [.label label]
  | .goto target => do return [.goto (← route position.frame target)]
  | .condGoto cond jumpIf target => do
    return [.condGoto (← hoistExpr source cond) jumpIf (← route position.frame target)]
  | .switch scrutinee cases default? => do
    let scrutinee ← hoistExpr source scrutinee
    let cases ← cases.mapM fun (value, target) => do
      return (value, ← route position.frame target)
    let default? ← default?.mapM (route position.frame)
    return [.switch scrutinee cases default?]
  | .ret _ => throw .returnStatement
  | .yield value => do yieldValue position (← hoistExpr source value)
  | .yieldBreak => yieldBreak source position
  | .tryCatch id body catches none => do
    if source.facts.containsYield id then
      suspendingTry source position id (fun inner => rewriteStmts source inner body) (return [])
    else
      let inner := { position with inTry := true }
      let body ← rewriteStmts source inner body
      let catches ← rewriteCatches source inner catches
      return [.tryCatch id body catches none]
  | .tryCatch id body catches (some finally_) => do
    if source.facts.containsYield id then
      suspendingTry source position id (fun inner => rewriteStmts source inner body)
        (rewriteStmts source position finally_)
    else
      let inner := { position with inTry := true }
      let body ← rewriteStmts source inner body
      let catches ← rewriteCatches source inner catches
      let finally_ ← rewriteStmts source inner finally_
      return [.tryCatch id body catches (some finally_)]
  | .tryFault body fault => do
    let inner := { position with inTry := true }
    let body ← rewriteStmts source inner body
    let fault ← rewriteStmts source inner fault
    return [.tryFault body fault]
  | .throw value => return [.throw (← hoistExpr source value)]
  | .nop => return [.nop]

def rewriteStmts (source : Source) (position : Position) : List Stmt → LowerM (List Stmt)
  | [] => return []
  | s :: ss => do
    let first ← rewriteStmt source position s
    let rest ← rewriteStmts source position ss
    return first ++ rest

/-- An exception is caught in a local of the method and copied to the machine. -/
def rewriteCatch (source : Source) (position : Position) : Catch → LowerM Catch
  | .mk exceptionTy none body => do
    return .mk exceptionTy none (← rewriteStmts source position body)
  | .mk exceptionTy (some caught) body => do
    let local_ ← temp (caughtTy source exceptionTy caught)
    let place ← hoistPlace source (.local caught)
    let body ← rewriteStmts source position body
    return .mk exceptionTy (some local_) (.assign place (.local local_) :: body)

def rewriteCatches (source : Source) (position : Position) : List Catch → LowerM (List Catch)
  | [] => return []
  | c :: cs => do
    let first ← rewriteCatch source position c
    let rest ← rewriteCatches source position cs
    return first :: rest

end

/-- The step method: it goes on from where its state says, and answers whether there is an
element. With frames around yields, an exception first runs the handlers that are due. -/
def rewriteStep (source : Source) (root : List Stmt) : LowerM Body := do
  let cached ← temp .int32
  let (_, start) ← addState FrameTree.root
  let rewritten ← rewriteStmts source {} root
  let progress ← get
  let cases := progress.resumeLabels.mapIdx fun state label => (Int64.ofNat state, label)
  let answer := progress.result?.elim (.bool false) .local
  let clearAnswer := progress.result?.elim [] fun result =>
    [.assign (.local result) (.bool false)]
  let stmts :=
    [.assign (.local cached) (.machineField stateField),
      .switch (.local cached) cases none,
      .ret (some (.bool false)),
      .label start,
      setState runningState] ++
    rewritten ++ clearAnswer ++
    [.label source.exitLabel, setState finishedState, .ret (some answer)]
  let root : List Stmt :=
    if source.facts.hasFrames then
      [.tryFault stmts [.expr (.callSynthesized disposeMethod)]]
    else stmts
  return { locals := progress.locals, root }

end Lowering

end ManagedCode
