import ManagedCode.Body.Printer

namespace ManagedCode

/-- The part of a try statement that a statement lies in. -/
inductive Region where
  | body
  | catch_
  | finally_
  | fault
  deriving DecidableEq, Inhabited

def Region.display : Region → String
  | .body => "Body"
  | .catch_ => "Catch"
  | .finally_ => "Finally"
  | .fault => "Fault"

/-- Why a body cannot be made into a state machine. -/
inductive LoweringFault where
  | yieldIn (region : Region)
  | yieldUnderFault
  | yieldBreakInFinally
  | suspendingTry (id : TryId)
  | returnStatement
  /-- An id, a slot or a state would be no 32-bit number. -/
  | idOverflow
  /-- The state of a frame would be no 32-bit number. -/
  | frameOverflow
  /-- The table of symbols has fewer methods than the number of the iterator method. -/
  | unknownMethod (count : Nat) (method : MethodId)
  deriving DecidableEq, Inhabited

def LoweringFault.message : LoweringFault → String
  | .yieldIn region =>
    "COMPILER BUG: yield inside a " ++ region.display ++ " clause reached iterator lowering"
  | .yieldUnderFault => "COMPILER BUG: yield inside a fault-protected region"
  | .yieldBreakInFinally =>
    "COMPILER BUG: yield break inside a finally clause reached iterator lowering"
  | .suspendingTry id =>
    "COMPILER BUG: " ++ id.display ++ " suspends but is not a plain try/finally"
  | .returnStatement => "COMPILER BUG: return statement inside an iterator body"
  | .idOverflow => "attempt to add with overflow"
  | .frameOverflow => "attempt to subtract with overflow"
  | .unknownMethod count method =>
    s!"index out of bounds: the len is {count} but the index is {method.index}"

/-- The try statements that have a yield in their body, and the labels that each try statement
defines anywhere inside it. -/
structure YieldFacts where
  suspending : List TryId := []
  labelIn : List (TryId × LabelId) := []
  deriving DecidableEq, Inhabited

namespace YieldFacts

def containsYield (facts : YieldFacts) (id : TryId) : Bool :=
  id ∈ facts.suspending

def labels (facts : YieldFacts) (id : TryId) : List LabelId :=
  facts.labelIn.filterMap fun (try_, label) => if try_ = id then some label else none

def hasFrames (facts : YieldFacts) : Bool :=
  !facts.suspending.isEmpty

def markSuspending (facts : YieldFacts) (ids : List TryId) : YieldFacts :=
  { facts with suspending := ids.foldl (fun known id => known.insert id) facts.suspending }

def addLabel (facts : YieldFacts) (ids : List TryId) (label : LabelId) : YieldFacts :=
  { facts with labelIn := ids.foldl (fun known id => known.insert (id, label)) facts.labelIn }

/-- The regions around a statement, outermost first; a fault region has no try id. -/
abbrev Enclosing := List (Option TryId × Region)

/-- The clause that a yield may not be in, if there is one around it. -/
def forbidden? (enclosing : Enclosing) : Option Region :=
  (enclosing.map (·.2)).find? (· ≠ .body)

/-- The try statements around a statement. -/
def tryIds (enclosing : Enclosing) : List TryId :=
  enclosing.filterMap (·.1)

/-- A try statement that suspends has no catch clause and a finally clause. -/
def checkTry (facts : YieldFacts) (id : TryId) (plain : Bool) : Except LoweringFault YieldFacts :=
  if facts.containsYield id && !plain then .error (.suspendingTry id) else .ok facts

mutual

def ofStmt (enclosing : Enclosing) (facts : YieldFacts) : Stmt → Except LoweringFault YieldFacts
  | .block stmts => ofStmts enclosing facts stmts
  | .label label => .ok (facts.addLabel (tryIds enclosing) label)
  | .yield _ =>
    match forbidden? enclosing with
    | some region => .error (.yieldIn region)
    | none =>
      if enclosing.any (·.1.isNone) then .error .yieldUnderFault
      else .ok (facts.markSuspending (tryIds enclosing))
  | .yieldBreak =>
    if enclosing.any (·.2 = .finally_) then .error .yieldBreakInFinally else .ok facts
  | .tryCatch id body catches none => do
    let facts ← ofStmts (enclosing ++ [(some id, .body)]) facts body
    let facts ← ofCatches (enclosing ++ [(some id, .catch_)]) facts catches
    checkTry facts id false
  | .tryCatch id body catches (some finally_) => do
    let facts ← ofStmts (enclosing ++ [(some id, .body)]) facts body
    let facts ← ofCatches (enclosing ++ [(some id, .catch_)]) facts catches
    let facts ← ofStmts (enclosing ++ [(some id, .finally_)]) facts finally_
    checkTry facts id catches.isEmpty
  | .tryFault body fault => do
    let facts ← ofStmts (enclosing ++ [(none, .body)]) facts body
    ofStmts (enclosing ++ [(none, .fault)]) facts fault
  | _ => .ok facts

def ofStmts (enclosing : Enclosing) (facts : YieldFacts) :
    List Stmt → Except LoweringFault YieldFacts
  | [] => .ok facts
  | s :: ss => do
    let facts ← ofStmt enclosing facts s
    ofStmts enclosing facts ss

def ofCatch (enclosing : Enclosing) (facts : YieldFacts) : Catch → Except LoweringFault YieldFacts
  | .mk _ _ body => ofStmts enclosing facts body

def ofCatches (enclosing : Enclosing) (facts : YieldFacts) :
    List Catch → Except LoweringFault YieldFacts
  | [] => .ok facts
  | c :: cs => do
    let facts ← ofCatch enclosing facts c
    ofCatches enclosing facts cs

end

/-- The facts of a body, or the first reason in source order for refusing it. -/
def ofBody (body : Body) : Except LoweringFault YieldFacts :=
  ofStmts [] {} body.root

end YieldFacts

end ManagedCode
