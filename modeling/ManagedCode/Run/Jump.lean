import ManagedCode.Body.Tree

namespace ManagedCode

/-- A statement list being executed: all of it, to which jumps go, and what is left of it. -/
structure Scope where
  stmts : List Stmt
  rest : List Stmt
  deriving Inhabited

/-- A place in nested plain blocks, the innermost block first. -/
abbrev Point := List Scope

namespace Point

def start (stmts : List Stmt) : Point := [⟨stmts, stmts⟩]

/-- The statement that is due at a point, and the point after it. A block that is through goes on
after itself. -/
def next? : Point → Option (Stmt × Point)
  | [] => none
  | ⟨_, []⟩ :: outer => next? outer
  | ⟨stmts, s :: rest⟩ :: outer => some (s, ⟨stmts, rest⟩ :: outer)

mutual

/-- The first definition of a label among `rest` or in plain blocks nested in it, where `rest` is
what is left of `stmts`. -/
def find? (label : LabelId) (stmts : List Stmt) : (rest : List Stmt) → Option Point
  | [] => none
  | s :: rest =>
    match findIn? label stmts rest s with
    | some point => some point
    | none => find? label stmts rest

def findIn? (label : LabelId) (stmts rest : List Stmt) : Stmt → Option Point
  | .label l => if l = label then some [⟨stmts, .label l :: rest⟩] else none
  | .block inner => (find? label inner inner).map (· ++ [⟨stmts, rest⟩])
  | _ => none

end

/-- A jump goes to the first definition in the innermost block that leads to one. -/
def jump? (label : LabelId) : Point → Option Point
  | [] => none
  | scope :: outer =>
    match find? label scope.stmts scope.stmts with
    | some point => some (point ++ outer)
    | none => jump? label outer

end Point

end ManagedCode
