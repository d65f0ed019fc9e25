import ManagedCode.Body.Tree

namespace ManagedCode

/-- What to do at each node of a statement tree. A hook is given the node and the walk of what
lies under it, which it may run or leave out. -/
structure Visitor (m : Type → Type) where
  stmt : Stmt → m Unit → m Unit := fun _ descend => descend
  tryCatch : TryStmt → m Unit → m Unit := fun _ descend => descend
  catch_ : Catch → m Unit → m Unit := fun _ descend => descend
  expr : Expr → m Unit → m Unit := fun _ descend => descend
  place : Place → m Unit → m Unit := fun _ descend => descend

namespace Visitor

variable {m : Type → Type} [Monad m] (visitor : Visitor m)

mutual

/-- Visits an expression, then from the left what it is made of. -/
def visitExpr (e : Expr) : m Unit :=
  visitor.expr e <|
    match e with
    | .const _ | .local _ | .param _ | .machineField _ | .typeToken _ => pure ()
    | .field none _ => pure ()
    | .field (some receiver) _ => visitExpr receiver
    | .call _ none args => visitExprs args
    | .call _ (some receiver) args => do visitExpr receiver; visitExprs args
    | .binary _ lhs rhs => do visitExpr lhs; visitExpr rhs
    | .unary _ operand => visitExpr operand
    | .element array _ indices => do visitExpr array; visitExprs indices
    | .addressOf place => visitPlace place
    | .newArray _ lengths => visitExprs lengths

def visitExprs : List Expr → m Unit
  | [] => pure ()
  | e :: es => do visitExpr e; visitExprs es

def visitPlace (p : Place) : m Unit :=
  visitor.place p <|
    match p with
    | .local _ | .param _ | .machineField _ => pure ()
    | .field none _ => pure ()
    | .field (some receiver) _ => visitExpr receiver
    | .element array _ indices => do visitExpr array; visitExprs indices

end

mutual

/-- Visits a statement, then in source order what it is made of. -/
def visitStmt (s : Stmt) : m Unit :=
  visitor.stmt s <|
    match s with
    | .block stmts => visitStmts stmts
    | .expr e | .yield e | .throw e => visitor.visitExpr e
    | .assign place value => do visitor.visitPlace place; visitor.visitExpr value
    | .condGoto cond _ _ => visitor.visitExpr cond
    | .switch scrutinee _ _ => visitor.visitExpr scrutinee
    | .ret none => pure ()
    | .ret (some value) => visitor.visitExpr value
    | .tryCatch id body catches none =>
      visitor.tryCatch { id, body, catches, finally? := none } do
        visitStmts body
        visitCatches catches
    | .tryCatch id body catches (some finally_) =>
      visitor.tryCatch { id, body, catches, finally? := some finally_ } do
        visitStmts body
        visitCatches catches
        visitStmts finally_
    | .tryFault body fault => do visitStmts body; visitStmts fault
    | .label _ | .goto _ | .yieldBreak | .nop => pure ()

def visitStmts : List Stmt → m Unit
  | [] => pure ()
  | s :: ss => do visitStmt s; visitStmts ss

def visitCatch : Catch → m Unit
  | .mk exceptionTy caught body => visitor.catch_ (.mk exceptionTy caught body) (visitStmts body)

def visitCatches : List Catch → m Unit
  | [] => pure ()
  | c :: cs => do visitCatch c; visitCatches cs

end

end Visitor

end ManagedCode
