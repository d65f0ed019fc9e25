import ManagedCode.Body.Tree

namespace ManagedCode

/-- A node of a statement tree. A try statement is a statement and a node of its own. -/
inductive Node where
  | stmt (stmt : Stmt)
  | tryCatch (id : TryId)
  | catch_ (exceptionTy : Option Ty)
  | expr (expr : Expr)
  | place (place : Place)

/-! The nodes of a tree, at every depth: each before those that it is made of, which come in the
order of the source. -/

mutual

def Expr.nodes (e : Expr) : List Node :=
  .expr e ::
    match e with
    | .const _ | .local _ | .param _ | .machineField _ | .typeToken _ => []
    | .field none _ => []
    | .field (some receiver) _ => receiver.nodes
    | .call _ none args => Expr.nodesAll args
    | .call _ (some receiver) args => receiver.nodes ++ Expr.nodesAll args
    | .binary _ lhs rhs => lhs.nodes ++ rhs.nodes
    | .unary _ operand => operand.nodes
    | .element array _ indices => array.nodes ++ Expr.nodesAll indices
    | .addressOf place => place.nodes
    | .newArray _ lengths => Expr.nodesAll lengths

def Expr.nodesAll : List Expr → List Node
  | [] => []
  | e :: es => e.nodes ++ Expr.nodesAll es

def Place.nodes (p : Place) : List Node :=
  .place p ::
    match p with
    | .local _ | .param _ | .machineField _ => []
    | .field none _ => []
    | .field (some receiver) _ => receiver.nodes
    | .element array _ indices => array.nodes ++ Expr.nodesAll indices

end

mutual

def Stmt.nodes (s : Stmt) : List Node :=
  .stmt s ::
    match s with
    | .block stmts => Stmt.nodesAll stmts
    | .expr value | .yield value | .throw value => value.nodes
    | .assign place value => place.nodes ++ value.nodes
    | .condGoto cond _ _ => cond.nodes
    | .switch scrutinee _ _ => scrutinee.nodes
    | .ret none => []
    | .ret (some value) => value.nodes
    | .tryCatch id body catches none =>
      .tryCatch id :: (Stmt.nodesAll body ++ Catch.nodesAll catches)
    | .tryCatch id body catches (some cleanup) =>
      .tryCatch id :: (Stmt.nodesAll body ++ (Catch.nodesAll catches ++ Stmt.nodesAll cleanup))
    | .tryFault body fault => Stmt.nodesAll body ++ Stmt.nodesAll fault
    | .label _ | .goto _ | .yieldBreak | .nop => []

def Stmt.nodesAll : List Stmt → List Node
  | [] => []
  | s :: ss => s.nodes ++ Stmt.nodesAll ss

def Catch.nodes : Catch → List Node
  | .mk exceptionTy _ code => .catch_ exceptionTy :: Stmt.nodesAll code

def Catch.nodesAll : List Catch → List Node
  | [] => []
  | c :: cs => c.nodes ++ Catch.nodesAll cs

end

def Body.nodes (body : Body) : List Node := Stmt.nodesAll body.root

end ManagedCode
