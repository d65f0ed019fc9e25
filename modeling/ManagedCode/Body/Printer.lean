import ManagedCode.Body.Tree
import ManagedCode.Symbols.Display
import ManagedCode.Text.Lines

namespace ManagedCode

def LocalId.display (id : LocalId) : String := s!"_{id.index}"

def ParamId.display (id : ParamId) : String := s!"arg{id.index}"

def LabelId.display (id : LabelId) : String := s!"L{id.index}"

def TryId.display (id : TryId) : String := s!"try{id.index}"

def TryStmt.display (tryStmt : TryStmt) : String := tryStmt.id.display

def FieldSlot.display (slot : FieldSlot) : String := s!"this.f{slot.index}"

def SynthMethodId.display (id : SynthMethodId) : String := s!"m{id.index}"

def Constant.display : Constant → String
  | .int value => toString value.toInt
  | .bool value => toString value
  | .null => "null"

def BinaryOp.display : BinaryOp → String
  | .add => "+"
  | .sub => "-"
  | .mul => "*"
  | .div => "/"
  | .rem => "%"
  | .eq => "=="
  | .ne => "!="
  | .lt => "<"
  | .le => "<="
  | .gt => ">"
  | .ge => ">="
  | .and => "&&"
  | .or => "||"

def UnaryOp.display : UnaryOp → String
  | .neg => "-"
  | .not => "!"

def Callee.display (symbols : Symbols) : Callee → String
  | .method m => symbols.displayMember m
  | .synthesized m => "this." ++ m.display

namespace Printer

variable (symbols : Symbols)

mutual

def expr : Expr → String
  | .const value => value.display
  | .local id => id.display
  | .param id => id.display
  | .machineField slot => slot.display
  | .field none member => symbols.displayMember member
  | .field (some receiver) member => expr receiver ++ "." ++ symbols.displayMember member
  | .call callee none args => callee.display symbols ++ "(" ++ ", ".intercalate (exprs args) ++ ")"
  | .call callee (some receiver) args =>
    expr receiver ++ "." ++ callee.display symbols ++ "(" ++ ", ".intercalate (exprs args) ++ ")"
  | .binary op lhs rhs => "(" ++ expr lhs ++ " " ++ op.display ++ " " ++ expr rhs ++ ")"
  | .unary op operand => op.display ++ expr operand
  | .element array _ indices => expr array ++ "[" ++ ", ".intercalate (exprs indices) ++ "]"
  | .addressOf p => "&" ++ place p
  | .newArray arrayTy lengths =>
    "new " ++ symbols.displayTy arrayTy ++ "(" ++ ", ".intercalate (exprs lengths) ++ ")"
  | .typeToken ty => "typeof(" ++ symbols.displayTy ty ++ ")"

def exprs : List Expr → List String
  | [] => []
  | e :: es => expr e :: exprs es

def place : Place → String
  | .local id => id.display
  | .param id => id.display
  | .machineField slot => slot.display
  | .field none member => symbols.displayMember member
  | .field (some receiver) member => expr receiver ++ "." ++ symbols.displayMember member
  | .element array _ indices => expr array ++ "[" ++ ", ".intercalate (exprs indices) ++ "]"

end

/-- The cases of a switch; the default is last and always follows a comma. -/
def switchCases (cases : List (Int64 × LabelId)) (default? : Option LabelId) : String :=
  let cases := cases.map fun (value, target) => s!"{value.toInt} => " ++ target.display
  let cases := if cases.isEmpty then "" else " " ++ ", ".intercalate cases
  match default? with
  | some target => cases ++ ", _ => " ++ target.display
  | none => cases

def catchHeader (exceptionTy : Option Ty) (caught : Option LocalId) : String :=
  let ty := exceptionTy.elim "" fun ty => " " ++ symbols.displayTy ty
  let caught := caught.elim "" fun id => " " ++ id.display
  "\x7d catch" ++ ty ++ caught ++ " \x7b"

mutual

/-- The lines of a statement, without the indentation of what encloses it. -/
def stmt : Stmt → List String
  | .block body => "\x7b" :: indent (stmts body) ++ ["\x7d"]
  | .expr value => [expr symbols value ++ ";"]
  | .assign p value => [place symbols p ++ " = " ++ expr symbols value ++ ";"]
  | .label label => [label.display ++ ":"]
  | .goto target => ["goto " ++ target.display ++ ";"]
  | .condGoto cond jumpIf target =>
    [(if jumpIf then "if " else "if !") ++ expr symbols cond ++ " goto " ++ target.display ++ ";"]
  | .switch scrutinee cases default? =>
    ["switch " ++ expr symbols scrutinee ++ " \x7b" ++ switchCases cases default? ++ " \x7d"]
  | .ret none => ["return;"]
  | .ret (some value) => ["return " ++ expr symbols value ++ ";"]
  | .yield value => ["yield " ++ expr symbols value ++ ";"]
  | .yieldBreak => ["yield break;"]
  | .tryCatch id body catches none =>
    ("try \x7b // " ++ id.display) :: indent (stmts body) ++ catchClauses catches ++ ["\x7d"]
  | .tryCatch id body catches (some finally_) =>
    ("try \x7b // " ++ id.display) :: indent (stmts body) ++ catchClauses catches ++
      "\x7d finally \x7b" :: indent (stmts finally_) ++ ["\x7d"]
  | .tryFault body fault =>
    "try \x7b" :: indent (stmts body) ++ "\x7d fault \x7b" :: indent (stmts fault) ++ ["\x7d"]
  | .throw value => ["throw " ++ expr symbols value ++ ";"]
  | .nop => ["nop;"]

def stmts : List Stmt → List String
  | [] => []
  | s :: ss => stmt s ++ stmts ss

def catchClause : Catch → List String
  | .mk exceptionTy caught body =>
    catchHeader symbols exceptionTy caught :: indent (stmts body)

def catchClauses : List Catch → List String
  | [] => []
  | c :: cs => catchClause c ++ catchClauses cs

end

def decl (keyword slot : String) (decl : LocalDecl) : String :=
  let name := decl.name.elim "" (" " ++ ·)
  keyword ++ " " ++ slot ++ name ++ ": " ++ symbols.displayTy decl.ty

/-- The text of a body: its declarations, then its statements, each on a line of its own. -/
def body (body : Body) : String :=
  let params := body.params.mapIdx fun i d => decl symbols "param" (ParamId.mk i).display d
  let locals := body.locals.mapIdx fun i d => decl symbols "local" (LocalId.mk i).display d
  joinLines (params ++ locals ++ stmts symbols body.root)

end Printer

end ManagedCode
