import ManagedCode.Body.Walk
import ManagedCode.Metadata.Session

namespace ManagedCode

/-! Visits of references. What a reference is made of is visited before it gets its token. -/

/-- Runs a visit as part of a walk that goes on after a failure and keeps the first fault. What
callers promise to avoid still stops the walk at once. -/
def Emit.record (visit : Emit Unit) : StateT (Option Fault) Emit Unit := fun first session =>
  match visit session with
  | .ok () later => .ok ((), first) later
  | .error (.misuse misuse) later => .error (.misuse misuse) later
  | .error fault later => .ok ((), first.or fault) later

namespace Target

open Emit

variable (target : Target)

def visitAssembly (a : AssemblyId) : Emit Unit := do
  if a ≠ target.assembly then
    reserve (.assembly a)

/-- A module of the same assembly is referenced along with its file, any other module through
its assembly. -/
def visitModule (m : ModuleId) : Emit Unit := do
  let module := target.symbols.module m
  if m = target.module then
    pure ()
  else if module.assembly ≠ target.assembly then
    target.visitAssembly module.assembly
  else
    reserve (.file module.file)
    reserve (.module m)

/-- Visits a type definition after the types around it, given innermost first. -/
def visitNested (d : TypeDefId) (enclosing : List TypeDefId) : Emit Unit :=
  if target.isLocal d then
    pure ()
  else
    unlessReserved (.type (.named d)) do
      match enclosing with
      | [] => target.visitModule (target.symbols.typeDef d).module
      | outer :: rest => visitNested outer rest
      reserve (.type (.named d))

def visitNamed (d : TypeDefId) : Emit Unit :=
  target.visitNested d (target.symbols.typeDef d).enclosing

/-- Visits a part of a type unless it was visited before. -/
def firstSight (ty : Ty) (visit : Emit Unit) : Emit Unit :=
  unlessReserved (.type ty) do
    if ← markSeen (.type ty) then
      visit

mutual

/-- Visits a type that stands inside a signature, where only named types need tokens. The links
of a chain of arrays, vectors and pointers are passed over. -/
def visitEmbedded (inChain : Bool) : Ty → Emit Unit
  | .named d => target.visitNamed d
  | .inst d args => firstSight (.inst d args) do target.visitNamed d; visitArgs args
  | .vector t => if inChain then visitEmbedded true t else
      firstSight (.vector t) (visitEmbedded true t)
  | .array t rank => if inChain then visitEmbedded true t else
      firstSight (.array t rank) (visitEmbedded true t)
  | .pointer t => if inChain then visitEmbedded true t else
      firstSight (.pointer t) (visitEmbedded true t)
  | .byRef t => firstSight (.byRef t) (visitEmbedded false t)
  | t => firstSight t (pure ())

def visitArgs : List Ty → Emit Unit
  | [] => pure ()
  | t :: ts => do visitEmbedded false t; visitArgs ts

end

/-- Visits the type of a value in a signature, at whose top a by-ref may stand. -/
def visitSignatureTy (ty : Ty) : Emit Unit :=
  target.visitEmbedded false ty.stripByRef

/-- Visits a type where a token is needed. -/
def visitTy (ty : Ty) : Emit Unit :=
  unlessReserved (.type ty) do
    match ty with
    | .named d => target.visitNamed d
    | .byRef _ =>
      discard <| markSeen (.type ty)
      throw (.misuse .byRefToken)
    | .inst d args =>
      discard <| markSeen (.type ty)
      target.visitNamed d
      target.visitArgs args
      reserve (.type ty)
    | _ =>
      discard <| markSeen (.type ty)
      target.visitEmbedded true ty.chainLeaf
      reserve (.type ty)

def visitSignatureTys : List Ty → Emit Unit
  | [] => pure ()
  | t :: ts => do target.visitSignatureTy t; visitSignatureTys ts

def visitSignature (signature : MethodSignature) : Emit Unit := do
  target.visitSignatureTys signature.params
  target.visitSignatureTy signature.ret

/-- A member of one of the module's own types is marked and needs nothing else. -/
def visitDefined (owner : TypeDefId) (key : RefKey) (visitTypes : Emit Unit) : Emit Unit :=
  unlessReserved key do
    if target.isLocal owner then
      discard <| markSeen key
    else
      target.visitNamed owner
      visitTypes
      reserve key

def visitField (f : FieldId) : Emit Unit :=
  let field := target.symbols.field f
  target.visitDefined field.owner (.member (.field f)) (target.visitSignatureTy field.ty)

def visitMethod (m : MethodId) : Emit Unit :=
  let method := target.symbols.method m
  target.visitDefined method.owner (.member (.method m)) (target.visitSignature method.signature)

def visitMember : MemberRef → Emit Unit
  | .field f => target.visitField f
  | .method m => target.visitMethod m
  | .specializedField f container =>
    unlessReserved (.member (.specializedField f container)) do
      target.visitTy container
      target.visitField f
      reserve (.member (.specializedField f container))
  | .specializedMethod m container =>
    unlessReserved (.member (.specializedMethod m container)) do
      target.visitTy container
      target.visitMethod m
      reserve (.member (.specializedMethod m container))
  | .methodInstance method args =>
    unlessReserved (.member (.methodInstance method args)) do
      visitMember method
      target.visitArgs args
      reserve (.member (.methodInstance method args))

def visitArrayMethod (kind : ArrayMethodKind) (arrayTy : Ty) : Emit Unit :=
  unlessReserved (.arrayMethod kind arrayTy) do
    let method ← arrayMethod kind arrayTy
    target.visitTy arrayTy
    target.visitSignature method.signature
    reserve (.arrayMethod kind arrayTy)

/-- Visits what the definition of a type refers to outside its methods' bodies. -/
def visitTypeDef (d : TypeDefId) : Emit Unit := do
  let symbols := target.symbols
  let typeDef := symbols.typeDef d
  if let some base := typeDef.base then
    target.visitTy base
  target.visitSignatureTys (typeDef.fields.map fun f => (symbols.field f).ty)
  typeDef.methods.forM fun m => target.visitSignature (symbols.method m).signature

def visitDefinitions : Emit Unit :=
  target.typeDefs.forM target.visitTypeDef

/-- A new vector needs its element type, a new multi-dimensional array its constructor. -/
def visitNewArray : Ty → Emit Unit
  | .vector element => target.visitTy element
  | .array element rank => target.visitArrayMethod .constructor (.array element rank)
  | other => throw (.misuse (.arrayCreation other))

/-- Elements of vectors have instructions of their own, of which only the one that takes an
address names the element type. -/
def visitElementAccess (kind : ArrayMethodKind) : Ty → Emit Unit
  | .vector element => if kind = .address then target.visitTy element else pure ()
  | .array element rank => target.visitArrayMethod kind (.array element rank)
  | other => throw (.misuse (.elementAccess other))

def visitExpr : Expr → Emit Unit
  | .call (.method m) _ _ => target.visitMember m
  | .field _ f => target.visitMember f
  | .typeToken ty => target.visitTy ty
  | .newArray ty _ => target.visitNewArray ty
  | .element _ ty _ => target.visitElementAccess .get ty
  | .addressOf (.element _ ty _) => target.visitElementAccess .address ty
  | _ => pure ()

def visitPlace : Place → Emit Unit
  | .field _ f => target.visitMember f
  | _ => pure ()

def visitStmt : Stmt → Emit Unit
  | .assign (.element _ ty _) _ => target.visitElementAccess .set ty
  | _ => pure ()

/-- Visits what each node of a body refers to before what its children refer to. -/
def bodyVisitor : Visitor (StateT (Option Fault) Emit) where
  stmt s descend := do record (target.visitStmt s); descend
  catch_ | .mk exceptionTy? _ _, descend => do record (exceptionTy?.forM target.visitTy); descend
  expr e descend := do record (target.visitExpr e); descend
  place p descend := do record (target.visitPlace p); descend

/-- Visits what statements refer to, to their end. The first failure on the way is raised then. -/
def walkStmts (stmts : List Stmt) : Emit Unit := do
  let ((), first) ← (target.bodyVisitor.visitStmts stmts).run none
  first.forM throw

def visitBody (body : Body) : Emit Unit := do
  target.visitSignatureTys (body.locals.map (·.ty))
  target.walkStmts body.root

end Target

end ManagedCode
