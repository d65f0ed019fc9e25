import ManagedCode.Metadata.Index
import ManagedCode.Proofs.Symbols.Scope

namespace ManagedCode

/-- Something that is visited on its own. -/
inductive Reference where
  | assembly (assembly : AssemblyId)
  | module (module : ModuleId)
  | type (ty : Ty)
  | signature (ty : Ty)
  | member (member : MemberRef)
  | arrayMethod (kind : ArrayMethodKind) (arrayTy : Ty)

/-- What is visited for one module. -/
inductive Visit where
  | reference (reference : Reference)
  | definitions
  | body (body : Body)

/-! The references in a body, in the order in which its nodes are walked. -/

/-- A new vector names its element type, a new multi-dimensional array its constructor. -/
def Ty.newArrayReferences : Ty → List Reference
  | .vector element => [.type element]
  | .array element rank => [.arrayMethod .constructor (.array element rank)]
  | _ => []

/-- An element of a vector is named only where its address is taken. -/
def Ty.elementReferences (kind : ArrayMethodKind) : Ty → List Reference
  | .vector element => if kind = .address then [.type element] else []
  | .array element rank => [.arrayMethod kind (.array element rank)]
  | _ => []

/-- What a place names because its address is taken. -/
def Place.addressReferences : Place → List Reference
  | .element _ ty _ => ty.elementReferences .address
  | _ => []

/-- What a place names because it is assigned to. -/
def Place.storeReferences : Place → List Reference
  | .element _ ty _ => ty.elementReferences .set
  | _ => []

mutual

def Expr.references : Expr → List Reference
  | .const _ | .local _ | .param _ | .machineField _ => []
  | .field none f => [.member f]
  | .field (some receiver) f => .member f :: Expr.references receiver
  | .call (.method m) none args => .member m :: Expr.referencesAll args
  | .call (.method m) (some receiver) args =>
    .member m :: (Expr.references receiver ++ Expr.referencesAll args)
  | .call (.synthesized _) none args => Expr.referencesAll args
  | .call (.synthesized _) (some receiver) args =>
    Expr.references receiver ++ Expr.referencesAll args
  | .binary _ lhs rhs => Expr.references lhs ++ Expr.references rhs
  | .unary _ operand => Expr.references operand
  | .element array ty indices =>
    ty.elementReferences .get ++ (Expr.references array ++ Expr.referencesAll indices)
  | .addressOf place => place.addressReferences ++ Place.references place
  | .newArray ty lengths => ty.newArrayReferences ++ Expr.referencesAll lengths
  | .typeToken ty => [.type ty]

def Expr.referencesAll : List Expr → List Reference
  | [] => []
  | e :: es => Expr.references e ++ Expr.referencesAll es

def Place.references : Place → List Reference
  | .local _ | .param _ | .machineField _ => []
  | .field none f => [.member f]
  | .field (some receiver) f => .member f :: Expr.references receiver
  | .element array _ indices => Expr.references array ++ Expr.referencesAll indices

end

mutual

def Stmt.references : Stmt → List Reference
  | .block stmts => Stmt.referencesAll stmts
  | .expr value | .yield value | .throw value => value.references
  | .assign place value => place.storeReferences ++ (place.references ++ value.references)
  | .condGoto cond _ _ => cond.references
  | .switch scrutinee _ _ => scrutinee.references
  | .ret none => []
  | .ret (some value) => value.references
  | .tryCatch _ body catches none => Stmt.referencesAll body ++ Catch.referencesAll catches
  | .tryCatch _ body catches (some finally_) =>
    Stmt.referencesAll body ++ (Catch.referencesAll catches ++ Stmt.referencesAll finally_)
  | .tryFault body fault => Stmt.referencesAll body ++ Stmt.referencesAll fault
  | .label _ | .goto _ | .yieldBreak | .nop => []

def Stmt.referencesAll : List Stmt → List Reference
  | [] => []
  | s :: ss => Stmt.references s ++ Stmt.referencesAll ss

def Catch.references : Catch → List Reference
  | .mk none _ body => Stmt.referencesAll body
  | .mk (some ty) _ body => .type ty :: Stmt.referencesAll body

def Catch.referencesAll : List Catch → List Reference
  | [] => []
  | c :: cs => Catch.references c ++ Catch.referencesAll cs

end

def Body.references (body : Body) : List Reference :=
  body.locals.map (fun l => .signature l.ty) ++ Stmt.referencesAll body.root

namespace Target

variable (target : Target)

/-! What a reference stands for: everything that needs a token for it. -/

def assemblyRefs (a : AssemblyId) : List RefKey :=
  if a = target.assembly then [] else [.assembly a]

def moduleRefs (m : ModuleId) : List RefKey :=
  let module := target.symbols.module m
  if m = target.module then []
  else if module.assembly = target.assembly then [.file module.file, .module m]
  else target.assemblyRefs module.assembly

/-- A definition of another module stands for itself and the type around it, or else the module
it is found in. -/
def nestedRefs (d : TypeDefId) (enclosing : List TypeDefId) : List RefKey :=
  if target.isLocal d then []
  else
    (match enclosing with
      | [] => target.moduleRefs (target.symbols.typeDef d).module
      | outer :: rest => nestedRefs outer rest) ++ [.type (.named d)]

def namedRefs (d : TypeDefId) : List RefKey :=
  target.nestedRefs d (target.symbols.typeDef d).enclosing

/-- A type inside a signature stands for the definitions that it names. -/
def embeddedRefs (t : Ty) : List RefKey :=
  t.mentions.flatMap target.namedRefs

/-- A type that needs a token stands for itself as well, unless it is just a definition. -/
def tokenRefs (t : Ty) : List RefKey :=
  target.embeddedRefs t ++ if t.isConstructed then [.type t] else []

def signatureRefs (signature : MethodSignature) : List RefKey :=
  signature.params.flatMap target.embeddedRefs ++ target.embeddedRefs signature.ret

/-- A member of another module stands for its owner, the types in its signature and itself. -/
def definedRefs (owner : TypeDefId) (types : List RefKey) (key : RefKey) : List RefKey :=
  if target.isLocal owner then [] else target.namedRefs owner ++ types ++ [key]

def fieldRefs (f : FieldId) : List RefKey :=
  let field := target.symbols.field f
  target.definedRefs field.owner (target.embeddedRefs field.ty) (.member (.field f))

def methodRefs (m : MethodId) : List RefKey :=
  let method := target.symbols.method m
  target.definedRefs method.owner (target.signatureRefs method.signature) (.member (.method m))

def memberRefs : MemberRef → List RefKey
  | .field f => target.fieldRefs f
  | .method m => target.methodRefs m
  | .specializedField f container =>
    target.tokenRefs container ++ target.fieldRefs f ++ [.member (.specializedField f container)]
  | .specializedMethod m container =>
    target.tokenRefs container ++ target.methodRefs m ++ [.member (.specializedMethod m container)]
  | .methodInstance method args =>
    memberRefs method ++ args.flatMap target.embeddedRefs ++ [.member (.methodInstance method args)]

def arrayMethodRefs (kind : ArrayMethodKind) (arrayTy : Ty) : List RefKey :=
  match ArrayMethod.build kind arrayTy with
  | .ok method =>
    target.tokenRefs arrayTy ++ target.signatureRefs method.signature ++
      [.arrayMethod kind arrayTy]
  | .error _ => []

/-- What the definition of a type refers to outside its methods' bodies. -/
def typeDefRefs (d : TypeDefId) : List RefKey :=
  let symbols := target.symbols
  let typeDef := symbols.typeDef d
  typeDef.base.elim [] target.tokenRefs ++
    (typeDef.fields.flatMap fun f => target.embeddedRefs (symbols.field f).ty) ++
    typeDef.methods.flatMap fun m => target.signatureRefs (symbols.method m).signature

def referenceRefs : Reference → List RefKey
  | .assembly a => target.assemblyRefs a
  | .module m => target.moduleRefs m
  | .type t => target.tokenRefs t
  | .signature t => target.embeddedRefs t
  | .member m => target.memberRefs m
  | .arrayMethod kind arrayTy => target.arrayMethodRefs kind arrayTy

def visitRefs : Visit → List RefKey
  | .reference reference => target.referenceRefs reference
  | .definitions => target.typeDefs.flatMap target.typeDefRefs
  | .body body => body.references.flatMap target.referenceRefs

/-! Visiting. -/

def visitReference : Reference → Emit Unit
  | .assembly a => target.visitAssembly a
  | .module m => target.visitModule m
  | .type t => target.visitTy t
  | .signature t => target.visitSignatureTy t
  | .member m => target.visitMember m
  | .arrayMethod kind arrayTy => target.visitArrayMethod kind arrayTy

def visit : Visit → Emit Unit
  | .reference reference => target.visitReference reference
  | .definitions => target.visitDefinitions
  | .body body => target.visitBody body

/-- Visits one after another, from the first that fails on nothing. -/
def visitAll : List Visit → Emit Unit
  | [] => pure ()
  | v :: vs => do target.visit v; visitAll vs

end Target

end ManagedCode
