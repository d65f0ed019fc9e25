import ManagedCode.Proofs.Metadata.NodeVisits
import ManagedCode.Proofs.Metadata.ReferenceScope

namespace ManagedCode

/-- What a session is asked for. -/
inductive Request where
  | visit (visit : Visit)
  | token (key : RefKey)

/-- The definition that a reference is to, if it is to one, is in the program. -/
def Symbols.Knows (symbols : Symbols) : RefKey → Prop
  | .type (.named d) => d.index < symbols.typeDefs.length
  | .member (.field f) => f.index < symbols.fields.length
  | .member (.method m) => m.index < symbols.methods.length
  | _ => True

def Symbols.Answers (symbols : Symbols) : Request → Prop
  | .visit _ => True
  | .token key => symbols.Knows key

namespace Target

variable (target : Target)

/-- Does what a session is asked for. -/
def serve : Request → Emit Unit
  | .visit v => target.visit v
  | .token key => discard (Emit.token target key)

/-- Serves one request after another, also after one that failed. -/
def serveAll (session : Session) (requests : List Request) : Session :=
  requests.foldl (fun session request => finalState (target.serve request session)) session

variable {target}

/-- Only what the module does not define is looked up among the references. -/
theorem not_isOwn (wf : target.symbols.WellFormed) {key : RefKey}
    (known : target.symbols.Knows key) (h : target.definition? key = none) : ¬target.IsOwn key := by
  intro own
  have scope : target.symbols.KeyInScope key := by
    cases key with
    | type t =>
      cases t with
      | named d =>
        intro e he
        rw [List.mem_singleton.mp he]
        exact known
      | _ => cases own
    | member m =>
      cases m with
      | field f => exact known
      | method m => exact known
      | _ => cases own
    | _ => cases own
  have found := definition?_isSome wf scope own
  rw [h] at found
  cases found

end Target

/-- What holds of a session however it was used: each reference has one place in its own table,
tables have room for their rows, and no definition of the module is among the references. -/
structure Session.Tidy (session : Session) (target : Target) : Prop where
  filed : session.tokens.Filed
  foreign : ∀ {key}, session.Reserved key → ¬target.IsOwn key
  cached : session.arrayMethods.Cached

theorem Session.tidy_empty (target : Target) : Session.Tidy {} target where
  filed := TokenTable.filed_empty
  foreign := nofun
  cached := nofun

theorem Session.Tidy.of_eq {target : Target} {session later : Session} (h : session.Tidy target)
    (tokens : later.tokens = session.tokens) (methods : later.arrayMethods.Cached) :
    later.Tidy target where
  filed := tokens ▸ h.filed
  foreign held := h.foreign ((Session.reserved_congr (congrArg _ tokens)).mp held)
  cached := methods

/-- A step leaves a session tidy, whether it succeeds or fails. -/
def Emit.Tidies (target : Target) {α : Type} (step : Emit α) : Prop :=
  ∀ session : Session, session.Tidy target → (finalState (step session)).Tidy target

namespace Emit.Tidies

open Emit

variable {target : Target} {α β : Type}

theorem pure (a : α) : Tidies target (Pure.pure a : Emit α) := fun _ h => h

theorem fails (fault : Fault) : Tidies target (throw fault : Emit α) := fun _ h => h

theorem bind {step : Emit α} {next : α → Emit β} (h : Tidies target step)
    (h' : ∀ a, Tidies target (next a)) : Tidies target (step >>= next) := by
  intro session tidy
  have first := h session tidy
  cases hs : step session with
  | ok a later =>
    rw [hs] at first
    rw [bind_of_ok hs]
    exact h' a later first
  | error fault later =>
    rw [hs] at first
    rw [bind_of_error hs]
    exact first

theorem andThen {first next : Emit Unit} (h : Tidies target first) (h' : Tidies target next) :
    Tidies target (do first; next) :=
  bind h fun _ => h'

theorem forM {f : α → Emit Unit} (h : ∀ a, Tidies target (f a)) (l : List α) :
    Tidies target (l.forM f) := by
  induction l with
  | nil => exact pure _
  | cons a l ih => exact bind (h a) fun _ => ih

theorem markSeen (key : RefKey) : Tidies target (markSeen key) := by
  intro session tidy
  rw [markSeen_eq]
  split
  next => exact tidy
  next => exact tidy.of_eq rfl tidy.cached

theorem reserveIn {key : RefKey} (foreign : ¬target.IsOwn key) :
    Tidies target (reserveIn key key.table) := by
  intro session tidy
  rw [reserveIn_eq]
  split
  next token tokens served =>
    rcases TokenTable.filed_of_reserve served with ⟨-, rfl⟩ | ⟨absent, rfl, free⟩
    · exact tidy
    · refine ⟨tidy.filed.file absent free, fun held => ?_, tidy.cached⟩
      simp only [finalState, Session.Reserved, TokenTable.keys_file] at held
      rcases List.mem_append.mp held with old | new
      · exact tidy.foreign old
      · exact List.mem_singleton.mp new ▸ foreign
  next fault tokens failed =>
    obtain ⟨rfl, -⟩ := TokenTable.reserve_eq_error failed
    refine ⟨tidy.filed.listTable _, fun held => ?_, tidy.cached⟩
    simp only [finalState, Session.Reserved, TokenTable.keys_listTable] at held
    exact tidy.foreign held

theorem reserve {key : RefKey} (foreign : ¬target.IsOwn key) : Tidies target (reserve key) :=
  bind (bind (markSeen key) fun _ => pure _) fun _ => bind (reserveIn foreign) fun _ => pure _

theorem arrayMethod (kind : ArrayMethodKind) (arrayTy : Ty) :
    Tidies target (arrayMethod kind arrayTy) := by
  intro session tidy
  rw [arrayMethod_eq]
  split
  next got => exact tidy.of_eq rfl (ArrayMethodCache.get_eq_ok tidy.cached got).2
  next => exact tidy

theorem unlessReserved {key : RefKey} {visit : Emit Unit} (h : Tidies target visit) :
    Tidies target (unlessReserved key visit) := by
  intro session tidy
  rw [unlessReserved_eq]
  split
  next => exact tidy
  next => exact h session tidy

theorem firstSight {ty : Ty} {visit : Emit Unit} (h : Tidies target visit) :
    Tidies target (Target.firstSight ty visit) := by
  refine unlessReserved (bind (markSeen _) fun new => ?_)
  cases new with
  | true => exact h
  | false => exact pure _

theorem visitAssembly (a : AssemblyId) : Tidies target (target.visitAssembly a) := by
  unfold Target.visitAssembly
  split
  next => exact reserve nofun
  next => exact pure _

theorem visitModule (m : ModuleId) : Tidies target (target.visitModule m) := by
  unfold Target.visitModule
  dsimp only
  split
  next => exact pure _
  next =>
    split
    next => exact visitAssembly _
    next => exact andThen (reserve nofun) (reserve nofun)

theorem visitNested (d : TypeDefId) (enclosing : List TypeDefId) :
    Tidies target (target.visitNested d enclosing) := by
  induction enclosing generalizing d with
  | nil =>
    unfold Target.visitNested
    split
    next => exact pure _
    next foreign => exact unlessReserved (andThen (visitModule _) (reserve foreign))
  | cons outer rest ih =>
    unfold Target.visitNested
    split
    next => exact pure _
    next foreign => exact unlessReserved (andThen (ih outer) (reserve foreign))

theorem visitNamed (d : TypeDefId) : Tidies target (target.visitNamed d) :=
  visitNested d _

mutual

theorem visitEmbedded (inChain : Bool) (t : Ty) :
    Tidies target (target.visitEmbedded inChain t) := by
  cases t with
  | named d => exact visitNamed d
  | inst d args => exact firstSight (andThen (visitNamed d) (visitArgs args))
  | vector t | array t _ | pointer t =>
    unfold Target.visitEmbedded
    split
    next => exact visitEmbedded true t
    next => exact firstSight (visitEmbedded true t)
  | byRef t => exact firstSight (visitEmbedded false t)
  | primitive _ | typeParam _ | methodParam _ => exact firstSight (pure _)

theorem visitArgs (ts : List Ty) : Tidies target (target.visitArgs ts) := by
  cases ts with
  | nil => exact pure _
  | cons t ts => exact andThen (visitEmbedded false t) (visitArgs ts)

end

theorem visitSignatureTy (t : Ty) : Tidies target (target.visitSignatureTy t) :=
  visitEmbedded false _

theorem visitTy (t : Ty) : Tidies target (target.visitTy t) := by
  refine unlessReserved ?_
  have marked : Tidies target (discard (Emit.markSeen (.type t))) := bind (markSeen _) fun _ => pure _
  cases t with
  | named d => exact visitNamed d
  | byRef t => exact bind marked fun _ => fails _
  | inst d args =>
    exact andThen marked (andThen (visitNamed d) (andThen (visitArgs args) (reserve nofun)))
  | primitive _ | typeParam _ | methodParam _ | vector _ | array _ _ | pointer _ =>
    exact andThen marked (andThen (visitEmbedded true _) (reserve nofun))

theorem visitSignatureTys (ts : List Ty) : Tidies target (target.visitSignatureTys ts) := by
  induction ts with
  | nil => exact pure _
  | cons t ts ih => exact andThen (visitSignatureTy t) ih

theorem visitSignature (signature : MethodSignature) :
    Tidies target (target.visitSignature signature) :=
  andThen (visitSignatureTys _) (visitSignatureTy _)

theorem visitDefined {owner : TypeDefId} {key : RefKey} {visitTypes : Emit Unit}
    (foreign : target.isLocal owner ≠ true → ¬target.IsOwn key)
    (types : Tidies target visitTypes) : Tidies target (target.visitDefined owner key visitTypes) := by
  refine unlessReserved ?_
  split
  next => exact bind (markSeen _) fun _ => pure _
  next outside => exact andThen (visitNamed owner) (andThen types (reserve (foreign outside)))

theorem visitField (f : FieldId) : Tidies target (target.visitField f) :=
  visitDefined id (visitSignatureTy _)

theorem visitMethod (m : MethodId) : Tidies target (target.visitMethod m) :=
  visitDefined id (visitSignature _)

theorem visitMember (m : MemberRef) : Tidies target (target.visitMember m) := by
  induction m with
  | field f => exact visitField f
  | method m => exact visitMethod m
  | specializedField f container =>
    exact unlessReserved (andThen (visitTy _) (andThen (visitField f) (reserve nofun)))
  | specializedMethod m container =>
    exact unlessReserved (andThen (visitTy _) (andThen (visitMethod m) (reserve nofun)))
  | methodInstance m args ih =>
    exact unlessReserved (andThen ih (andThen (visitArgs args) (reserve nofun)))

theorem visitArrayMethod (kind : ArrayMethodKind) (arrayTy : Ty) :
    Tidies target (target.visitArrayMethod kind arrayTy) :=
  unlessReserved (bind (arrayMethod kind arrayTy) fun method =>
    andThen (visitTy _) (andThen (visitSignature method.signature) (reserve nofun)))

theorem visitDefinitions : Tidies target target.visitDefinitions := by
  refine forM (fun d => ?_) _
  unfold Target.visitTypeDef
  dsimp only
  have rest : Tidies target (do
      target.visitSignatureTys ((target.symbols.typeDef d).fields.map fun f =>
        (target.symbols.field f).ty)
      (target.symbols.typeDef d).methods.forM fun m =>
        target.visitSignature (target.symbols.method m).signature) :=
    andThen (visitSignatureTys _) (forM (fun _ => visitSignature _) _)
  cases (target.symbols.typeDef d).base with
  | none => exact rest
  | some base => exact andThen (visitTy base) rest

theorem visitElementAccess (kind : ArrayMethodKind) (t : Ty) :
    Tidies target (target.visitElementAccess kind t) := by
  cases t with
  | vector element =>
    by_cases address : kind = .address
    · simp only [Target.visitElementAccess, address, if_true]
      exact visitTy element
    · simp only [Target.visitElementAccess, address, if_false]
      exact pure _
  | array element rank => exact visitArrayMethod kind _
  | _ => exact fails _

theorem visitExpr (e : Expr) : Tidies target (target.visitExpr e) := by
  cases e with
  | field _ m => exact visitMember m
  | call callee _ _ =>
    cases callee with
    | method m => exact visitMember m
    | synthesized => exact pure _
  | element _ ty _ => exact visitElementAccess .get ty
  | addressOf place =>
    cases place with
    | element _ ty _ => exact visitElementAccess .address ty
    | _ => exact pure _
  | newArray ty _ =>
    cases ty with
    | vector element => exact visitTy element
    | array element rank => exact visitArrayMethod .constructor _
    | _ => exact fails _
  | typeToken ty => exact visitTy ty
  | _ => exact pure _

theorem visitPlace (p : Place) : Tidies target (target.visitPlace p) := by
  cases p with
  | field _ m => exact visitMember m
  | _ => exact pure _

theorem visitStmt (s : Stmt) : Tidies target (target.visitStmt s) := by
  cases s with
  | assign place _ =>
    cases place with
    | element _ ty _ => exact visitElementAccess .set ty
    | _ => exact pure _
  | _ => exact pure _

theorem visitNode (node : Node) : Tidies target (target.visitNode node) := by
  cases node with
  | stmt s => exact visitStmt s
  | tryCatch id => exact pure _
  | catch_ exceptionTy? =>
    cases exceptionTy? with
    | none => exact pure _
    | some ty => exact visitTy ty
  | expr e => exact visitExpr e
  | place p => exact visitPlace p

theorem walkStmts (ss : List Stmt) : Tidies target (target.walkStmts ss) := fun session =>
  Target.walkStmts_related (R := fun s t => s.Tidy target → t.Tidy target) (fun _ => id)
    (fun first next tidy => next (first tidy)) (fun node _ => visitNode node) session

theorem visit (v : Visit) : Tidies target (target.visit v) := by
  cases v with
  | reference r =>
    cases r with
    | assembly a => exact visitAssembly a
    | module m => exact visitModule m
    | type t => exact visitTy t
    | signature t => exact visitSignatureTy t
    | member m => exact visitMember m
    | arrayMethod kind arrayTy => exact visitArrayMethod kind arrayTy
  | definitions => exact visitDefinitions
  | body body => exact andThen (visitSignatureTys _) (walkStmts _)

theorem visitAll (visits : List Visit) : Tidies target (target.visitAll visits) := by
  induction visits with
  | nil => exact pure _
  | cons v visits ih => exact andThen (visit v) ih

theorem serve (wf : target.symbols.WellFormed) {request : Request}
    (known : target.symbols.Answers request) : Tidies target (target.serve request) := by
  cases request with
  | visit v => exact visit v
  | token key =>
    refine bind ?_ fun _ => pure _
    unfold Emit.token
    split
    next => exact pure _
    next absent => exact reserveIn (target.not_isOwn wf known absent)

end Emit.Tidies

theorem Session.tidy_of_visitAll {target : Target} {visits : List Visit} {session : Session}
    (run : target.visitAll visits {} = .ok () session) : session.Tidy target := by
  have tidy := Emit.Tidies.visitAll visits {} (tidy_empty target)
  rwa [run] at tidy

/-- A session is tidy whatever it was asked for. -/
theorem Target.tidy_serveAll {target : Target} (wf : target.symbols.WellFormed)
    {requests : List Request} (known : ∀ r ∈ requests, target.symbols.Answers r)
    {session : Session} (h : session.Tidy target) : (target.serveAll session requests).Tidy target := by
  induction requests generalizing session with
  | nil => exact h
  | cons r rs ih =>
    exact ih (fun r' hr => known r' (List.mem_cons_of_mem r hr))
      (Emit.Tidies.serve wf (known r List.mem_cons_self) session h)

end ManagedCode
