import ManagedCode.Proofs.Metadata.Parts
import ManagedCode.Proofs.Metadata.Reserve

namespace ManagedCode

/-! What is visited directly because of a reference or a type, and what becomes of it. -/

/-- Something that a visit goes on to: the assembly or module of a definition, a reference that needs
a token, or a type inside a signature. -/
inductive Need where
  | assembly (assembly : AssemblyId)
  | module (module : ModuleId)
  | token (key : RefKey)
  | sight (ty : Ty)

/-- What is visited when a type is marked. -/
def Ty.needs : Ty → List Need
  | .inst d args => .token (.type (.named d)) :: args.map .sight
  | .byRef t => [.sight t]
  | t => [.sight t.chainLeaf]

def MethodSignature.needs (signature : MethodSignature) : List Need :=
  signature.params.map (fun t => .sight t.stripByRef) ++ [.sight signature.ret.stripByRef]

/-- What is visited before a reference gets its token. -/
def Target.needs (target : Target) : RefKey → List Need
  | .assembly _ | .module _ | .file _ => []
  | .type (.named d) =>
    match (target.symbols.typeDef d).enclosing with
    | [] => [.module (target.symbols.typeDef d).module]
    | outer :: _ => [.token (.type (.named outer))]
  | .type t => t.needs
  | .member (.field f) =>
    let field := target.symbols.field f
    [.token (.type (.named field.owner)), .sight field.ty.stripByRef]
  | .member (.method m) =>
    let method := target.symbols.method m
    .token (.type (.named method.owner)) :: method.signature.needs
  | .member (.specializedField f container) =>
    [.token (.type container), .token (.member (.field f))]
  | .member (.specializedMethod m container) =>
    [.token (.type container), .token (.member (.method m))]
  | .member (.methodInstance method args) => .token (.member method) :: args.map .sight
  | .arrayMethod kind arrayTy =>
    .token (.type arrayTy) ::
      match ArrayMethod.build kind arrayTy with
      | .ok method => method.signature.needs
      | .error _ => []

theorem Target.needs_type (target : Target) {t : Ty} (built : ∀ d, t ≠ .named d) :
    target.needs (.type t) = t.needs := by
  cases t with
  | named d => exact absurd rfl (built d)
  | _ => rfl

/-- A reference as something that a visit goes on to. -/
def Reference.need : Reference → Need
  | .assembly a => .assembly a
  | .module m => .module m
  | .type t => .token (.type t)
  | .signature t => .sight t.stripByRef
  | .member m => .token (.member m)
  | .arrayMethod kind arrayTy => .token (.arrayMethod kind arrayTy)

namespace Session

variable (session : Session) (target : Target)

/-- A type is marked or has a token. -/
def Sighted (t : Ty) : Prop := .type t ∈ session.seen ∨ session.Reserved (.type t)

/-- What a need asks for itself is there. What this needs in turn may be missing. -/
def Meets : Need → Prop
  | .assembly a => ∀ k ∈ target.assemblyRefs a, session.Reserved k
  | .module m => ∀ k ∈ target.moduleRefs m, session.Reserved k
  | .token key => target.IsOwn key ∨ session.Reserved key
  | .sight (.named d) => target.IsOwn (.type (.named d)) ∨ session.Reserved (.type (.named d))
  | .sight t => session.Sighted t

/-- A reference is one that can have a token, and what it needs is there. -/
structure Grounded (key : RefKey) : Prop where
  needs : ∀ need ∈ target.needs key, session.Meets target need
  buildable : key.Buildable
  notByRef : ∀ t, key ≠ .type (.byRef t)

/-- Whatever is marked or has a token in one session is or has so in the other. -/
structure Below (later : Session) : Prop where
  reserved : ∀ {key}, session.Reserved key → later.Reserved key
  sighted : ∀ {t}, session.Sighted t → later.Sighted t

/-- What a step does to a session, whether it succeeds or fails. It marks only types whose
definitions are among `refs`. Only references among `refs` get tokens, after what they need. -/
structure Grows (refs : List RefKey) (later : Session) : Prop where
  seen : ∀ key ∈ session.seen, key ∈ later.seen
  reserved : ∀ {key}, session.Reserved key → later.Reserved key
  marked : ∀ {t}, .type t ∈ later.seen →
    .type t ∈ session.seen ∨ ∀ k ∈ target.embeddedRefs t, k ∈ refs
  grounded : ∀ {key}, later.Reserved key →
    session.Reserved key ∨ key ∈ refs ∧ later.Grounded target key
  cached : session.arrayMethods.Cached → later.arrayMethods.Cached

/-- Where a step succeeds, the types it marked have what they need. -/
def Opens (later : Session) : Prop :=
  ∀ {t}, .type t ∈ later.seen → .type t ∈ session.seen ∨ ∀ need ∈ t.needs, later.Meets target need

variable {session target} {later last : Session} {refs refs' : List RefKey}

theorem meets_sight_iff {t : Ty} (built : ∀ d, t ≠ .named d) :
    session.Meets target (.sight t) ↔ session.Sighted t := by
  cases t with
  | named d => exact absurd rfl (built d)
  | _ => exact Iff.rfl

namespace Below

theorem refl : session.Below session := ⟨id, id⟩

theorem trans (h : session.Below later) (h' : later.Below last) : session.Below last :=
  ⟨h'.reserved ∘ h.reserved, h'.sighted ∘ h.sighted⟩

theorem meets (h : session.Below later) {need : Need} (met : session.Meets target need) :
    later.Meets target need := by
  cases need with
  | assembly | module => exact fun k mem => h.reserved (met k mem)
  | token => exact met.imp_right h.reserved
  | sight t =>
    cases t with
    | named d => exact met.imp_right h.reserved
    | _ => exact h.sighted met

theorem meetsAll (h : session.Below later) {needs : List Need}
    (met : ∀ need ∈ needs, session.Meets target need) : ∀ need ∈ needs, later.Meets target need :=
  fun need mem => h.meets (met need mem)

theorem grounded (h : session.Below later) {key : RefKey} (grounded : session.Grounded target key) :
    later.Grounded target key where
  needs := h.meetsAll grounded.needs
  buildable := grounded.buildable
  notByRef := grounded.notByRef

end Below

namespace Grows

theorem refl : session.Grows target refs session where
  seen _ := id
  reserved := id
  marked := .inl
  grounded := .inl
  cached := id

theorem below (h : session.Grows target refs later) : session.Below later :=
  ⟨h.reserved, fun sighted => sighted.imp (h.seen _) h.reserved⟩

theorem meetsAll (h : session.Grows target refs later) {needs : List Need}
    (met : ∀ need ∈ needs, session.Meets target need) : ∀ need ∈ needs, later.Meets target need :=
  h.below.meetsAll met

theorem trans (h : session.Grows target refs later) (h' : later.Grows target refs last) :
    session.Grows target refs last where
  seen key mem := h'.seen key (h.seen key mem)
  reserved held := h'.reserved (h.reserved held)
  marked mem := (h'.marked mem).elim h.marked .inr
  grounded held := (h'.grounded held).elim
    (fun held => (h.grounded held).imp_right (.imp_right h'.below.grounded)) .inr
  cached := h'.cached ∘ h.cached

theorem mono (h : session.Grows target refs later) (sub : ∀ k ∈ refs, k ∈ refs') :
    session.Grows target refs' later where
  seen := h.seen
  reserved := h.reserved
  marked mem := (h.marked mem).imp_right fun all k hk => sub k (all k hk)
  grounded held := (h.grounded held).imp_right (.imp_left (sub _))
  cached := h.cached

end Grows

theorem Opens.refl : session.Opens target session := .inl

theorem Opens.trans (h : session.Opens target later) (grows : later.Grows target refs last)
    (h' : later.Opens target last) : session.Opens target last := fun mem =>
  (h' mem).elim (fun mem => (h mem).imp_right grows.meetsAll) .inr

end Session

end ManagedCode
