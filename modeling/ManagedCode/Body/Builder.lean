import ManagedCode.Body.FreshIds

namespace ManagedCode

/-- A body under construction: its declarations, and the ids that are left for it. -/
structure BodyBuilder where
  params : List LocalDecl := []
  locals : List LocalDecl := []
  ids : FreshIds := {}
  deriving DecidableEq, Inhabited

namespace BodyBuilder

/-- A builder whose label and try ids go on after those of `body`. -/
def continuing (body : Body) : BodyBuilder :=
  { ids := .after body }

variable (builder : BodyBuilder)

def param (name : String) (ty : Ty) : ParamId × BodyBuilder :=
  (⟨builder.params.length⟩,
    { builder with params := builder.params ++ [{ name := some name, ty }] })

def addLocal (decl : LocalDecl) : LocalId × BodyBuilder :=
  (⟨builder.locals.length⟩, { builder with locals := builder.locals ++ [decl] })

def namedLocal (name : String) (ty : Ty) : LocalId × BodyBuilder :=
  builder.addLocal { name := some name, ty }

/-- A local without a name. -/
def temp (ty : Ty) : LocalId × BodyBuilder :=
  builder.addLocal { name := none, ty }

def label? : Option (LabelId × BodyBuilder) :=
  builder.ids.label?.map fun (id, ids) => (id, { builder with ids })

def tryId? : Option (TryId × BodyBuilder) :=
  builder.ids.tryId?.map fun (id, ids) => (id, { builder with ids })

def finish (root : List Stmt) : Body :=
  { params := builder.params
    locals := builder.locals
    root
    labelCount := builder.ids.labelCount
    tryCount := builder.ids.tryCount }

end BodyBuilder

end ManagedCode
