import ManagedCode.Body.FreshIds
import ManagedCode.Iterator.YieldFacts
import ManagedCode.Proofs.Coroutine.Drive
import ManagedCode.Proofs.Run.Jumps

namespace ManagedCode

/-! Which names code uses, and what a body must be like to be made into a machine. -/

/-- What code may name, and how it may leave. -/
structure Vocabulary where
  locals : LocalId → Prop
  params : ParamId → Prop
  slots : FieldSlot → Prop
  methods : SynthMethodId → Prop
  suspends : Prop
  returns : Prop

mutual

def Expr.Uses (v : Vocabulary) : Expr → Prop
  | .const _ | .typeToken _ => True
  | .local id => v.locals id
  | .param id => v.params id
  | .machineField slot => v.slots slot
  | .field none _ => True
  | .field (some receiver) _ => receiver.Uses v
  | .call (.method _) none args => Expr.UsesAll v args
  | .call (.method _) (some receiver) args => receiver.Uses v ∧ Expr.UsesAll v args
  | .call (.synthesized method) none args => v.methods method ∧ Expr.UsesAll v args
  | .call (.synthesized method) (some receiver) args =>
    v.methods method ∧ receiver.Uses v ∧ Expr.UsesAll v args
  | .binary _ lhs rhs => lhs.Uses v ∧ rhs.Uses v
  | .unary _ operand => operand.Uses v
  | .element array _ indices => array.Uses v ∧ Expr.UsesAll v indices
  | .addressOf place => place.Uses v
  | .newArray _ lengths => Expr.UsesAll v lengths

def Expr.UsesAll (v : Vocabulary) : List Expr → Prop
  | [] => True
  | e :: es => e.Uses v ∧ Expr.UsesAll v es

def Place.Uses (v : Vocabulary) : Place → Prop
  | .local id => v.locals id
  | .param id => v.params id
  | .machineField slot => v.slots slot
  | .field none _ => True
  | .field (some receiver) _ => receiver.Uses v
  | .element array _ indices => array.Uses v ∧ Expr.UsesAll v indices

end

mutual

/-- A statement keeps to a vocabulary. -/
def Stmt.Uses (v : Vocabulary) : Stmt → Prop
  | .block stmts => Stmt.UsesAll v stmts
  | .expr value | .throw value => value.Uses v
  | .assign place value => place.Uses v ∧ value.Uses v
  | .condGoto cond _ _ => cond.Uses v
  | .switch scrutinee _ _ => scrutinee.Uses v
  | .ret none => v.returns
  | .ret (some value) => v.returns ∧ value.Uses v
  | .yield value => v.suspends ∧ value.Uses v
  | .yieldBreak => v.suspends
  | .tryCatch _ body catches none => Stmt.UsesAll v body ∧ Catch.UsesAll v catches
  | .tryCatch _ body catches (some cleanup) =>
    Stmt.UsesAll v body ∧ Catch.UsesAll v catches ∧ Stmt.UsesAll v cleanup
  | .tryFault body fault => Stmt.UsesAll v body ∧ Stmt.UsesAll v fault
  | .label _ | .goto _ | .nop => True

def Stmt.UsesAll (v : Vocabulary) : List Stmt → Prop
  | [] => True
  | s :: ss => s.Uses v ∧ Stmt.UsesAll v ss

/-- A clause stores an exception in a local of the vocabulary. -/
def Catch.UsesAll (v : Vocabulary) : List Catch → Prop
  | [] => True
  | .mk _ caught body :: cs =>
    (∀ id, caught = some id → v.locals id) ∧ Stmt.UsesAll v body ∧ Catch.UsesAll v cs

end

/-- Any code. -/
def Vocabulary.any : Vocabulary where
  locals _ := True
  params _ := True
  slots _ := True
  methods _ := True
  suspends := True
  returns := True

mutual

theorem Expr.uses_any (e : Expr) : e.Uses .any := by
  cases e with
  | field receiver member =>
    cases receiver with
    | none => trivial
    | some receiver => exact Expr.uses_any receiver
  | call callee receiver args =>
    cases callee <;> cases receiver
    · exact Expr.usesAll_any args
    · exact ⟨Expr.uses_any _, Expr.usesAll_any args⟩
    · exact ⟨trivial, Expr.usesAll_any args⟩
    · exact ⟨trivial, Expr.uses_any _, Expr.usesAll_any args⟩
  | binary op lhs rhs => exact ⟨Expr.uses_any lhs, Expr.uses_any rhs⟩
  | unary op operand => exact Expr.uses_any operand
  | element array shape indices => exact ⟨Expr.uses_any array, Expr.usesAll_any indices⟩
  | addressOf place => exact Place.uses_any place
  | newArray element lengths => exact Expr.usesAll_any lengths
  | _ => trivial

theorem Expr.usesAll_any (es : List Expr) : Expr.UsesAll .any es := by
  cases es with
  | nil => trivial
  | cons e es => exact ⟨Expr.uses_any e, Expr.usesAll_any es⟩

theorem Place.uses_any (place : Place) : place.Uses .any := by
  cases place with
  | field receiver member =>
    cases receiver with
    | none => trivial
    | some receiver => exact Expr.uses_any receiver
  | element array shape indices => exact ⟨Expr.uses_any array, Expr.usesAll_any indices⟩
  | _ => trivial

end

mutual

theorem Stmt.uses_any (s : Stmt) : s.Uses .any := by
  cases s with
  | block stmts => exact Stmt.usesAll_any stmts
  | expr value | throw value => exact Expr.uses_any value
  | assign place value => exact ⟨Place.uses_any place, Expr.uses_any value⟩
  | condGoto cond jumpIf target => exact Expr.uses_any cond
  | switch scrutinee cases default? => exact Expr.uses_any scrutinee
  | ret value =>
    cases value with
    | none => trivial
    | some value => exact ⟨trivial, Expr.uses_any value⟩
  | yield value => exact ⟨trivial, Expr.uses_any value⟩
  | tryCatch id body catches cleanup =>
    cases cleanup with
    | none => exact ⟨Stmt.usesAll_any body, Catch.usesAll_any catches⟩
    | some cleanup =>
      exact ⟨Stmt.usesAll_any body, Catch.usesAll_any catches, Stmt.usesAll_any cleanup⟩
  | tryFault body fault => exact ⟨Stmt.usesAll_any body, Stmt.usesAll_any fault⟩
  | _ => trivial

theorem Stmt.usesAll_any (ss : List Stmt) : Stmt.UsesAll .any ss := by
  cases ss with
  | nil => trivial
  | cons s ss => exact ⟨Stmt.uses_any s, Stmt.usesAll_any ss⟩

theorem Catch.usesAll_any (cs : List Catch) : Catch.UsesAll .any cs := by
  cases cs with
  | nil => trivial
  | cons c cs =>
    obtain ⟨ty, caught, body⟩ := c
    exact ⟨fun _ _ => trivial, Stmt.usesAll_any body, Catch.usesAll_any cs⟩

end

/-- Whatever code may name or do in one vocabulary, it may in the other. -/
structure Vocabulary.Within (v v' : Vocabulary) : Prop where
  locals : ∀ {id}, v.locals id → v'.locals id
  params : ∀ {id}, v.params id → v'.params id
  slots : ∀ {slot}, v.slots slot → v'.slots slot
  methods : ∀ {method}, v.methods method → v'.methods method
  suspends : v.suspends → v'.suspends
  returns : v.returns → v'.returns

section

variable {v v' : Vocabulary}

mutual

theorem Expr.Uses.mono (within : v.Within v') (e : Expr) (h : e.Uses v) : e.Uses v' := by
  cases e with
  | «local» id => exact within.locals h
  | param id => exact within.params h
  | machineField slot => exact within.slots h
  | field receiver member =>
    cases receiver with
    | none => trivial
    | some receiver => exact Expr.Uses.mono within receiver h
  | call callee receiver args =>
    cases callee <;> cases receiver
    · exact Expr.UsesAll.mono within args h
    · exact ⟨Expr.Uses.mono within _ h.1, Expr.UsesAll.mono within args h.2⟩
    · exact ⟨within.methods h.1, Expr.UsesAll.mono within args h.2⟩
    · exact ⟨within.methods h.1, Expr.Uses.mono within _ h.2.1,
        Expr.UsesAll.mono within args h.2.2⟩
  | binary op lhs rhs => exact ⟨Expr.Uses.mono within lhs h.1, Expr.Uses.mono within rhs h.2⟩
  | unary op operand => exact Expr.Uses.mono within operand h
  | element array shape indices =>
    exact ⟨Expr.Uses.mono within array h.1, Expr.UsesAll.mono within indices h.2⟩
  | addressOf place => exact Place.Uses.mono within place h
  | newArray element lengths => exact Expr.UsesAll.mono within lengths h
  | _ => trivial

theorem Expr.UsesAll.mono (within : v.Within v') (es : List Expr) (h : Expr.UsesAll v es) :
    Expr.UsesAll v' es := by
  cases es with
  | nil => trivial
  | cons e es => exact ⟨Expr.Uses.mono within e h.1, Expr.UsesAll.mono within es h.2⟩

theorem Place.Uses.mono (within : v.Within v') (place : Place) (h : place.Uses v) :
    place.Uses v' := by
  cases place with
  | «local» id => exact within.locals h
  | param id => exact within.params h
  | machineField slot => exact within.slots h
  | field receiver member =>
    cases receiver with
    | none => trivial
    | some receiver => exact Expr.Uses.mono within receiver h
  | element array shape indices =>
    exact ⟨Expr.Uses.mono within array h.1, Expr.UsesAll.mono within indices h.2⟩

end

mutual

theorem Stmt.Uses.mono (within : v.Within v') (s : Stmt) (h : s.Uses v) : s.Uses v' := by
  cases s with
  | block stmts => exact Stmt.UsesAll.mono within stmts h
  | expr value | throw value => exact Expr.Uses.mono within value h
  | assign place value => exact ⟨Place.Uses.mono within place h.1, Expr.Uses.mono within value h.2⟩
  | condGoto cond jumpIf target => exact Expr.Uses.mono within cond h
  | switch scrutinee cases default? => exact Expr.Uses.mono within scrutinee h
  | ret value =>
    cases value with
    | none => exact within.returns h
    | some value => exact ⟨within.returns h.1, Expr.Uses.mono within value h.2⟩
  | yield value => exact ⟨within.suspends h.1, Expr.Uses.mono within value h.2⟩
  | yieldBreak => exact within.suspends h
  | tryCatch id body catches cleanup =>
    cases cleanup with
    | none => exact ⟨Stmt.UsesAll.mono within body h.1, Catch.UsesAll.mono within catches h.2⟩
    | some cleanup =>
      exact ⟨Stmt.UsesAll.mono within body h.1, Catch.UsesAll.mono within catches h.2.1,
        Stmt.UsesAll.mono within cleanup h.2.2⟩
  | tryFault body fault =>
    exact ⟨Stmt.UsesAll.mono within body h.1, Stmt.UsesAll.mono within fault h.2⟩
  | _ => trivial

theorem Stmt.UsesAll.mono (within : v.Within v') (ss : List Stmt) (h : Stmt.UsesAll v ss) :
    Stmt.UsesAll v' ss := by
  cases ss with
  | nil => trivial
  | cons s ss => exact ⟨Stmt.Uses.mono within s h.1, Stmt.UsesAll.mono within ss h.2⟩

theorem Catch.UsesAll.mono (within : v.Within v') (cs : List Catch) (h : Catch.UsesAll v cs) :
    Catch.UsesAll v' cs := by
  cases cs with
  | nil => trivial
  | cons c cs =>
    obtain ⟨ty, caught, body⟩ := c
    exact ⟨fun id same => within.locals (h.1 id same), Stmt.UsesAll.mono within body h.2.1,
      Catch.UsesAll.mono within cs h.2.2⟩

end

end

/-- A try statement, with the labels that are defined anywhere in it. -/
structure TryFacts where
  id : TryId
  yields : Bool
  labels : List LabelId

mutual

/-- The try statements in a statement, the outer before the inner. -/
def Stmt.tries : Stmt → List TryFacts
  | .block stmts => Stmt.triesAll stmts
  | .tryCatch id body catches none =>
    ⟨id, (Stmt.tryCatch id body catches none).yields,
        (Stmt.tryCatch id body catches none).labels⟩ ::
      (Stmt.triesAll body ++ Catch.triesAll catches)
  | .tryCatch id body catches (some cleanup) =>
    ⟨id, (Stmt.tryCatch id body catches (some cleanup)).yields,
        (Stmt.tryCatch id body catches (some cleanup)).labels⟩ ::
      (Stmt.triesAll body ++ Catch.triesAll catches ++ Stmt.triesAll cleanup)
  | .tryFault body fault => Stmt.triesAll body ++ Stmt.triesAll fault
  | _ => []

def Stmt.triesAll : List Stmt → List TryFacts
  | [] => []
  | s :: ss => s.tries ++ Stmt.triesAll ss

def Catch.triesAll : List Catch → List TryFacts
  | [] => []
  | .mk _ _ body :: cs => Stmt.triesAll body ++ Catch.triesAll cs

end

mutual

/-- The yields in a statement but outside clauses, in order, each with the try statements around it,
of which the innermost comes first. -/
def Stmt.yieldSites (around : List TryId) : Stmt → List (Expr × List TryId)
  | .block stmts => Stmt.yieldSitesAll around stmts
  | .yield value => [(value, around)]
  | .tryCatch id body _ _ => Stmt.yieldSitesAll (id :: around) body
  | _ => []

def Stmt.yieldSitesAll (around : List TryId) : List Stmt → List (Expr × List TryId)
  | [] => []
  | s :: ss => s.yieldSites around ++ Stmt.yieldSitesAll around ss

end

/-- The number of yields in statements but outside clauses. -/
def Stmt.yieldCount (stmts : List Stmt) : Nat := (Stmt.yieldSitesAll [] stmts).length

def Stmt.tryIdsAll (stmts : List Stmt) : List TryId := (Stmt.triesAll stmts).map (·.id)

mutual

/-- No jump leads out of a finally clause. -/
def Stmt.Contained : Stmt → Prop
  | .block stmts => Stmt.ContainedAll stmts
  | .tryCatch _ body catches none => Stmt.ContainedAll body ∧ Catch.ContainedAll catches
  | .tryCatch _ body catches (some cleanup) =>
    Stmt.ContainedAll body ∧ Catch.ContainedAll catches ∧ Stmt.ContainedAll cleanup ∧
      Stmt.escapesAll cleanup = []
  | .tryFault body fault => Stmt.ContainedAll body ∧ Stmt.ContainedAll fault
  | _ => True

def Stmt.ContainedAll : List Stmt → Prop
  | [] => True
  | s :: ss => s.Contained ∧ Stmt.ContainedAll ss

def Catch.ContainedAll : List Catch → Prop
  | [] => True
  | .mk _ _ body :: cs => Stmt.ContainedAll body ∧ Catch.ContainedAll cs

end

/-- The code that an iterator may be written in: it names what it likes among locals and
parameters, but nothing of a machine, and leaves by yielding only. -/
def Vocabulary.iterator (locals : LocalId → Prop) (params : ParamId → Prop) : Vocabulary where
  locals
  params
  slots _ := False
  methods _ := False
  suspends := True
  returns := False

/-- A body that lowering is made for, with ids of 32 bits. A jump that cannot get to its target in
the lists around it does not lead into a try statement either. -/
structure Body.Regular (body : Body) : Prop where
  uses : Stmt.UsesAll (.iterator (fun _ => True) fun _ => True) body.root
  labels : (Stmt.labelsAll body.root).Nodup
  labelCount : ∀ l ∈ Stmt.labelsAll body.root, l.index < body.labelCount
  tries : (Stmt.tryIdsAll body.root).Nodup
  tryCount : ∀ t ∈ Stmt.tryIdsAll body.root, t.index < body.tryCount
  tryLimit : body.tryCount ≤ idLimit
  jumps : ∀ l ∈ Stmt.escapesAll body.root, l.index < body.labelCount ∧ l ∉ Stmt.labelsAll body.root
  contained : Stmt.ContainedAll body.root

/-- A regular body whose names are all in range and whose jumps all get to their targets. -/
structure Body.WellFormed (body : Body) : Prop extends Body.Regular body where
  inRange : Stmt.UsesAll (.iterator (·.index < body.locals.length) (·.index < body.params.length))
    body.root
  closed : Stmt.escapesAll body.root = []

/-! Lists. -/

theorem Stmt.labelsAll_append (ss ts : List Stmt) :
    Stmt.labelsAll (ss ++ ts) = Stmt.labelsAll ss ++ Stmt.labelsAll ts := by
  induction ss with
  | nil => rfl
  | cons s ss ih => rw [List.cons_append, labelsAll, labelsAll, ih, List.append_assoc]

theorem Stmt.triesAll_append (ss ts : List Stmt) :
    Stmt.triesAll (ss ++ ts) = Stmt.triesAll ss ++ Stmt.triesAll ts := by
  induction ss with
  | nil => rfl
  | cons s ss ih => rw [List.cons_append, triesAll, triesAll, ih, List.append_assoc]

theorem Stmt.targets_append (ss ts : List Stmt) :
    Stmt.targets (ss ++ ts) = Stmt.targets ss ++ Stmt.targets ts := by
  induction ss with
  | nil => rfl
  | cons s ss ih => rw [List.cons_append, targets, targets, ih, List.append_assoc]

theorem Stmt.usesAll_append {v : Vocabulary} {ss ts : List Stmt} :
    Stmt.UsesAll v (ss ++ ts) ↔ Stmt.UsesAll v ss ∧ Stmt.UsesAll v ts := by
  induction ss with
  | nil => exact (and_iff_right trivial).symm
  | cons s ss ih => rw [List.cons_append, UsesAll, UsesAll, ih, and_assoc]

theorem Stmt.UsesAll.mem {v : Vocabulary} {ss : List Stmt} (h : Stmt.UsesAll v ss) {s : Stmt}
    (hs : s ∈ ss) : s.Uses v := by
  obtain ⟨before, after, rfl⟩ := List.append_of_mem hs
  exact (Stmt.usesAll_append.mp h).2.1

mutual

theorem Stmt.plainLabels_sublist (s : Stmt) : s.plainLabels.Sublist s.labels := by
  cases s with
  | label l => exact .refl _
  | block stmts => exact Stmt.plainLabelsAll_sublist stmts
  | _ => exact List.nil_sublist _

theorem Stmt.plainLabelsAll_sublist (ss : List Stmt) :
    (Stmt.plainLabelsAll ss).Sublist (Stmt.labelsAll ss) := by
  cases ss with
  | nil => exact .refl _
  | cons s ss => exact (Stmt.plainLabels_sublist s).append (Stmt.plainLabelsAll_sublist ss)

end

theorem Stmt.plainLabelsAll_subset (ss : List Stmt) :
    ∀ l ∈ Stmt.plainLabelsAll ss, l ∈ Stmt.labelsAll ss :=
  fun _ hl => (Stmt.plainLabelsAll_sublist ss).subset hl

theorem mem_unresolved {ss : List Stmt} {targets : List LabelId} {l : LabelId} :
    l ∈ unresolved ss targets ↔ l ∈ targets ∧ l ∉ Stmt.plainLabelsAll ss := by
  unfold unresolved
  rw [List.mem_filter, decide_eq_true_iff]

mutual

theorem Stmt.length_yieldSites (s : Stmt) (around : List TryId) :
    (s.yieldSites around).length = (s.yieldSites []).length := by
  cases s with
  | block stmts => exact Stmt.length_yieldSitesAll stmts around
  | tryCatch id body =>
    exact (Stmt.length_yieldSitesAll body (id :: around)).trans
      (Stmt.length_yieldSitesAll body [id]).symm
  | _ => rfl

theorem Stmt.length_yieldSitesAll (ss : List Stmt) (around : List TryId) :
    (Stmt.yieldSitesAll around ss).length = Stmt.yieldCount ss := by
  cases ss with
  | nil => rfl
  | cons s ss =>
    unfold Stmt.yieldCount
    rw [Stmt.yieldSitesAll, Stmt.yieldSitesAll, List.length_append, List.length_append,
      Stmt.length_yieldSites s around, Stmt.length_yieldSitesAll ss around]
    rfl

end

theorem Stmt.yieldCount_append (ss ts : List Stmt) :
    Stmt.yieldCount (ss ++ ts) = Stmt.yieldCount ss + Stmt.yieldCount ts := by
  induction ss with
  | nil => exact (Nat.zero_add _).symm
  | cons s ss ih =>
    unfold Stmt.yieldCount at ih ⊢
    rw [List.cons_append, Stmt.yieldSitesAll, Stmt.yieldSitesAll, List.length_append,
      List.length_append, ih, Nat.add_assoc]

theorem Stmt.yieldCount_cons (s : Stmt) (ss : List Stmt) :
    Stmt.yieldCount (s :: ss) = Stmt.yieldCount [s] + Stmt.yieldCount ss :=
  Stmt.yieldCount_append [s] ss

/-- The number of yields that come after a point, in its lists. -/
def Point.yieldCount : Point → Nat
  | [] => 0
  | scope :: outer => Stmt.yieldCount scope.rest + Point.yieldCount outer

theorem Point.yieldCount_cons (scope : Scope) (p : Point) :
    Point.yieldCount (scope :: p) = Stmt.yieldCount scope.rest + Point.yieldCount p :=
  rfl

theorem Point.yieldCount_append (p q : Point) :
    Point.yieldCount (p ++ q) = Point.yieldCount p + Point.yieldCount q := by
  induction p with
  | nil => exact (Nat.zero_add _).symm
  | cons scope p ih =>
    rw [List.cons_append, Point.yieldCount_cons, Point.yieldCount_cons, ih, Nat.add_assoc]

/-- The number of yields that come after a point that is inside open try statements. -/
def Coroutine.yieldsAfter (point : Point) : List OpenTry → Nat
  | [] => Point.yieldCount point
  | try_ :: opened => Point.yieldCount point + Coroutine.yieldsAfter try_.after opened

/-! Jumps into try statements. -/

/-- A list with no label twice, whose jumps out of it have no target in it. -/
structure Stmt.Scoped (stmts : List Stmt) : Prop where
  labels : (Stmt.labelsAll stmts).Nodup
  jumps : ∀ l ∈ Stmt.escapesAll stmts, l ∉ Stmt.labelsAll stmts

/-- A statement with no label twice, whose jumps out of it have no target in a try statement of
it. -/
structure Stmt.Apart (s : Stmt) : Prop where
  labels : s.labels.Nodup
  jumps : ∀ l ∈ s.escapes, l ∈ s.labels → l ∈ s.plainLabels

theorem Body.Regular.isScoped {body : Body} (h : body.Regular) : Stmt.Scoped body.root :=
  ⟨h.labels, fun l hl => (h.jumps l hl).2⟩

theorem Stmt.Scoped.apart {ss : List Stmt} (h : Stmt.Scoped ss) : ∀ s ∈ ss, s.Apart := by
  intro s hs
  obtain ⟨before, after, rfl⟩ := List.append_of_mem hs
  have labels := h.labels
  rw [Stmt.labelsAll_append, List.nodup_append, Stmt.labelsAll, List.nodup_append] at labels
  obtain ⟨-, ⟨own, -, right⟩, left⟩ := labels
  refine ⟨own, fun l target defined => ?_⟩
  have here : l ∈ Stmt.labelsAll (before ++ s :: after) := by
    rw [Stmt.labelsAll_append, Stmt.labelsAll]
    exact List.mem_append_right _ (List.mem_append_left _ defined)
  -- The jump finds its target in this list, and no other statement of it defines the label.
  have plain : l ∈ Stmt.plainLabelsAll (before ++ s :: after) := by
    refine Classical.byContradiction fun missing => h.jumps l ?_ here
    exact mem_unresolved.mpr ⟨Stmt.mem_targets hs target, missing⟩
  rw [Stmt.plainLabelsAll_append, Stmt.plainLabelsAll] at plain
  rcases List.mem_append.mp plain with elsewhere | plain
  · have same := left l (Stmt.plainLabelsAll_subset before l elsewhere) l
      (List.mem_append_left _ defined)
    exact absurd rfl same
  · rcases List.mem_append.mp plain with plain | elsewhere
    · exact plain
    · exact absurd rfl (right l defined l (Stmt.plainLabelsAll_subset after l elsewhere))

theorem Catch.mem_parts {catches : List Catch} {ty : Option Ty} {caught : Option LocalId}
    {ss : List Stmt} (hc : .mk ty caught ss ∈ catches) :
    List.Sublist (Stmt.labelsAll ss) (Catch.labelsAll catches) ∧
      ∀ l ∈ Stmt.escapesAll ss, l ∈ Catch.escapesAll catches := by
  induction catches with
  | nil => cases hc
  | cons c catches ih =>
    obtain ⟨otherTy, otherCaught, other⟩ := c
    rcases List.mem_cons.mp hc with same | hc
    · cases same
      exact ⟨List.sublist_append_left _ _, fun l hl => List.mem_append_left _ hl⟩
    · obtain ⟨labels, targets⟩ := ih hc
      exact ⟨labels.trans (List.sublist_append_right _ _), fun l hl =>
        List.mem_append_right _ (targets l hl)⟩

namespace Stmt.Apart

variable {s : Stmt} {ss : List Stmt} {l : LabelId}

theorem block (h : (Stmt.block ss).Apart) : Stmt.Scoped ss :=
  ⟨h.labels, fun l target defined => (mem_unresolved.mp target).2 (h.jumps l target defined)⟩

/-- No jump of a try statement has its target in it. -/
theorem outside (h : s.Apart) (closed : s.plainLabels = []) (target : l ∈ s.escapes) :
    l ∉ s.labels := by
  intro defined
  have plain := h.jumps l target defined
  rw [closed] at plain
  cases plain

/-- A list of a try statement. -/
theorem part (h : s.Apart) (closed : s.plainLabels = [])
    (part : List.Sublist (Stmt.labelsAll ss) s.labels)
    (targets : ∀ l ∈ Stmt.escapesAll ss, l ∈ s.escapes) : Stmt.Scoped ss :=
  ⟨h.labels.sublist part, fun l target defined =>
    h.outside closed (targets l target) (part.subset defined)⟩

variable {id : TryId} {body cleanup fault : List Stmt} {catches : List Catch}
  {finally? : Option (List Stmt)}

theorem inBody (h : (Stmt.tryCatch id body catches finally?).Apart) : Stmt.Scoped body := by
  cases finally? with
  | none =>
    exact h.part rfl (List.sublist_append_left _ _) fun l hl => List.mem_append_left _ hl
  | some cleanup =>
    refine h.part rfl ?_ fun l hl => List.mem_append_left _ (List.mem_append_left _ hl)
    exact (List.sublist_append_left _ _).trans (List.sublist_append_left _ _)

theorem inCleanup (h : (Stmt.tryCatch id body catches (some cleanup)).Apart) : Stmt.Scoped cleanup :=
  h.part rfl (List.sublist_append_right _ _) fun _ hl => List.mem_append_right _ hl

theorem inCatch (h : (Stmt.tryCatch id body catches finally?).Apart) {ty : Option Ty}
    {caught : Option LocalId} (hc : .mk ty caught ss ∈ catches) : Stmt.Scoped ss := by
  obtain ⟨labels, targets⟩ := Catch.mem_parts hc
  cases finally? with
  | none =>
    refine h.part rfl (labels.trans (List.sublist_append_right _ _)) fun l hl => ?_
    exact List.mem_append_right _ (targets l hl)
  | some cleanup =>
    refine h.part rfl (labels.trans ?_) fun l hl => ?_
    · exact (List.sublist_append_right _ _).trans (List.sublist_append_left _ _)
    · exact List.mem_append_left _ (List.mem_append_right _ (targets l hl))

theorem inFaultBody (h : (Stmt.tryFault body fault).Apart) : Stmt.Scoped body :=
  h.part rfl (List.sublist_append_left _ _) fun _ hl => List.mem_append_left _ hl

theorem inFault (h : (Stmt.tryFault body fault).Apart) : Stmt.Scoped fault :=
  h.part rfl (List.sublist_append_right _ _) fun _ hl => List.mem_append_right _ hl

/-- No jump leads out of the body of a try statement to a label of the try statement. -/
theorem body_outside (h : (Stmt.tryCatch id body catches finally?).Apart)
    (target : l ∈ Stmt.escapesAll body) : l ∉ (Stmt.tryCatch id body catches finally?).labels := by
  refine h.outside rfl ?_
  cases finally? with
  | none => exact List.mem_append_left _ target
  | some cleanup => exact List.mem_append_left _ (List.mem_append_left _ target)

end Stmt.Apart

end ManagedCode
