import ManagedCode.Proofs.Run.Assigned
import ManagedCode.Proofs.Run.Safety

namespace ManagedCode

/-! Code that needs nothing but what its machine has never fails because of its form. -/

/-- The host ends an access with an error of its own. -/
def Host.Raises {σ : Type} (host : Host σ) (error : RunError) : Prop :=
  ∃ s s', (∃ member receiver? args, host.call member receiver? args s = .error error s') ∨
    (∃ member receiver?, host.load member receiver? s = .error error s') ∨
    ∃ member receiver? value, host.store member receiver? value s = .error error s'

/-- The code of a machine with so many fields and methods. -/
def Vocabulary.machine (fields methods : Nat) : Vocabulary where
  locals _ := True
  params _ := False
  slots slot := slot.index < fields
  methods method := method.index < methods
  suspends := False
  returns := True

/-- A method of such a machine that reads no local before it is assigned, and that no jump leaves.
-/
structure Body.SelfContained (fields methods : Nat) (body : Body) : Prop where
  uses : Stmt.UsesAll (.machine fields methods) body.root
  assigned : ∃ arrives, Stmt.AssignedAll arrives ∅ body.root
  closed : Stmt.escapesAll body.root = []

/-- The locals that are known to be assigned when a flow has come from a statement: those after it,
or those that its jump arrives with. -/
def Flow.brings (arrives : LabelId → Set LocalId) (after : Set LocalId) : Flow → Set LocalId
  | .normal => after
  | .goto l => arrives l
  | _ => ∅

variable {σ α : Type} {n : Nat}

/-- The machine has `n` fields, and some locals are assigned. -/
structure Config.Holds (n : Nat) (known : Set LocalId) (c : Config σ) : Prop where
  fields : c.world.fields.length = n
  locals : ∀ id ∈ known, (c.activation.locals.lookup id).isSome = true

theorem Config.Holds.mono {known more : Set LocalId} {c : Config σ} (h : c.Holds n more)
    (less : known ⊆ more) : c.Holds n known :=
  ⟨h.fields, fun id hid => h.locals id (less hid)⟩

namespace Environment

/-- The execution may fail so: an error of form is the host's. -/
def MayFail (env : Environment σ) (error : RunError) : Prop :=
  error.OfForm → env.host.Raises error

/-- A step on the world that keeps the number of fields. -/
abbrev Steady (env : Environment σ) (n : Nat) (x : EStateM RunError (World σ) α) : Prop :=
  Ensures (fun w => w.fields.length = n) x (fun _ w => w.fields.length = n) fun e w =>
    env.MayFail e ∧ w.fields.length = n

/-- An execution that keeps what is assigned. -/
abbrev Keeps (env : Environment σ) (n : Nat) (held : Set LocalId) (x : Exec σ α)
    (post : α → Config σ → Prop) : Prop :=
  Ensures (Config.Holds n held) x post fun e c => env.MayFail e ∧ c.Holds n held

/-- So does one that ends with a flow, which leads to one of the targets if it is a jump. -/
abbrev Proceeds (env : Environment σ) (n : Nat) (held : Set LocalId) (x : Exec σ Flow)
    (arrives : LabelId → Set LocalId) (after : Set LocalId) (targets : List LabelId) : Prop :=
  env.Keeps n held x fun flow c => c.Holds n (held ∪ flow.brings arrives after) ∧ flow.Leads targets

/-- What is assumed of the statement lists in a statement. -/
def RunsOn (env : Environment σ) (n : Nat) (run : List Stmt → Exec σ Flow) : Prop :=
  ∀ {arrives : LabelId → Set LocalId} {known held : Set LocalId} {ss : List Stmt},
    Stmt.UsesAll (.machine n env.methods.length) ss → Stmt.AssignedAll arrives known ss →
    known ⊆ held → env.Proceeds n held (run ss) arrives ∅ (Stmt.escapesAll ss)

variable {env : Environment σ} {run : List Stmt → Exec σ Flow} {held known : Set LocalId}
  {arrives : LabelId → Set LocalId}

theorem mayFail_of_not {e : RunError} (other : ¬e.OfForm) : env.MayFail e :=
  fun form => absurd form other

/-! Expressions. -/

theorem steady_onHost {action : EStateM RunError σ α}
    (own : ∀ s e s', action s = .error e s' → env.host.Raises e) :
    env.Steady n (World.onHost action) := by
  intro w hw
  obtain ⟨r, host, ha⟩ := exists_reached (action w.host)
  rw [World.onHost_eq ha]
  cases r with
  | ok a =>
    refine ⟨fun _ _ hx => ?_, fun _ _ hx => ?_⟩ <;> cases hx
    exact hw
  | error e =>
    refine ⟨fun _ _ hx => ?_, fun _ _ hx => ?_⟩ <;> cases hx
    exact ⟨fun _ => own _ _ _ ha, hw⟩

theorem steady_call (member : MemberRef) (receiver? : Option Value) (args : List Value) :
    env.Steady n (World.onHost (env.host.call member receiver? args)) :=
  steady_onHost fun s _ s' h => ⟨s, s', .inl ⟨member, receiver?, args, h⟩⟩

theorem steady_load (member : MemberRef) (receiver? : Option Value) :
    env.Steady n (World.onHost (env.host.load member receiver?)) :=
  steady_onHost fun s _ s' h => ⟨s, s', .inr (.inl ⟨member, receiver?, h⟩)⟩

theorem steady_store (member : MemberRef) (receiver? : Option Value) (value : Value) :
    env.Steady n (World.onHost (env.host.store member receiver? value)) :=
  steady_onHost fun s _ s' h => ⟨s, s', .inr (.inr ⟨member, receiver?, value, h⟩)⟩

theorem steady_readField {slot : FieldSlot} (room : slot.index < n) :
    env.Steady n (World.readField slot) := by
  intro w hw
  have inside : slot.index < w.fields.length := hw ▸ room
  rw [World.readField_eq]
  unfold World.field
  rw [List.getElem?_eq_getElem inside]
  refine ⟨fun _ _ hx => ?_, fun _ _ hx => ?_⟩ <;> cases hx
  exact hw

theorem steady_writeField {slot : FieldSlot} (room : slot.index < n) (value : Value) :
    env.Steady n (World.writeField slot value) := by
  intro w hw
  rw [World.writeField_eq value (hw ▸ room)]
  refine ⟨fun _ _ hx => ?_, fun _ _ hx => ?_⟩ <;> cases hx
  exact List.length_set.trans hw

/-- A method runs with locals of its own, and only an exception leaves it. -/
theorem steady_callBody (runs : env.RunsOn n run) {body : Body}
    (own : body.SelfContained n env.methods.length) (args : List Value) :
    env.Steady n (callBody run body args) := by
  intro w hw
  obtain ⟨arrives, assigned⟩ := own.assigned
  have start : Config.Holds n ∅ (⟨{ args }, w⟩ : Config σ) := ⟨hw, fun _ none => none.elim⟩
  obtain ⟨good, bad⟩ := runs own.uses assigned subset_rfl _ start
  unfold callBody
  cases hx : run body.root ⟨{ args }, w⟩ with
  | error e c =>
    obtain ⟨allowed, holds⟩ := bad e c hx
    refine ⟨fun _ _ hx' => ?_, fun _ _ hx' => ?_⟩ <;> cases hx'
    exact ⟨allowed, holds.fields⟩
  | ok flow c =>
    obtain ⟨holds, leads⟩ := good flow c hx
    cases flow with
    | goto l =>
      have escapes := leads l rfl
      rw [own.closed] at escapes
      cases escapes
    | throw value =>
      refine ⟨fun _ _ hx' => ?_, fun _ _ hx' => ?_⟩ <;> cases hx'
      exact ⟨mayFail_of_not id, holds.fields⟩
    | _ =>
      refine ⟨fun _ _ hx' => ?_, fun _ _ hx' => ?_⟩ <;> cases hx'
      exact holds.fields

theorem steady_invoke (runs : env.RunsOn n run)
    (sound : ∀ m ∈ env.methods, m.body.SelfContained n env.methods.length)
    {method : SynthMethodId} (room : method.index < env.methods.length) (args : List Value) :
    env.Steady n (env.invoke run method args) := by
  unfold invoke
  rw [List.getElem?_eq_getElem room]
  exact steady_callBody runs (sound _ (List.getElem_mem room)) args

section

variable {activation : Activation}
  {invoke : SynthMethodId → List Value → EStateM RunError (World σ) Value}

mutual

theorem steady_evalExpr
    (calls : ∀ method args, method.index < env.methods.length → env.Steady n (invoke method args))
    (held : ∀ id ∈ known, (activation.locals.lookup id).isSome = true) (e : Expr)
    (own : e.Uses (.machine n env.methods.length)) (reads : e.Uses (.reading known)) :
    env.Steady n (e.eval env.host invoke activation) := by
  have unable : ∀ what, ¬(RunError.unsupported what).OfForm →
      env.Steady n (throw (.unsupported what) : EStateM RunError (World σ) Value) := fun _ form =>
    .throws fun w hw => ⟨mayFail_of_not form, hw⟩
  cases e with
  | const value => exact .pure fun w hw => hw
  | «local» id =>
    refine .outcome (fun _ _ _ hw => hw) fun e w failed hw => ?_
    obtain ⟨value, found⟩ := Option.isSome_iff_exists.mp (held id reads)
    unfold Activation.readLocal at failed
    rw [found] at failed
    cases failed
  | param id => exact own.elim
  | machineField slot => exact steady_readField own
  | field receiver member =>
    cases receiver with
    | none => exact steady_load member none
    | some receiver =>
      exact (steady_evalExpr calls held receiver own reads).bind fun _ => steady_load member _
  | call callee receiver args =>
    cases callee with
    | method member =>
      cases receiver with
      | none =>
        exact (steady_evalExprs calls held args own reads).bind fun _ => steady_call member none _
      | some receiver =>
        exact (steady_evalExpr calls held receiver own.1 reads.1).bind fun _ =>
          (steady_evalExprs calls held args own.2 reads.2).bind fun _ => steady_call member _ _
    | synthesized method =>
      cases receiver with
      | none =>
        exact (steady_evalExprs calls held args own.2 reads.2).bind fun values =>
          calls method values own.1
      | some receiver =>
        exact (steady_evalExpr calls held receiver own.2.1 reads.2.1).bind fun _ =>
          (steady_evalExprs calls held args own.2.2 reads.2.2).bind fun values =>
            calls method values own.1
  | binary op lhs rhs =>
    refine (steady_evalExpr calls held lhs own.1 reads.1).bind fun _ =>
      (steady_evalExpr calls held rhs own.2 reads.2).bind fun _ => ?_
    exact .outcome (fun _ _ _ hw => hw) fun e w failed hw =>
      ⟨mayFail_of_not (BinaryOp.not_ofForm failed), hw⟩
  | unary op operand =>
    refine (steady_evalExpr calls held operand own reads).bind fun _ => ?_
    exact .outcome (fun _ _ _ hw => hw) fun e w failed hw =>
      ⟨mayFail_of_not (UnaryOp.not_ofForm failed), hw⟩
  | element | addressOf | newArray | typeToken => exact unable _ id

theorem steady_evalExprs
    (calls : ∀ method args, method.index < env.methods.length → env.Steady n (invoke method args))
    (held : ∀ id ∈ known, (activation.locals.lookup id).isSome = true) (es : List Expr)
    (own : Expr.UsesAll (.machine n env.methods.length) es)
    (reads : Expr.UsesAll (.reading known) es) :
    env.Steady n (Expr.evalAll env.host invoke activation es) := by
  cases es with
  | nil => exact .pure fun w hw => hw
  | cons e es =>
    exact (steady_evalExpr calls held e own.1 reads.1).bind fun _ =>
      (steady_evalExprs calls held es own.2 reads.2).bind fun _ => .pure fun w hw => hw

end

end

/-! Statements. -/

theorem keeps_onWorld {action : Activation → EStateM RunError (World σ) α}
    (h : ∀ activation : Activation, (∀ id ∈ held, (activation.locals.lookup id).isSome = true) →
      env.Steady n (action activation)) :
    env.Keeps n held (Exec.onWorld action) fun _ c => c.Holds n held := by
  rintro ⟨activation, w⟩ holds
  obtain ⟨r, w', ha⟩ := exists_reached (action activation w)
  rw [Exec.onWorld_eq (c := ⟨activation, w⟩) ha]
  have steady := h activation holds.locals w holds.fields
  cases r with
  | ok a =>
    refine ⟨fun _ _ hx => ?_, fun _ _ hx => ?_⟩ <;> cases hx
    exact ⟨steady.1 a w' ha, holds.locals⟩
  | error e =>
    refine ⟨fun _ _ hx => ?_, fun _ _ hx => ?_⟩ <;> cases hx
    obtain ⟨allowed, fields⟩ := steady.2 e w' ha
    exact ⟨allowed, fields, holds.locals⟩

theorem keeps_setLocal (id : LocalId) (value : Value) :
    env.Keeps n held (Exec.setLocal id value) fun _ c => c.Holds n (insert id held) := by
  refine .update fun c holds => ⟨holds.fields, fun other known => ?_⟩
  change ((c.activation.writeLocal id value).locals.lookup other).isSome = true
  by_cases same : other = id
  · rw [same, Activation.lookup_writeLocal_self]
    rfl
  · rw [Activation.lookup_writeLocal_of_ne _ _ same]
    exact holds.locals other (known.resolve_left same)

section

variable (runs : env.RunsOn n run)
  (sound : ∀ m ∈ env.methods, m.body.SelfContained n env.methods.length)

include runs sound

theorem keeps_eval {e : Expr} (own : e.Uses (.machine n env.methods.length))
    (reads : e.Uses (.reading known)) (less : known ⊆ held) :
    env.Keeps n held (env.eval run e) fun _ c => c.Holds n held :=
  keeps_onWorld fun _ assigned =>
    steady_evalExpr (fun _ args room => steady_invoke runs sound room args)
      (fun id hid => assigned id (less hid)) e own reads

theorem keeps_evalBool {e : Expr} (own : e.Uses (.machine n env.methods.length))
    (reads : e.Uses (.reading known)) (less : known ⊆ held) :
    env.Keeps n held (env.evalBool run e) fun _ c => c.Holds n held := by
  refine (keeps_eval runs sound own reads less).bind fun value => ?_
  cases value with
  | bool b => exact .pure fun _ h => h
  | _ => exact .throws fun _ h => ⟨mayFail_of_not id, h⟩

theorem keeps_evalInt {e : Expr} (own : e.Uses (.machine n env.methods.length))
    (reads : e.Uses (.reading known)) (less : known ⊆ held) :
    env.Keeps n held (env.evalInt run e) fun _ c => c.Holds n held := by
  refine (keeps_eval runs sound own reads less).bind fun value => ?_
  cases value with
  | int i => exact .pure fun _ h => h
  | _ => exact .throws fun _ h => ⟨mayFail_of_not id, h⟩

/-- A local that is written is assigned from then on. -/
theorem keeps_write (value : Value) {place : Place}
    (own : place.Uses (.machine n env.methods.length)) (reads : place.Reads known)
    (less : known ⊆ held) (e : Expr) :
    env.Keeps n held (env.write run value place) fun _ c =>
      c.Holds n (held ∪ (Stmt.assign place e).after arrives known) := by
  have kept : ∀ c : Config σ, c.Holds n held → c.Holds n (held ∪ known) := fun c h =>
    h.mono (Set.union_subset subset_rfl less)
  cases place with
  | «local» id =>
    refine (keeps_setLocal id value).mono (fun _ h => h) (fun _ _ h => h.mono ?_) fun _ _ h => h
    exact Set.union_subset (Set.subset_insert _ _) (Set.insert_subset_insert less)
  | param id => exact own.elim
  | machineField slot =>
    exact (keeps_onWorld fun _ _ => steady_writeField own value).mono (fun _ h => h)
      (fun _ c h => kept c h) fun _ _ h => h
  | field receiver member =>
    cases receiver with
    | none =>
      exact (keeps_onWorld fun _ _ => steady_store member none value).mono (fun _ h => h)
        (fun _ c h => kept c h) fun _ _ h => h
    | some receiver =>
      refine (keeps_eval runs sound own reads less).bind fun object => ?_
      exact (keeps_onWorld fun _ _ => steady_store member (some object) value).mono (fun _ h => h)
        (fun _ c h => kept c h) fun _ _ h => h
  | element => exact .throws fun _ h => ⟨mayFail_of_not id, h⟩

omit runs sound

theorem brings_subset (less : known ⊆ held) (flow : Flow) :
    held ∪ flow.brings arrives known ⊆ held ∪ flow.brings arrives ∅ := by
  refine Set.union_subset Set.subset_union_left ?_
  cases flow with
  | normal => exact less.trans Set.subset_union_left
  | goto l => exact Set.subset_union_right
  | _ => exact Set.empty_subset _

theorem proceeds_pure {flow : Flow} {after : Set LocalId} {targets : List LabelId}
    (leads : flow.Leads targets) (brings : flow.brings arrives after ⊆ held) :
    env.Proceeds n held (pure flow) arrives after targets :=
  .pure fun _ h => ⟨h.mono (Set.union_subset subset_rfl brings), leads⟩

/-- The first clause handles an exception; with any other flow nothing is done. -/
theorem proceeds_handle (runs : env.RunsOn n run) {catches : List Catch}
    (own : Catch.UsesAll (.machine n env.methods.length) catches)
    (assigned : Catch.AssignedAll arrives known catches) (less : known ⊆ held)
    {targets : List LabelId} {flow : Flow} (leads : flow.Leads targets) :
    Ensures (Config.Holds n (held ∪ flow.brings arrives ∅)) (handle run catches flow)
      (fun ended c => c.Holds n (held ∪ ended.brings arrives ∅) ∧
        ended.Leads (targets ++ Catch.escapesAll catches))
      fun e c => env.MayFail e ∧ c.Holds n held := by
  have passes : Ensures (Config.Holds n (held ∪ flow.brings arrives ∅))
      (pure flow : Exec σ Flow)
      (fun ended c => c.Holds n (held ∪ ended.brings arrives ∅) ∧
        ended.Leads (targets ++ Catch.escapesAll catches))
      fun e c => env.MayFail e ∧ c.Holds n held :=
    .pure fun _ h => ⟨h, fun l same => List.mem_append_left _ (leads l same)⟩
  cases flow with
  | throw value =>
    cases catches with
    | nil => exact passes
    | cons clause rest =>
      obtain ⟨exceptionTy, caught, body⟩ := clause
      have more : ∀ ended : Flow, ended.Leads (Stmt.escapesAll body) →
          ended.Leads (targets ++ Catch.escapesAll (.mk exceptionTy caught body :: rest)) :=
        fun _ leads l same => List.mem_append_right _ (List.mem_append_left _ (leads l same))
      cases caught with
      | none =>
        exact (runs own.2.1 assigned.1 less).mono (fun _ h => h.mono Set.subset_union_left)
          (fun ended _ h => ⟨h.1, more ended h.2⟩) fun _ _ h => h
      | some caught =>
        have wider : held ⊆ insert caught held := Set.subset_insert _ _
        have set : Ensures (Config.Holds n (held ∪ ∅)) (Exec.setLocal caught value)
            (fun _ c => c.Holds n (insert caught held)) fun e c => env.MayFail e ∧ c.Holds n held :=
          (keeps_setLocal caught value).mono (fun _ h => h.mono Set.subset_union_left)
            (fun _ _ h => h) fun _ _ h => h
        refine set.bind fun _ => ?_
        exact (runs own.2.1 assigned.1 (Set.insert_subset_insert less)).mono (fun _ h => h)
          (fun ended _ h => ⟨h.1.mono (Set.union_subset_union_left _ wider), more ended h.2⟩)
          fun _ _ h => ⟨h.1, h.2.mono wider⟩
  | _ => exact passes

/-- A cleanup goes on as the flow before it did, or ends the statement in another way. -/
theorem proceeds_cleanUp (runs : env.RunsOn n run) {cleanup : List Stmt}
    (own : Stmt.UsesAll (.machine n env.methods.length) cleanup)
    (assigned : Stmt.AssignedAll arrives known cleanup) (less : known ⊆ held)
    {targets : List LabelId} {flow : Flow} (leads : flow.Leads targets) :
    Ensures (Config.Holds n (held ∪ flow.brings arrives ∅)) (cleanUp run cleanup flow)
      (fun ended c => c.Holds n (held ∪ ended.brings arrives ∅) ∧
        ended.Leads (targets ++ Stmt.escapesAll cleanup))
      fun e c => env.MayFail e ∧ c.Holds n held := by
  have wider : held ⊆ held ∪ flow.brings arrives ∅ := Set.subset_union_left
  refine Ensures.bind ((runs own assigned (less.trans wider)).mono (fun _ h => h) (fun _ _ h => h)
    fun _ _ h => ⟨h.1, h.2.mono wider⟩) fun ended => .given fun later => ?_
  cases ended with
  | normal =>
    exact .pure fun _ h => ⟨h.mono Set.subset_union_left,
      fun l same => List.mem_append_left _ (leads l same)⟩
  | _ =>
    exact .pure fun _ h => ⟨h.mono (Set.union_subset_union_left _ wider),
      fun l same => List.mem_append_right _ (later l same)⟩

/-- A statement other than a block goes on with what is assigned after it, or leaves as its jumps
do. -/
theorem proceeds_execStmt (runs : env.RunsOn n run)
    (sound : ∀ m ∈ env.methods, m.body.SelfContained n env.methods.length) {s : Stmt}
    (plain : ∀ stmts, s ≠ .block stmts) (own : s.Uses (.machine n env.methods.length))
    (assigned : s.Assigned arrives known) (less : known ⊆ held) :
    env.Proceeds n held (env.execStmt run s) arrives (s.after arrives known) s.escapes := by
  have stays : ∀ {flow : Flow}, (∀ l, flow ≠ .goto l) → flow.Leads s.escapes :=
    fun other l same => absurd same (other l)
  -- A statement with regions ends as its lists do.
  have regions : ∀ {x : Exec σ Flow} {targets : List LabelId}, targets = s.escapes →
      s.after arrives known = known → env.Proceeds n held x arrives ∅ targets →
      env.Proceeds n held x arrives (s.after arrives known) s.escapes := by
    rintro x targets rfl same h
    rw [same]
    exact h.mono (fun _ h => h) (fun flow _ h => ⟨h.1.mono (brings_subset less flow), h.2⟩)
      fun _ _ h => h
  cases s with
  | block stmts => exact absurd rfl (plain stmts)
  | expr value =>
    exact (keeps_eval runs sound own assigned less).bind fun _ =>
      proceeds_pure (stays nofun) less
  | assign place value =>
    refine (keeps_eval runs sound own.2 assigned.2 less).bind fun v => ?_
    have written : env.Keeps n held (env.write run v place) fun _ c =>
        c.Holds n (held ∪ (Stmt.assign place value).after arrives known) :=
      keeps_write runs sound v own.1 assigned.1 less value
    exact written.bind fun _ => .pure fun _ h => ⟨h, stays nofun⟩
  | label l => exact proceeds_pure (stays nofun) (assigned.trans less)
  | nop => exact proceeds_pure (stays nofun) less
  | goto target =>
    refine proceeds_pure (fun l same => ?_) (assigned.trans less)
    cases same
    exact List.mem_singleton_self _
  | condGoto cond jumpIf target =>
    refine (keeps_evalBool runs sound own assigned.1 less).bind fun holds => ?_
    by_cases jumps : holds = jumpIf
    · rw [if_pos jumps]
      refine proceeds_pure (fun l same => ?_) (assigned.2.trans less)
      cases same
      exact List.mem_singleton_self _
    · rw [if_neg jumps]
      exact proceeds_pure (stays nofun) less
  | switch scrutinee cases default? =>
    refine (keeps_evalInt runs sound own assigned.1 less).bind fun value => ?_
    cases chosen : cases.lookup value <|> default? with
    | none => exact proceeds_pure (stays nofun) less
    | some target =>
      have mem : target ∈ cases.map (·.2) ++ default?.toList := by
        cases found : cases.lookup value with
        | some found' =>
          rw [found] at chosen
          cases chosen
          obtain ⟨before, after, split, -⟩ := List.lookup_eq_some_iff.mp found
          refine List.mem_append_left _ (List.mem_map.mpr ⟨(value, target), ?_, rfl⟩)
          rw [split]
          exact List.mem_append_right _ List.mem_cons_self
        | none =>
          rw [found] at chosen
          cases chosen
          exact List.mem_append_right _ (List.mem_singleton_self _)
      refine proceeds_pure (fun l same => ?_) ((assigned.2 target mem).trans less)
      cases same
      exact mem
  | ret value =>
    cases value with
    | none => exact proceeds_pure (stays nofun) (Set.empty_subset _)
    | some value =>
      exact (keeps_eval runs sound own.2 assigned less).bind fun _ =>
        proceeds_pure (stays nofun) (Set.empty_subset _)
  | yield value => exact own.1.elim
  | yieldBreak => exact own.elim
  | tryCatch id body catches cleanup =>
    cases cleanup with
    | none =>
      refine regions rfl rfl ((runs own.1 assigned.1 less).bind fun flow =>
        .given fun leads => ?_)
      refine (proceeds_handle runs own.2 assigned.2 less leads).bind fun flow => ?_
      exact .pure fun _ h => h
    | some cleanup =>
      refine regions rfl rfl ((runs own.1 assigned.1 less).bind fun flow =>
        .given fun leads => ?_)
      refine (proceeds_handle runs own.2.1 assigned.2.1 less leads).bind fun flow =>
        .given fun leads => ?_
      exact proceeds_cleanUp runs own.2.2 assigned.2.2 less leads
  | tryFault body fault =>
    refine regions rfl rfl ((runs own.1 assigned.1 less).bind fun flow =>
      .given fun leads => ?_)
    cases flow with
    | throw value => exact proceeds_cleanUp runs own.2 assigned.2 less leads
    | _ => exact .pure fun _ h => ⟨h, fun l same => List.mem_append_left _ (leads l same)⟩
  | throw value =>
    exact (keeps_eval runs sound own assigned less).bind fun _ =>
      proceeds_pure (stays nofun) (Set.empty_subset _)

theorem keeps_tick : env.Keeps n held Exec.tick fun _ c => c.Holds n held := by
  intro c h
  cases fuel : c.fuel with
  | zero =>
    rw [Exec.tick_zero fuel]
    refine ⟨fun _ _ hx => ?_, fun _ _ hx => ?_⟩ <;> cases hx
    exact ⟨mayFail_of_not id, h⟩
  | succ m =>
    rw [Exec.tick_succ fuel]
    refine ⟨fun _ _ hx => ?_, fun _ _ hx => ?_⟩ <;> cases hx
    exact ⟨h.fields, h.locals⟩

/-- An exception is a way to end, with what was assigned before. -/
theorem proceeds_unwinding {x : Exec σ Flow} {after : Set LocalId} {targets : List LabelId}
    (h : env.Proceeds n held x arrives after targets) :
    env.Proceeds n held x.unwinding arrives after targets := by
  intro c hc
  cases hx : x c with
  | ok flow c' =>
    rw [Exec.unwinding_of_ok hx]
    refine ⟨fun _ _ hx' => ?_, fun _ _ hx' => ?_⟩ <;> cases hx'
    exact (h c hc).1 flow c' hx
  | error error c' =>
    obtain ⟨allowed, holds⟩ := (h c hc).2 error c' hx
    by_cases thrown : ∃ value, error = .thrown value
    · obtain ⟨value, rfl⟩ := thrown
      rw [Exec.unwinding_of_thrown hx]
      refine ⟨fun _ _ hx' => ?_, fun _ _ hx' => ?_⟩ <;> cases hx'
      exact ⟨holds.mono (Set.union_subset subset_rfl (Set.empty_subset _)), nofun⟩
    · rw [Exec.unwinding_of_error hx fun value same => thrown ⟨value, same⟩]
      refine ⟨fun _ _ hx' => ?_, fun _ _ hx' => ?_⟩ <;> cases hx'
      exact ⟨allowed, holds⟩

/-- From a point in a list, an execution ends with what its flow brings, or as it may fail. -/
theorem proceeds_run (sound : ∀ m ∈ env.methods, m.body.SelfContained n env.methods.length)
    (m : Nat) {arrives : LabelId → Set LocalId} {known held : Set LocalId} {top : List Stmt}
    {p : Point} (own : Stmt.UsesAll (.machine n env.methods.length) top) (here : At top p)
    (assigned : p.Assigned arrives known) (less : known ⊆ held) :
    env.Proceeds n held (env.run m p) arrives ∅ (Stmt.escapesAll top) := by
  induction m generalizing arrives known held top p with
  | zero =>
    cases due : p.next? with
    | none =>
      rw [run_done due]
      exact proceeds_pure (by rintro _ ⟨⟩) (Set.empty_subset _)
    | some next =>
      rw [run_zero due]
      exact .throws fun _ h => ⟨mayFail_of_not id, h⟩
  | succ m ih =>
    cases due : p.next? with
    | none =>
      rw [run_done due]
      exact proceeds_pure (by rintro _ ⟨⟩) (Set.empty_subset _)
    | some next =>
      obtain ⟨s, after⟩ := next
      obtain ⟨list, rest, outer, rfl, at_⟩ := here.next due
      have ready : Point.Assigned arrives known (⟨list, s :: rest⟩ :: outer) := by
        obtain ⟨_, _, _, same, ready⟩ := assigned.next due
        cases same
        exact ready
      have mem : s ∈ list := at_.suffix.mem List.mem_cons_self
      have uses : s.Uses (.machine n env.methods.length) :=
        (at_.inherits (fun h hs => h.mem hs) own rfl).mem mem
      have later : At top (⟨list, rest⟩ :: outer) := at_.later (List.suffix_cons s rest)
      have runs : env.RunsOn n fun stmts => env.run m (.start stmts) := fun own assigned less =>
        ih own (.base List.suffix_rfl) (.base assigned) less
      have told : env.Keeps n held (Exec.onHost (env.watch s)) fun _ c => c.Holds n held :=
        .update fun _ h => ⟨h.fields, h.locals⟩
      -- Whatever a statement brings, it is there with what was held before.
      have goesOn : ∀ {known' : Set LocalId} {q : Point}, At top q → q.Assigned arrives known' →
          Ensures (Config.Holds n (held ∪ known')) (env.run m q)
            (fun flow c => c.Holds n (held ∪ flow.brings arrives ∅) ∧
              flow.Leads (Stmt.escapesAll top))
            fun e c => env.MayFail e ∧ c.Holds n held := fun there assigned =>
        (ih own there assigned Set.subset_union_right).mono (fun _ h => h)
          (fun _ _ h => ⟨h.1.mono (Set.union_subset_union_left _ Set.subset_union_left), h.2⟩)
          fun _ _ h => ⟨h.1, h.2.mono Set.subset_union_left⟩
      have follows : ∀ (plain : ∀ stmts, s ≠ .block stmts), env.Proceeds n held
          ((env.execStmt (fun stmts => env.run m (.start stmts)) s).unwinding >>=
            follow (env.run m) (⟨list, rest⟩ :: outer)) arrives ∅ (Stmt.escapesAll top) := by
        intro plain
        have exec := proceeds_execStmt runs sound plain uses ready.1.1 less
        refine (proceeds_unwinding exec).bind fun flow => .given fun leads => ?_
        cases flow with
        | normal => exact goesOn later ready.later
        | goto l =>
          cases found : Point.jump? l (⟨list, rest⟩ :: outer) with
          | some target =>
            simp only [follow, found]
            exact goesOn (later.jump found) (ready.later.jump found)
          | none =>
            simp only [follow, found]
            refine .pure fun _ h => ⟨h, fun l' same => ?_⟩
            cases same
            exact later.mem_escapesAll rfl mem (leads l rfl) found
        | _ => exact .pure fun _ h => ⟨h, by rintro _ ⟨⟩⟩
      rw [run_succ due]
      refine keeps_tick.bind fun _ => told.bind fun _ => ?_
      cases s with
      | block stmts => exact ih own (at_.rooted stmts List.suffix_rfl) ready.block less
      | _ => exact follows (by rintro _ ⟨⟩)

theorem runsOn_run (sound : ∀ m ∈ env.methods, m.body.SelfContained n env.methods.length)
    (m : Nat) : env.RunsOn n fun stmts => env.run m (.start stmts) := fun own assigned less =>
  proceeds_run sound m own (.base List.suffix_rfl) (.base assigned) less

end

/-- In a machine whose methods are self-contained, a method keeps the number of fields, and an error
of form is one of the host. -/
theorem steady_execute (sound : ∀ m ∈ env.methods, m.body.SelfContained n env.methods.length)
    {body : Body} (own : body.SelfContained n env.methods.length) (args : List Value) :
    env.Steady n (env.execute body args) :=
  fun w => steady_callBody (runsOn_run sound w.fuel) own args w

end Environment

end ManagedCode
