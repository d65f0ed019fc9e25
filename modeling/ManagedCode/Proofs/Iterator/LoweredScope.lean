import ManagedCode.Proofs.Iterator.HoistReferences
import ManagedCode.Proofs.Iterator.LowerSteps
import ManagedCode.Proofs.Metadata.ReferenceScope

namespace ManagedCode

namespace Symbols

def StmtsInScope (symbols : Symbols) (stmts : List Stmt) : Prop :=
  ∀ r ∈ Stmt.referencesAll stmts, symbols.ReferenceInScope r

variable {symbols : Symbols}

theorem referencesAll_append (first second : List Stmt) :
    Stmt.referencesAll (first ++ second) =
      Stmt.referencesAll first ++ Stmt.referencesAll second := by
  induction first with
  | nil => rfl
  | cons s ss ih => simp only [List.cons_append, Stmt.referencesAll, ih, List.append_assoc]

theorem StmtsInScope.append {first second : List Stmt} (h : symbols.StmtsInScope first)
    (h' : symbols.StmtsInScope second) : symbols.StmtsInScope (first ++ second) := by
  intro r hr
  rw [referencesAll_append] at hr
  exact (List.mem_append.mp hr).elim (h r) (h' r)

theorem stmtsInScope_singleton {s : Stmt} :
    symbols.StmtsInScope [s] ↔ ∀ r ∈ s.references, symbols.ReferenceInScope r := by
  simp [StmtsInScope, Stmt.referencesAll]

theorem stmtsInScope_cons {s : Stmt} {ss : List Stmt} :
    symbols.StmtsInScope (s :: ss) ↔
      (∀ r ∈ s.references, symbols.ReferenceInScope r) ∧ symbols.StmtsInScope ss := by
  simp only [StmtsInScope, Stmt.referencesAll, List.mem_append, or_imp, forall_and]

end Symbols

namespace Lowering

/-- What was made of a body so far refers to what is in scope. -/
structure Progress.InScope (symbols : Symbols) (progress : Progress) : Prop where
  locals : ∀ l ∈ progress.locals, symbols.InScope l.ty
  handlers : ∀ m ∈ progress.handlers, symbols.InScope m.ret ∧ symbols.BodyInScope m.body

/-- A step of lowering keeps to what is in scope. -/
def Keeps {α : Type} (symbols : Symbols) (step : LowerM α) (post : α → Prop := fun _ => True) :
    Prop :=
  ∀ p a later, p.InScope symbols → step p = .ok (a, later) → later.InScope symbols ∧ post a

namespace Keeps

variable {α β : Type} {symbols : Symbols} {post : α → Prop} {post' : β → Prop}

theorem pure {a : α} (h : post a) : Keeps symbols (Pure.pure a) post := by
  intro p b later hp he
  cases he
  exact ⟨hp, h⟩

theorem bind {step : LowerM α} {next : α → LowerM β} (h : Keeps symbols step post)
    (h' : ∀ a, post a → Keeps symbols (next a) post') : Keeps symbols (step >>= next) post' := by
  intro p b later hp he
  change (step p >>= fun (a, middle) => next a middle) = _ at he
  cases hs : step p with
  | error fault => rw [hs] at he; cases he
  | ok result =>
    obtain ⟨a, middle⟩ := result
    rw [hs] at he
    obtain ⟨hm, ha⟩ := h p a middle hp hs
    exact h' a ha middle b later hm he

theorem bindAny {step : LowerM α} {next : α → LowerM β} (h : Keeps symbols step)
    (h' : ∀ a, Keeps symbols (next a) post') : Keeps symbols (step >>= next) post' :=
  bind h fun a _ => h' a

theorem mapM {f : α → LowerM β} {l : List α} (h : ∀ a ∈ l, Keeps symbols (f a)) :
    Keeps symbols (l.mapM f) := by
  induction l with
  | nil => exact pure trivial
  | cons a l ih =>
    rw [List.mapM_cons]
    refine bindAny (h a List.mem_cons_self) fun b => ?_
    exact bindAny (ih fun c hc => h c (List.mem_cons_of_mem a hc)) fun bs => pure trivial

/-- A step that leaves the locals and the handlers as they are. -/
theorem of_same {step : LowerM α}
    (h : ∀ p a later, step p = .ok (a, later) →
      later.locals = p.locals ∧ later.handlers = p.handlers) : Keeps symbols step := by
  intro p a later hp he
  obtain ⟨hl, hh⟩ := h p a later he
  exact ⟨⟨hl ▸ hp.locals, hh ▸ hp.handlers⟩, trivial⟩

theorem throw {fault : LoweringFault} : Keeps symbols (throwThe LoweringFault fault) post := by
  intro p a later _ he
  cases he

theorem orOverflow {o : Option α} : Keeps symbols (orOverflow o) :=
  match o with
  | some _ => pure trivial
  | none => throw

theorem freshLabel : Keeps symbols freshLabel :=
  of_same fun p a later he => by
    obtain ⟨-, -, rfl⟩ := freshLabel_eq_ok he
    exact ⟨rfl, rfl⟩

theorem temp {ty : Ty} (h : symbols.InScope ty) : Keeps symbols (temp ty) := by
  intro p a later hp he
  cases he
  refine ⟨⟨fun l hl => ?_, hp.handlers⟩, trivial⟩
  rcases List.mem_append.mp hl with hl | hl
  · exact hp.locals l hl
  · exact List.mem_singleton.mp hl ▸ h

theorem hoistExpr {source : Source} {e : Expr} :
    Keeps symbols (hoistExpr source e) fun e' => e'.references = e.references :=
  bindAny orOverflow fun _ => pure (e.references_hoist _)

theorem hoistPlace {source : Source} {place : Place} :
    Keeps symbols (hoistPlace source place) fun place' =>
      place'.storeReferences ++ place'.references = place.storeReferences ++ place.references :=
  bindAny orOverflow fun _ => pure <| by
    obtain ⟨hs, -, hr⟩ := place.references_hoist source.paramCount
    rw [hs, hr]

theorem addState {frame : FrameId} : Keeps symbols (addState frame) :=
  of_same fun p a later he => by
    obtain ⟨-, -, -, rfl⟩ := addState_eq_ok he
    exact ⟨rfl, rfl⟩

theorem route {frame : FrameId} {target : LabelId} : Keeps symbols (route frame target) :=
  of_same fun p a later he => by
    rcases route_eq_ok he with ⟨-, -, rfl⟩ | ⟨-, -, rfl⟩ | ⟨-, -, -, -, rfl⟩ <;> exact ⟨rfl, rfl⟩

theorem finalizeState {frame : FrameId} : Keeps symbols (finalizeState frame) :=
  of_same fun p a later he => by cases he; exact ⟨rfl, rfl⟩

theorem resultLocal : Keeps symbols resultLocal := by
  intro p a later hp he
  rcases resultLocal_eq_ok he with ⟨-, rfl⟩ | ⟨-, -, rfl⟩
  · exact ⟨hp, trivial⟩
  · refine ⟨⟨fun l hl => ?_, hp.handlers⟩, trivial⟩
    rcases List.mem_append.mp hl with hl | hl
    · exact hp.locals l hl
    · exact List.mem_singleton.mp hl ▸ nofun

theorem yieldValue {position : Position} {value : Expr}
    (h : ∀ r ∈ value.references, symbols.ReferenceInScope r) :
    Keeps symbols (yieldValue position value) symbols.StmtsInScope := by
  refine bindAny addState fun ⟨state, resume⟩ => bindAny finalizeState fun finalize => pure ?_
  intro r hr
  simp only [Stmt.referencesAll, Stmt.references, setState, Expr.int, Expr.bool, Expr.references,
    Place.references, Place.storeReferences, List.append_nil, List.nil_append] at hr
  exact h r hr

theorem yieldBreak {source : Source} {position : Position} :
    Keeps symbols (yieldBreak source position) symbols.StmtsInScope := by
  unfold Lowering.yieldBreak
  split
  next => exact bindAny resultLocal fun _ => bindAny route fun _ => pure nofun
  next => exact pure nofun

theorem proxySections {parent : FrameId} {handler : SynthMethodId}
    {proxies : List (LabelId × LabelId)} :
    Keeps symbols (proxySections parent handler proxies) symbols.StmtsInScope := by
  induction proxies with
  | nil => exact pure nofun
  | cons proxy rest ih => exact bindAny route fun _ => bind ih fun _ h => pure h

theorem leaveFrame {parent frame : FrameId} {handler : SynthMethodId} :
    Keeps symbols (leaveFrame parent frame handler) symbols.StmtsInScope := by
  refine bindAny (of_same fun p a later he => ?_) fun proxies => ?_
  · cases he
    exact ⟨rfl, rfl⟩
  · split
    next => exact pure nofun
    next =>
      refine bindAny freshLabel fun dropThrough => bind proxySections fun sections h => pure ?_
      have after : symbols.StmtsInScope
          [.label dropThrough, .expr (.callSynthesized handler)] := nofun
      exact h.append after

theorem pushFrame {source : Source} {parent : FrameId} {id : TryId} :
    Keeps symbols (pushFrame source parent id) := by
  intro p ⟨frame, index⟩ later hp he
  obtain ⟨-, -, rfl, rfl⟩ := pushFrame_eq_ok he
  refine ⟨⟨hp.locals, fun m hm => ?_⟩, trivial⟩
  rcases List.mem_append.mp hm with hm | hm
  · exact hp.handlers m hm
  · rw [List.mem_singleton.mp hm]
    exact ⟨nofun, nofun⟩

theorem bodyInScope {body : Body} (locals : ∀ l ∈ body.locals, symbols.InScope l.ty)
    (root : symbols.StmtsInScope body.root) : symbols.BodyInScope body := by
  intro r hm
  rcases List.mem_append.mp hm with hm | hm
  · obtain ⟨l, hl, rfl⟩ := List.mem_map.mp hm
    exact locals l hl
  · exact root r hm

theorem writeHandler {parent : FrameId} {index : Nat} {finallyClause : LowerM (List Stmt)}
    (h : Keeps symbols finallyClause symbols.StmtsInScope) :
    Keeps symbols (writeHandler parent index finallyClause) := by
  refine bindAny finalizeState fun state => ?_
  have save : Keeps symbols
      (modifyGet fun p => (p.locals, { p with locals := [] }) : LowerM (List LocalDecl))
      fun saved => ∀ l ∈ saved, symbols.InScope l.ty := by
    intro p a later hp he
    cases he
    exact ⟨⟨nofun, hp.handlers⟩, hp.locals⟩
  refine bind save fun saved hs => bind h fun stmts hr => ?_
  intro p a later hp he
  cases he
  refine ⟨⟨hs, fun m hm => ?_⟩, trivial⟩
  obtain ⟨i, hi, rfl⟩ := List.mem_iff_getElem.mp hm
  rw [List.getElem_modify]
  rw [List.length_modify] at hi
  split
  next =>
    have last : symbols.StmtsInScope [.ret none] := nofun
    refine ⟨(hp.handlers _ (List.getElem_mem hi)).1, bodyInScope hp.locals (hr.append last)⟩
  next => exact hp.handlers _ (List.getElem_mem hi)

theorem suspendingTry {source : Source} {position : Position} {id : TryId}
    {body : Position → LowerM (List Stmt)} {finallyClause : LowerM (List Stmt)}
    (hb : ∀ inner, Keeps symbols (body inner) symbols.StmtsInScope)
    (hf : Keeps symbols finallyClause symbols.StmtsInScope) :
    Keeps symbols (suspendingTry source position id body finallyClause) symbols.StmtsInScope := by
  refine bindAny pushFrame fun ⟨frame, index⟩ => bindAny finalizeState fun entry => ?_
  refine bind (hb _) fun stmts hs => bind leaveFrame fun leave hl => ?_
  refine bindAny (writeHandler hf) fun _ => pure ?_
  rw [Symbols.stmtsInScope_singleton]
  exact hs.append hl

end Keeps

variable {symbols : Symbols} {source : Source}

theorem inScope_caughtTy (locals : ∀ t ∈ source.localTys, symbols.InScope t)
    {exceptionTy : Option Ty} (h : ∀ t, exceptionTy = some t → symbols.InScope t)
    (caught : LocalId) : symbols.InScope (caughtTy source exceptionTy caught) := by
  unfold caughtTy
  cases hl : source.localTys[caught.index]? with
  | some t => exact locals t (List.mem_of_getElem? hl)
  | none =>
    cases exceptionTy with
    | some t => exact h t rfl
    | none => exact nofun

mutual

theorem keeps_rewriteStmt (locals : ∀ t ∈ source.localTys, symbols.InScope t)
    (position : Position) (s : Stmt) (h : ∀ r ∈ s.references, symbols.ReferenceInScope r) :
    Keeps symbols (rewriteStmt source position s) symbols.StmtsInScope := by
  cases s with
  | block stmts =>
    refine .bind (keeps_rewriteStmts locals position stmts h) fun out ho => .pure ?_
    exact Symbols.stmtsInScope_singleton.mpr ho
  | expr value =>
    refine .bind .hoistExpr fun value' hv => .pure (Symbols.stmtsInScope_singleton.mpr ?_)
    rw [Stmt.references, hv]
    exact h
  | throw value =>
    refine .bind .hoistExpr fun value' hv => .pure (Symbols.stmtsInScope_singleton.mpr ?_)
    rw [Stmt.references, hv]
    exact h
  | assign place value =>
    refine .bind .hoistPlace fun place' hp => .bind .hoistExpr fun value' hv =>
      .pure (Symbols.stmtsInScope_singleton.mpr ?_)
    rw [Stmt.references, ← List.append_assoc, hp, hv, List.append_assoc]
    exact h
  | label l => exact .pure nofun
  | goto target => exact .bindAny .route fun _ => .pure nofun
  | condGoto cond jumpIf target =>
    refine .bind .hoistExpr fun cond' hc => .bindAny .route fun _ =>
      .pure (Symbols.stmtsInScope_singleton.mpr ?_)
    rw [Stmt.references, hc]
    exact h
  | switch scrutinee cases default? =>
    refine .bind .hoistExpr fun scrutinee' hs => ?_
    refine .bindAny (.mapM fun _ _ => .bindAny .route fun _ => .pure trivial) fun _ => ?_
    have other : Keeps symbols (default?.mapM (route position.frame)) := by
      cases default? with
      | none => exact .pure trivial
      | some target => exact .bindAny .route fun _ => .pure trivial
    refine .bindAny other fun _ => .pure (Symbols.stmtsInScope_singleton.mpr ?_)
    rw [Stmt.references, hs]
    exact h
  | ret value => exact .throw
  | «yield» value =>
    refine .bind .hoistExpr fun value' hv => .yieldValue ?_
    rw [hv]
    exact h
  | yieldBreak => exact .yieldBreak
  | tryCatch id body catches finally? =>
    cases finally? with
    | none =>
      have hb : symbols.StmtsInScope body := fun r hr => h r (List.mem_append_left _ hr)
      have hc : ∀ r ∈ Catch.referencesAll catches, symbols.ReferenceInScope r :=
        fun r hr => h r (List.mem_append_right _ hr)
      unfold rewriteStmt
      split
      next =>
        exact .suspendingTry (fun inner => keeps_rewriteStmts locals inner body hb) (.pure nofun)
      next =>
        refine .bind (keeps_rewriteStmts locals _ body hb) fun body' hb' => ?_
        refine .bind (keeps_rewriteCatches locals _ catches hc) fun catches' hc' => .pure ?_
        exact Symbols.stmtsInScope_singleton.mpr fun r hr =>
          (List.mem_append.mp hr).elim (hb' r) (hc' r)
    | some finally_ =>
      have hb : symbols.StmtsInScope body := fun r hr => h r (List.mem_append_left _ hr)
      have hc : ∀ r ∈ Catch.referencesAll catches, symbols.ReferenceInScope r :=
        fun r hr => h r (List.mem_append_right _ (List.mem_append_left _ hr))
      have hf : symbols.StmtsInScope finally_ :=
        fun r hr => h r (List.mem_append_right _ (List.mem_append_right _ hr))
      unfold rewriteStmt
      split
      next =>
        exact .suspendingTry (fun inner => keeps_rewriteStmts locals inner body hb)
          (keeps_rewriteStmts locals position finally_ hf)
      next =>
        refine .bind (keeps_rewriteStmts locals _ body hb) fun body' hb' => ?_
        refine .bind (keeps_rewriteCatches locals _ catches hc) fun catches' hc' => ?_
        refine .bind (keeps_rewriteStmts locals _ finally_ hf) fun finally' hf' => .pure ?_
        exact Symbols.stmtsInScope_singleton.mpr fun r hr =>
          (List.mem_append.mp hr).elim (hb' r) fun hr =>
            (List.mem_append.mp hr).elim (hc' r) (hf' r)
  | tryFault body fault =>
    have hb : symbols.StmtsInScope body := fun r hr => h r (List.mem_append_left _ hr)
    have hf : symbols.StmtsInScope fault := fun r hr => h r (List.mem_append_right _ hr)
    refine .bind (keeps_rewriteStmts locals _ body hb) fun body' hb' => ?_
    refine .bind (keeps_rewriteStmts locals _ fault hf) fun fault' hf' => .pure ?_
    exact Symbols.stmtsInScope_singleton.mpr fun r hr =>
      (List.mem_append.mp hr).elim (hb' r) (hf' r)
  | nop => exact .pure nofun

theorem keeps_rewriteStmts (locals : ∀ t ∈ source.localTys, symbols.InScope t)
    (position : Position) (ss : List Stmt) (h : symbols.StmtsInScope ss) :
    Keeps symbols (rewriteStmts source position ss) symbols.StmtsInScope := by
  cases ss with
  | nil => exact .pure nofun
  | cons s ss =>
    obtain ⟨hs, hss⟩ := Symbols.stmtsInScope_cons.mp h
    refine .bind (keeps_rewriteStmt locals position s hs) fun first h₁ => ?_
    exact .bind (keeps_rewriteStmts locals position ss hss) fun rest h₂ => .pure (h₁.append h₂)

theorem keeps_rewriteCatch (locals : ∀ t ∈ source.localTys, symbols.InScope t)
    (position : Position) (c : Catch) (h : ∀ r ∈ c.references, symbols.ReferenceInScope r) :
    Keeps symbols (rewriteCatch source position c)
      fun out => ∀ r ∈ out.references, symbols.ReferenceInScope r := by
  cases c with
  | mk exceptionTy caught body =>
    have hb : symbols.StmtsInScope body := fun r hr => by
      cases exceptionTy with
      | none => exact h r hr
      | some t => exact h r (List.mem_cons_of_mem _ hr)
    have ht : ∀ t, exceptionTy = some t → symbols.InScope t := by
      rintro t rfl
      exact h _ List.mem_cons_self
    have together : ∀ {caught' : Option LocalId} {body' : List Stmt},
        symbols.StmtsInScope body' →
          ∀ r ∈ (Catch.mk exceptionTy caught' body').references, symbols.ReferenceInScope r := by
      intro caught' body' hb' r hr
      cases exceptionTy with
      | none => exact hb' r hr
      | some t =>
        rcases List.mem_cons.mp hr with rfl | hr
        · exact ht t rfl
        · exact hb' r hr
    cases caught with
    | none => exact .bind (keeps_rewriteStmts locals position body hb) fun _ hb' => .pure (together hb')
    | some caught =>
      refine .bindAny (.temp (inScope_caughtTy locals ht caught)) fun local_ => ?_
      refine .bind .hoistPlace fun place hp => ?_
      refine .bind (keeps_rewriteStmts locals position body hb) fun body' hb' => .pure ?_
      refine together (Symbols.stmtsInScope_cons.mpr ⟨fun r hr => ?_, hb'⟩)
      rw [Stmt.references, ← List.append_assoc, hp] at hr
      cases hr

theorem keeps_rewriteCatches (locals : ∀ t ∈ source.localTys, symbols.InScope t)
    (position : Position) (cs : List Catch)
    (h : ∀ r ∈ Catch.referencesAll cs, symbols.ReferenceInScope r) :
    Keeps symbols (rewriteCatches source position cs)
      fun out => ∀ r ∈ Catch.referencesAll out, symbols.ReferenceInScope r := by
  cases cs with
  | nil => exact .pure nofun
  | cons c cs =>
    have hc : ∀ r ∈ c.references, symbols.ReferenceInScope r :=
      fun r hr => h r (List.mem_append_left _ hr)
    refine .bind (keeps_rewriteCatch locals position c hc) fun first h₁ => ?_
    refine .bind (keeps_rewriteCatches locals position cs fun r hr =>
      h r (List.mem_append_right _ hr)) fun rest h₂ => .pure fun r hr => ?_
    exact (List.mem_append.mp hr).elim (h₁ r) (h₂ r)

end

theorem keeps_rewriteStep (locals : ∀ t ∈ source.localTys, symbols.InScope t) {root : List Stmt}
    (h : symbols.StmtsInScope root) :
    Keeps symbols (rewriteStep source root) symbols.BodyInScope := by
  have number : symbols.InScope .int32 := nofun
  refine .bindAny (.temp number) fun cached => .bindAny .addState fun ⟨_, start⟩ => ?_
  refine .bind (keeps_rewriteStmts locals {} root h) fun rewritten hr => ?_
  intro p body later hp he
  cases he
  refine ⟨hp, Keeps.bodyInScope hp.locals ?_⟩
  have clear : symbols.StmtsInScope (p.result?.elim [] fun result =>
      [.assign (.local result) (.bool false)]) := by
    cases p.result? <;> exact nofun
  have answer : symbols.StmtsInScope [.label source.exitLabel, setState finishedState,
      .ret (some (p.result?.elim (.bool false) .local))] := by
    cases p.result? <;> exact nofun
  have start : symbols.StmtsInScope
      [.assign (.local cached) (.machineField stateField),
        .switch (.local cached) (p.resumeLabels.mapIdx fun state label => (Int64.ofNat state, label))
          none,
        .ret (some (.bool false)), .label start, setState runningState] := nofun
  have stmts := ((start.append hr).append clear).append answer
  split
  next =>
    refine Symbols.stmtsInScope_singleton.mpr fun r hm => ?_
    rcases List.mem_append.mp hm with hm | hm
    · exact stmts r hm
    · cases hm
  next => exact stmts

end Lowering

namespace Dispose

/-- A step of making the dispose method, if there are ids for it, makes something fitting. -/
def Makes {α : Type} (step : DisposeM α) (post : α → Prop) : Prop :=
  ∀ ids a later, step ids = some (a, later) → post a

namespace Makes

variable {α β : Type} {post : α → Prop} {post' : β → Prop}

theorem pure {a : α} (h : post a) : Makes (Pure.pure a) post := by
  intro ids b later he
  cases he
  exact h

theorem bind {step : DisposeM α} {next : α → DisposeM β} (h : Makes step post)
    (h' : ∀ a, post a → Makes (next a) post') : Makes (step >>= next) post' := by
  intro ids b later he
  change (step ids).bind (fun (a, middle) => next a middle) = _ at he
  cases hs : step ids with
  | none => rw [hs] at he; cases he
  | some result =>
    obtain ⟨a, middle⟩ := result
    rw [hs] at he
    exact h' a (h ids a middle hs) middle b later he

theorem any (step : DisposeM α) : Makes step fun _ => True := fun _ _ _ _ => trivial

theorem mapM {f : α → DisposeM β} {l : List α} (h : ∀ a, Makes (f a) post') :
    Makes (l.mapM f) fun bs => ∀ b ∈ bs, post' b := by
  induction l with
  | nil => exact pure nofun
  | cons a l ih =>
    rw [List.mapM_cons]
    refine bind (h a) fun b hb => bind ih fun bs hbs => pure ?_
    intro c hc
    rcases List.mem_cons.mp hc with rfl | hc
    · exact hb
    · exact hbs c hc

end Makes

/-- What runs the due handlers refers to nothing. -/
theorem references_withHandler {handler? : Option SynthMethodId} {body : List Stmt}
    (hb : Stmt.referencesAll body = []) :
    Makes (withHandler handler? body) fun out => Stmt.referencesAll out = [] := by
  cases handler? with
  | none => exact .pure hb
  | some handler =>
    refine .bind (.any _) fun id _ => .pure ?_
    simp only [Stmt.referencesAll, Stmt.references, hb, Catch.referencesAll, Expr.callSynthesized,
      Expr.references, Expr.referencesAll, List.append_nil]

theorem references_frameDispatch (frames : FrameTree) (cached : LocalId) (depth : Nat)
    (frame : FrameId) :
    Makes (frameDispatch frames cached depth frame) fun out => Stmt.referencesAll out = [] := by
  induction depth generalizing frame with
  | zero => exact .pure rfl
  | succ depth ih =>
    unfold frameDispatch
    dsimp only
    split
    next => exact references_withHandler rfl
    next =>
      refine .bind (.any _) fun done _ => ?_
      have inner : ∀ child : FrameId × List Int, Makes (do
          let label ← freshLabel
          let inner ← frameDispatch frames cached depth child.1
          return (child.2.map fun state => (Int64.ofInt state, label),
            .label label :: inner ++ [.goto done])) fun section_ =>
          Stmt.referencesAll section_.2 = [] := fun child =>
        .bind (.any _) fun label _ => .bind (ih child.1) fun out ho => .pure <| by
          simp only [List.cons_append, Stmt.referencesAll, Stmt.references,
            Symbols.referencesAll_append, ho, List.append_nil]
      refine .bind (.mapM inner) fun sections hs => references_withHandler ?_
      have all : Stmt.referencesAll (sections.flatMap (·.2)) = [] := by
        induction sections with
        | nil => rfl
        | cons first rest ih =>
          rw [List.flatMap_cons, Symbols.referencesAll_append, hs first List.mem_cons_self,
            ih fun b hb => hs b (List.mem_cons_of_mem _ hb)]
          rfl
      simp only [List.cons_append, Stmt.referencesAll, Stmt.references,
        Symbols.referencesAll_append, all, Expr.references, List.append_nil]

theorem inScope_build (symbols : Symbols) (frames : FrameTree) :
    Makes (build frames) symbols.BodyInScope := by
  refine .bind (references_frameDispatch frames _ _ _) fun dispatch hd => .pure ?_
  refine Lowering.Keeps.bodyInScope (fun l hl => ?_) ?_
  · rw [List.mem_singleton.mp hl]
    exact nofun
  · intro r hr
    simp only [List.cons_append, Stmt.referencesAll, Symbols.referencesAll_append, hd] at hr
    cases hr

end Dispose

/-- The machine of an iterator refers to what is in scope. -/
theorem inScope_lowerIterator {symbols : Symbols} {options : LoweringOptions}
    {iterator : IteratorMethod} {machine : StateMachine}
    (scope : symbols.BodyInScope iterator.body)
    (h : lowerIterator symbols options iterator = .ok machine) :
    ∀ m ∈ machine.methods, symbols.InScope m.ret ∧ symbols.BodyInScope m.body := by
  obtain ⟨facts, step, progress, dispose, ids, -, -, hs, hd, -, -, -, -, -, hm⟩ :=
    lowerIterator_eq_ok h
  have locals : ∀ t ∈ (Lowering.Source.of iterator.body facts).localTys, symbols.InScope t := by
    intro t ht
    obtain ⟨l, hl, rfl⟩ := List.mem_map.mp ht
    exact scope (.signature l.ty) (List.mem_append_left _ (List.mem_map_of_mem hl))
  have root : symbols.StmtsInScope iterator.body.root :=
    fun r hr => scope r (List.mem_append_right _ hr)
  have start : (Lowering.Progress.start iterator.body).InScope symbols := ⟨nofun, nofun⟩
  obtain ⟨hp, hb⟩ := Lowering.keeps_rewriteStep locals root _ _ _ start hs
  have hdispose := Dispose.inScope_build symbols progress.frames _ _ _ hd
  rw [hm]
  intro m hmem
  obtain ⟨m', hm', rfl⟩ := List.mem_map.mp hmem
  rcases List.mem_cons.mp hm' with rfl | hm'
  · exact ⟨nofun, hb⟩
  · rcases List.mem_cons.mp hm' with rfl | hm'
    · exact ⟨nofun, hdispose⟩
    · exact hp.handlers m' hm'

end ManagedCode
