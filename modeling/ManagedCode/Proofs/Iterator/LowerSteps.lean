import ManagedCode.Iterator.Lower
import ManagedCode.Proofs.Step

namespace ManagedCode

namespace Lowering

variable {α β : Type} {p later : Progress}

theorem bind_eq_ok {step : LowerM α} {next : α → LowerM β} {b : β} :
    (step >>= next) p = .ok (b, later) ↔
      ∃ a middle, step p = .ok (a, middle) ∧ next a middle = .ok (b, later) := by
  change (step p >>= fun (a, middle) => next a middle) = _ ↔ _
  cases step p with
  | error fault =>
    constructor
    · exact nofun
    · rintro ⟨_, _, ⟨⟩, _⟩
  | ok result =>
    constructor
    · exact fun h => ⟨result.1, result.2, rfl, h⟩
    · rintro ⟨_, _, ⟨⟩, h⟩
      exact h

theorem pure_eq_ok {a b : α} (h : (pure a : LowerM α) p = .ok (b, later)) : b = a ∧ later = p := by
  cases h
  exact ⟨rfl, rfl⟩

theorem orOverflow_eq_ok {o : Option α} {a : α} (h : orOverflow o p = .ok (a, later)) :
    o = some a ∧ later = p := by
  cases o with
  | none => cases h
  | some b => cases h; exact ⟨rfl, rfl⟩

theorem require_eq_ok {condition : Prop} [Decidable condition] {fault : LoweringFault} {u : Unit}
    (h : require condition fault p = .ok (u, later)) : condition ∧ later = p := by
  unfold require at h
  split at h
  next holds =>
    cases h
    exact ⟨holds, rfl⟩
  next => cases h

theorem require_of {condition : Prop} [Decidable condition] (holds : condition)
    (fault : LoweringFault) : require condition fault p = .ok ((), p) := by
  rw [require, if_pos holds]
  rfl

/-- A fresh label is the first that is not in use. -/
theorem freshLabel_eq_ok {label : LabelId} (h : freshLabel p = .ok (label, later)) :
    label = ⟨p.ids.labelCount⟩ ∧ p.ids.labelCount + 1 < idLimit ∧
      later = { p with ids := { p.ids with labelCount := p.ids.labelCount + 1 } } := by
  unfold freshLabel at h
  rw [bind_eq_ok] at h
  obtain ⟨_, _, hg, h⟩ := h
  cases hg
  rw [bind_eq_ok] at h
  obtain ⟨⟨_, ids⟩, _, ho, h⟩ := h
  obtain ⟨room, rfl⟩ := orOverflow_eq_ok ho
  rw [bind_eq_ok] at h
  obtain ⟨_, _, hm, h⟩ := h
  cases hm
  cases h
  unfold FreshIds.label? at room
  split at room
  next small =>
    cases room
    exact ⟨rfl, small, rfl⟩
  next => cases room

theorem temp_eq_ok {ty : Ty} {id : LocalId} (h : temp ty p = .ok (id, later)) :
    id = ⟨p.locals.length⟩ ∧ later = { p with locals := p.locals ++ [{ name := none, ty }] } := by
  cases h
  exact ⟨rfl, rfl⟩

theorem hoistExpr_eq_ok {source : Source} {e e' : Expr}
    (h : hoistExpr source e p = .ok (e', later)) :
    (slotGuard source.paramCount).visitExpr e = some () ∧ e' = e.hoist source.paramCount ∧
      later = p := by
  unfold hoistExpr at h
  rw [bind_eq_ok] at h
  obtain ⟨_, _, ho, h⟩ := h
  obtain ⟨room, rfl⟩ := orOverflow_eq_ok ho
  cases h
  exact ⟨room, rfl, rfl⟩

theorem hoistPlace_eq_ok {source : Source} {place place' : Place}
    (h : hoistPlace source place p = .ok (place', later)) :
    (slotGuard source.paramCount).visitPlace place = some () ∧
      place' = place.hoist source.paramCount ∧ later = p := by
  unfold hoistPlace at h
  rw [bind_eq_ok] at h
  obtain ⟨_, _, ho, h⟩ := h
  obtain ⟨room, rfl⟩ := orOverflow_eq_ok ho
  cases h
  exact ⟨room, rfl, rfl⟩

/-- States are numbered in the order in which they are made. -/
theorem addState_eq_ok {frame : FrameId} {state : Int} {label : LabelId}
    (h : addState frame p = .ok ((state, label), later)) :
    state = p.resumeLabels.length ∧ label = ⟨p.ids.labelCount⟩ ∧
      (p.ids.labelCount + 1 < idLimit ∧ p.resumeLabels.length + 1 < stateLimit) ∧
      later = { p with
        ids := { p.ids with labelCount := p.ids.labelCount + 1 }
        resumeLabels := p.resumeLabels ++ [label]
        frames := p.frames.addState frame state } := by
  unfold addState at h
  rw [bind_eq_ok] at h
  obtain ⟨_, _, hg, h⟩ := h
  cases hg
  rw [bind_eq_ok] at h
  obtain ⟨_, _, hs, h⟩ := h
  obtain ⟨states, rfl⟩ := require_eq_ok hs
  rw [bind_eq_ok] at h
  obtain ⟨_, _, hf, h⟩ := h
  obtain ⟨rfl, room, rfl⟩ := freshLabel_eq_ok hf
  cases h
  exact ⟨rfl, rfl, ⟨room, states⟩, rfl⟩

/-- Frames count down from the first one, and each has a handler that is yet to be written. -/
theorem pushFrame_eq_ok {source : Source} {parent frame : FrameId} {id : TryId} {index : Nat}
    (h : pushFrame source parent id p = .ok ((frame, index), later)) :
    p.handlers.length + 3 < stateLimit ∧ frame = ⟨p.frames.frames.length⟩ ∧
      index = p.handlers.length ∧
      later = { p with
        frames := (p.frames.push parent (firstFinalizeState - (index : Int)) ⟨2 + index⟩
          (source.facts.labels id)).2
        handlers := p.handlers ++ [
          { name := s!"<>m__Finally{index + 1}"
            kind := .handler (firstFinalizeState - (index : Int))
            ret := .void
            body := { root := [] } }] } := by
  unfold pushFrame at h
  rw [bind_eq_ok] at h
  obtain ⟨_, _, hg, h⟩ := h
  cases hg
  rw [bind_eq_ok] at h
  obtain ⟨_, _, hs, h⟩ := h
  obtain ⟨states, rfl⟩ := require_eq_ok hs
  cases h
  exact ⟨states, rfl, rfl, rfl⟩

/-- A jump goes to its target, or to the proxy for it, which is made if there is none yet. -/
theorem route_eq_ok {frame : FrameId} {target label : LabelId}
    (h : route frame target p = .ok (label, later)) :
    (p.frames.reaches frame target = true ∧ label = target ∧ later = p) ∨
    (p.frames.reaches frame target = false ∧ p.frames.proxy? frame target = some label ∧
      later = p) ∨
    (p.frames.reaches frame target = false ∧ p.frames.proxy? frame target = none ∧
      label = ⟨p.ids.labelCount⟩ ∧ p.ids.labelCount + 1 < idLimit ∧
      later = { p with
        ids := { p.ids with labelCount := p.ids.labelCount + 1 }
        frames := p.frames.addProxy frame target label }) := by
  unfold route at h
  rw [bind_eq_ok] at h
  obtain ⟨_, _, hg, h⟩ := h
  cases hg
  cases reaches : p.frames.reaches frame target with
  | true =>
    simp only [reaches, if_true] at h
    obtain ⟨rfl, rfl⟩ := pure_eq_ok h
    exact .inl ⟨rfl, rfl, rfl⟩
  | false =>
    simp only [reaches, Bool.false_eq_true, if_false] at h
    cases known : p.frames.proxy? frame target with
    | some proxy =>
      simp only [known] at h
      obtain ⟨rfl, rfl⟩ := pure_eq_ok h
      exact .inr (.inl ⟨rfl, rfl, rfl⟩)
    | none =>
      simp only [known] at h
      rw [bind_eq_ok] at h
      obtain ⟨_, _, hf, h⟩ := h
      obtain ⟨rfl, room, rfl⟩ := freshLabel_eq_ok hf
      cases h
      exact .inr (.inr ⟨rfl, rfl, rfl, room, rfl⟩)

theorem finalizeState_eq_ok {frame : FrameId} {state : Int}
    (h : finalizeState frame p = .ok (state, later)) :
    state = (p.frames.frame frame).finalizeState ∧ later = p := by
  cases h
  exact ⟨rfl, rfl⟩

theorem resultLocal_eq_ok {result : LocalId} (h : resultLocal p = .ok (result, later)) :
    (p.result? = some result ∧ later = p) ∨
    (p.result? = none ∧ result = ⟨p.locals.length⟩ ∧
      later = { p with
        locals := p.locals ++ [{ name := none, ty := .primitive .bool }]
        result? := some result }) := by
  unfold resultLocal at h
  rw [bind_eq_ok] at h
  obtain ⟨_, _, hg, h⟩ := h
  cases hg
  cases known : p.result? with
  | some result' =>
    simp only [known] at h
    obtain ⟨rfl, rfl⟩ := pure_eq_ok h
    exact .inl ⟨rfl, rfl⟩
  | none =>
    simp only [known] at h
    rw [bind_eq_ok] at h
    obtain ⟨_, _, ht, h⟩ := h
    obtain ⟨rfl, rfl⟩ := temp_eq_ok ht
    cases h
    exact .inr ⟨rfl, rfl, rfl⟩

/-- What stays the same while a body is lowered. -/
def Source.of (body : Body) (facts : YieldFacts) : Source :=
  { facts
    exitLabel := ⟨body.labelCount⟩
    localTys := body.locals.map (·.ty)
    paramCount := body.params.length }

/-- Where lowering a body begins: with one label taken for the end of the step method. -/
def Progress.start (body : Body) : Progress :=
  { ids := ⟨body.labelCount + 1, body.tryCount⟩ }

end Lowering

/-- A machine is made of a step method, a dispose method and the handlers. -/
theorem lowerIterator_eq_ok {symbols : Symbols} {options : LoweringOptions}
    {iterator : IteratorMethod} {machine : StateMachine}
    (h : lowerIterator symbols options iterator = .ok machine) :
    ∃ facts step progress dispose ids,
      YieldFacts.ofBody iterator.body = .ok facts ∧
      iterator.body.labelCount + 1 < idLimit ∧
      Lowering.rewriteStep (.of iterator.body facts) iterator.body.root (.start iterator.body) =
        .ok (step, progress) ∧
      Dispose.build progress.frames progress.ids = some (dispose, ids) ∧
      machine.method = iterator.method ∧ machine.elementTy = iterator.elementTy ∧
      machine.fields = machineFields iterator ∧
      machine.resumeStates = (List.range progress.resumeLabels.length).map Int.ofNat ∧
      machine.finalizeStates =
        (List.range progress.handlers.length).map (fun i : Nat => firstFinalizeState - i) ∧
      machine.methods =
        ({ name := "MoveNext", kind := .step, ret := .primitive .bool, body := step } ::
          { name := "Dispose", kind := .dispose, ret := .void, body := dispose } ::
          progress.handlers).map fun m =>
            { m with
              body := { m.body with labelCount := ids.labelCount, tryCount := ids.tryCount } } := by
  unfold lowerIterator at h
  dsimp only at h
  rw [except_bind_eq_ok] at h
  obtain ⟨facts, hf, h⟩ := h
  split at h
  next exitLabel ids hl =>
    rw [except_bind_eq_ok] at h
    obtain ⟨⟨step, progress⟩, hs, h⟩ := h
    dsimp only at h
    split at h
    next dispose ids' hd =>
      split at h
      next method found =>
        cases h
        unfold FreshIds.label? at hl
        split at hl
        next room =>
          cases hl
          exact ⟨facts, step, progress, dispose, ids', hf, room, hs, hd, rfl, rfl, rfl, rfl, rfl,
            rfl⟩
        next => cases hl
      next => cases h
    next => cases h
  next => cases h

section

variable {symbols : Symbols} {options : LoweringOptions} {iterator : IteratorMethod}
  {machine : StateMachine}

theorem method_of_lowerIterator (h : lowerIterator symbols options iterator = .ok machine) :
    machine.method = iterator.method := by
  obtain ⟨-, -, -, -, -, -, -, -, -, method, -⟩ := lowerIterator_eq_ok h
  exact method

theorem fields_of_lowerIterator (h : lowerIterator symbols options iterator = .ok machine) :
    machine.fields = machineFields iterator := by
  obtain ⟨-, -, -, -, -, -, -, -, -, -, -, fields, -⟩ := lowerIterator_eq_ok h
  exact fields

/-- A machine is named for its iterator alone, which is a method of the program. -/
theorem method_lt_of_lowerIterator (h : lowerIterator symbols options iterator = .ok machine) :
    iterator.method.index < symbols.methods.length ∧
      machine.name = options.namePrefix ++ (symbols.method iterator.method).name := by
  unfold lowerIterator at h
  dsimp only at h
  obtain ⟨facts, -, h⟩ := except_bind_eq_ok.mp h
  split at h
  next =>
    obtain ⟨⟨step, progress⟩, -, h⟩ := except_bind_eq_ok.mp h
    dsimp only at h
    split at h
    next =>
      split at h
      next method found =>
        cases h
        obtain ⟨known, -⟩ := List.getElem?_eq_some_iff.mp found
        refine ⟨known, ?_⟩
        rw [Symbols.method, List.getD_eq_getElem?_getD, found]
        rfl
      next => cases h
    next => cases h
  next => cases h

theorem name_of_lowerIterator (h : lowerIterator symbols options iterator = .ok machine) :
    machine.name = options.namePrefix ++ (symbols.method iterator.method).name :=
  (method_lt_of_lowerIterator h).2

end

/-- A program with one method, `App.Program.Items`. -/
def Symbols.oneMethod : Symbols :=
  let (app, symbols) := ({} : Symbols).addAssembly "App"
  let (main, symbols) := symbols.addModule app "Main"
  let (program, symbols) := symbols.addType main (some "App") "Program" 0
  (symbols.addMethod program "Items" [] .int32).2

end ManagedCode
