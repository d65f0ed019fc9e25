import ManagedCode.Proofs.Iterator.Rewrites

namespace ManagedCode

/-! What the code of a machine names. -/

/-- The code of a method with some locals, in a machine with some fields and methods. -/
def Vocabulary.method (locals fields methods : Nat) : Vocabulary where
  locals id := id.index < locals
  params _ := False
  slots slot := slot.index < fields
  methods method := method.index < methods
  suspends := False
  returns := True

theorem Vocabulary.method_within {locals locals' fields methods methods' : Nat}
    (hl : locals ≤ locals') (hm : methods ≤ methods') :
    (Vocabulary.method locals fields methods).Within (.method locals' fields methods') where
  locals h := Nat.lt_of_lt_of_le h hl
  params h := h
  slots h := h
  methods h := Nat.lt_of_lt_of_le h hm
  suspends h := h
  returns h := h

section

variable {locals params n fields methods : Nat} (fit : 2 + params + locals ≤ fields)

include fit

theorem hoisted_local {id : LocalId} (h : id.index < locals) :
    (id.slot params).index < fields :=
  Nat.lt_of_lt_of_le (Nat.add_lt_add_left h _) fit

theorem hoisted_param {id : ParamId} (h : id.index < params) : id.slot.index < fields :=
  Nat.lt_of_lt_of_le (Nat.add_lt_add_left h _) (Nat.le_trans (Nat.le_add_right _ _) fit)

end

mutual

/-- A hoisted expression reads the fields of its machine. -/
theorem Expr.uses_hoist {locals params n fields methods : Nat} (fit : 2 + params + locals ≤ fields)
    (e : Expr) (h : e.Uses (.iterator (·.index < locals) (·.index < params))) :
    (e.hoist params).Uses (.method n fields methods) := by
  cases e with
  | «local» id => exact hoisted_local fit h
  | param id => exact hoisted_param fit h
  | machineField slot => exact h.elim
  | field receiver member =>
    cases receiver with
    | none => trivial
    | some receiver => exact Expr.uses_hoist fit receiver h
  | call callee receiver args =>
    cases callee <;> cases receiver
    · exact Expr.usesAll_hoistAll fit args h
    · exact ⟨Expr.uses_hoist fit _ h.1, Expr.usesAll_hoistAll fit args h.2⟩
    · exact h.1.elim
    · exact h.1.elim
  | binary op lhs rhs => exact ⟨Expr.uses_hoist fit lhs h.1, Expr.uses_hoist fit rhs h.2⟩
  | unary op operand => exact Expr.uses_hoist fit operand h
  | element array shape indices =>
    exact ⟨Expr.uses_hoist fit array h.1, Expr.usesAll_hoistAll fit indices h.2⟩
  | addressOf place => exact Place.uses_hoist fit place h
  | newArray element lengths => exact Expr.usesAll_hoistAll fit lengths h
  | _ => trivial

theorem Expr.usesAll_hoistAll {locals params n fields methods : Nat}
    (fit : 2 + params + locals ≤ fields) (es : List Expr)
    (h : Expr.UsesAll (.iterator (·.index < locals) (·.index < params)) es) :
    Expr.UsesAll (.method n fields methods) (Expr.hoistAll params es) := by
  cases es with
  | nil => trivial
  | cons e es => exact ⟨Expr.uses_hoist fit e h.1, Expr.usesAll_hoistAll fit es h.2⟩

theorem Place.uses_hoist {locals params n fields methods : Nat}
    (fit : 2 + params + locals ≤ fields) (place : Place)
    (h : place.Uses (.iterator (·.index < locals) (·.index < params))) :
    (place.hoist params).Uses (.method n fields methods) := by
  cases place with
  | «local» id => exact hoisted_local fit h
  | param id => exact hoisted_param fit h
  | machineField slot => exact h.elim
  | field receiver member =>
    cases receiver with
    | none => trivial
    | some receiver => exact Expr.uses_hoist fit receiver h
  | element array shape indices =>
    exact ⟨Expr.uses_hoist fit array h.1, Expr.usesAll_hoistAll fit indices h.2⟩

end

namespace Lowering

/-- What the method that is being written may be made of. -/
def Progress.vocabulary (fields : Nat) (p : Progress) : Vocabulary :=
  .method p.locals.length fields (2 + p.handlers.length)

/-- The local for the answer is one of the method that is being written. -/
def Progress.Answered (p : Progress) : Prop := ∀ r, p.result? = some r → r.index < p.locals.length

/-- The handlers name what there is. -/
def Progress.Named (fields : Nat) (p : Progress) : Prop :=
  ∀ m ∈ p.handlers,
    Stmt.UsesAll (.method m.body.locals.length fields (2 + p.handlers.length)) m.body.root

/-- From `p` to `p'` there come to be more names, and handlers that keep to them; only a yield break
may need the local for the answer. -/
structure Adds (fields : Nat) (breaks : Bool) (p p' : Progress) : Prop where
  locals : p.locals.length ≤ p'.locals.length
  handlers : p.handlers.length ≤ p'.handlers.length
  named : p.Named fields → p'.Named fields
  answered : p.Answered → p'.Answered
  result : breaks = false → p'.result? = p.result?

variable {fields : Nat} {breaks breaks' : Bool} {p p₁ p' : Progress}

theorem Progress.length_withHandler (p : Progress) (index : Nat) (locals : List LocalDecl)
    (code : List Stmt) : (p.withHandler index locals code).handlers.length = p.handlers.length :=
  List.length_modify ..

namespace Adds

theorem of_same (locals : p'.locals = p.locals) (handlers : p'.handlers = p.handlers)
    (result : p'.result? = p.result?) : Adds fields breaks p p' where
  locals := Nat.le_of_eq (congrArg List.length locals.symm)
  handlers := Nat.le_of_eq (congrArg List.length handlers.symm)
  named h := by
    unfold Progress.Named
    rw [handlers]
    exact h
  answered h := by
    unfold Progress.Answered
    rw [locals, result]
    exact h
  result _ := result

theorem refl (p : Progress) : Adds fields breaks p p := .of_same rfl rfl rfl

theorem trans (h : Adds fields breaks p p₁) (h' : Adds fields breaks' p₁ p') :
    Adds fields (breaks || breaks') p p' where
  locals := Nat.le_trans h.locals h'.locals
  handlers := Nat.le_trans h.handlers h'.handlers
  named := h'.named ∘ h.named
  answered := h'.answered ∘ h.answered
  result none := by
    obtain ⟨none, none'⟩ := Bool.or_eq_false_iff.mp none
    exact (h'.result none').trans (h.result none)

theorem mono (h : Adds fields breaks p p') (less : breaks' = false → breaks = false) :
    Adds fields breaks' p p' :=
  { h with result := fun none => h.result (less none) }

theorem within (h : Adds fields breaks p p') : (p.vocabulary fields).Within (p'.vocabulary fields) :=
  Vocabulary.method_within h.locals (Nat.add_le_add_left h.handlers 2)

theorem route {frame : FrameId} {target label : LabelId}
    (h : route frame target p = .ok (label, p')) : Adds fields false p p' := by
  rcases route_eq_ok h with ⟨-, -, rfl⟩ | ⟨-, -, rfl⟩ | ⟨-, -, -, -, rfl⟩ <;>
    exact .of_same rfl rfl rfl

theorem routesCases {frame : FrameId} {cases cases' : List (Int64 × LabelId)}
    (h : RoutesCases frame p cases cases' p') : Adds fields false p p' := by
  induction h with
  | nil => exact refl _
  | cons h _ ih => exact (route h).trans ih

theorem routesDefault {frame : FrameId} {default? default' : Option LabelId}
    (h : RoutesDefault frame p default? default' p') : Adds fields false p p' := by
  cases h with
  | none => exact refl _
  | some h => exact route h

theorem freshLabel {label : LabelId} (h : freshLabel p = .ok (label, p')) :
    Adds fields false p p' := by
  obtain ⟨-, -, rfl⟩ := freshLabel_eq_ok h
  exact .of_same rfl rfl rfl

theorem temp {ty : Ty} {id : LocalId} (h : temp ty p = .ok (id, p')) :
    Adds fields false p p' ∧ id.index < p'.locals.length := by
  obtain ⟨rfl, rfl⟩ := temp_eq_ok h
  have longer : p.locals.length < (p.locals ++ [({ name := none, ty } : LocalDecl)]).length := by
    rw [List.length_append]
    exact Nat.lt_succ_self _
  refine ⟨?_, longer⟩
  exact
    { locals := Nat.le_of_lt longer
      handlers := Nat.le_refl _
      named := fun h => h
      answered := fun h r made => Nat.lt_trans (h r made) longer
      result := fun _ => rfl }

theorem resultLocal {id : LocalId} (h : resultLocal p = .ok (id, p')) :
    Adds fields true p p' ∧ (p.Answered → id.index < p'.locals.length) := by
  rcases resultLocal_eq_ok h with ⟨made, rfl⟩ | ⟨-, rfl, rfl⟩
  · exact ⟨refl _, fun answered => answered id made⟩
  · have longer : p.locals.length <
        (p.locals ++ [({ name := none, ty := .primitive .bool } : LocalDecl)]).length := by
      rw [List.length_append]
      exact Nat.lt_succ_self _
    refine ⟨?_, fun _ => longer⟩
    exact
      { locals := Nat.le_of_lt longer
        handlers := Nat.le_refl _
        named := fun h => h
        answered := fun _ r made => by
          cases made
          exact longer
        result := fun same => by cases same }

theorem pushFrame {source : Source} {parent frame : FrameId} {id : TryId} {index : Nat}
    (h : pushFrame source parent id p = .ok ((frame, index), p')) :
    Adds fields false p p' ∧ index < p'.handlers.length := by
  obtain ⟨handler, bare, handlers, locals, result, rfl⟩ : ∃ handler : SynthesizedMethod,
      handler.body.root = [] ∧ p'.handlers = p.handlers ++ [handler] ∧ p'.locals = p.locals ∧
        p'.result? = p.result? ∧ index = p.handlers.length := by
    obtain ⟨-, -, rfl, rfl⟩ := pushFrame_eq_ok h
    exact ⟨_, rfl, rfl, rfl, rfl, rfl⟩
  have longer : p'.handlers.length = p.handlers.length + 1 := by
    rw [handlers, List.length_append]
    rfl
  refine ⟨?_, by omega⟩
  exact
    { locals := Nat.le_of_eq (congrArg List.length locals.symm)
      handlers := by omega
      named := fun h m hm => by
        rw [handlers] at hm
        rcases List.mem_append.mp hm with old | new
        · exact Stmt.UsesAll.mono (Vocabulary.method_within (Nat.le_refl _) (by omega)) _ (h m old)
        · rw [List.mem_singleton.mp new, bare]
          trivial
      answered := fun h r made => by
        rw [result] at made
        exact Nat.lt_of_lt_of_eq (h r made) (congrArg List.length locals.symm)
      result := fun _ => result }

/-- The handler of a frame has locals of its own; the clause in it needs no answer. -/
theorem withHandler {index : Nat} {code : List Stmt} {p₃ p₄ : Progress}
    (before : Adds fields breaks p p₃) (clause : Adds fields false { p₃ with locals := [] } p₄)
    (own : Stmt.UsesAll (p₄.vocabulary fields) code) :
    Adds fields breaks p (p₄.withHandler index p₃.locals code) := by
  have length := p₄.length_withHandler index p₃.locals code
  have result : p₄.result? = p₃.result? := clause.result rfl
  exact
    { locals := before.locals
      handlers := by
        rw [length]
        exact Nat.le_trans before.handlers clause.handlers
      named := fun h m hm => by
        have named : p₄.Named fields := clause.named (before.named h)
        rw [length]
        obtain ⟨i, found⟩ := List.mem_iff_getElem?.mp hm
        obtain ⟨m', found', rfl⟩ : ∃ m', p₄.handlers[i]? = some m' ∧ (if index = i then
            { m' with body := { locals := p₄.locals, root := code } } else m') = m := by
          change (p₄.handlers.modify index _)[i]? = some m at found
          rw [List.getElem?_modify] at found
          exact Option.map_eq_some_iff.mp found
        split
        · exact own
        · exact named m' (List.mem_of_getElem? found')
      answered := fun h r made => before.answered h r (result.symm.trans made)
      result := fun none => result.trans (before.result none) }

end Adds

theorem uses_setState {locals methods : Nat} (wide : 2 ≤ fields) (state : Int) :
    (setState state).Uses (.method locals fields methods) :=
  ⟨Nat.lt_of_lt_of_le Nat.two_pos wide, trivial⟩

theorem ProxiesEnd.names {parent : FrameId} {handler : SynthMethodId}
    {proxies : List (LabelId × LabelId)} {out : List Stmt}
    (h : ProxiesEnd parent handler p proxies out p')
    (own : handler.index < 2 + p.handlers.length) :
    Adds fields false p p' ∧ Stmt.UsesAll (p'.vocabulary fields) out := by
  induction h with
  | nil => exact ⟨.refl _, trivial⟩
  | @cons p p₁ p' target proxy next rest sections h more ih =>
    have first : Adds fields false p p₁ := .route h
    have kept : handler.index < 2 + p₁.handlers.length :=
      Nat.lt_of_lt_of_le own (Nat.add_le_add_left first.handlers 2)
    obtain ⟨rest, uses⟩ := ih kept
    have here : handler.index < 2 + p'.handlers.length :=
      Nat.lt_of_lt_of_le kept (Nat.add_le_add_left rest.handlers 2)
    exact ⟨first.trans rest, trivial, ⟨here, trivial⟩, trivial, uses⟩

theorem FrameEnds.names {parent frame : FrameId} {handler : SynthMethodId} {out : List Stmt}
    (h : FrameEnds parent frame handler p out p') (own : handler.index < 2 + p.handlers.length) :
    Adds fields false p p' ∧ Stmt.UsesAll (p'.vocabulary fields) out := by
  cases h with
  | plain none => exact ⟨.of_same rfl rfl rfl, ⟨own, trivial⟩, trivial⟩
  | proxies some h more =>
    rename_i p₁ drop sections
    have first : Adds fields false (p.takeProxies frame) p₁ := .freshLabel h
    have kept : handler.index < 2 + p₁.handlers.length :=
      Nat.lt_of_lt_of_le own (Nat.add_le_add_left first.handlers 2)
    obtain ⟨rest, uses⟩ : Adds fields false p₁ p' ∧ Stmt.UsesAll (p'.vocabulary fields) sections :=
      more.names kept
    have here : handler.index < 2 + p'.handlers.length :=
      Nat.lt_of_lt_of_le kept (Nat.add_le_add_left rest.handlers 2)
    have taken : Adds fields false p (p.takeProxies frame) := .of_same rfl rfl rfl
    refine ⟨(taken.trans first).trans rest, trivial, Stmt.usesAll_append.mpr ⟨uses, ?_⟩⟩
    exact ⟨trivial, ⟨here, trivial⟩, trivial⟩

variable {source : Source} {locals : Nat}

mutual

/-- What a statement is written as names what the machine has by then. -/
theorem Rewrites.names (fit : 2 + source.paramCount + locals ≤ fields) {s : Stmt} {out : List Stmt}
    {position : Position} {p p' : Progress} (h : Rewrites source position p s out p')
    (fine : s.Suspendable)
    (own : s.Uses (.iterator (·.index < locals) (·.index < source.paramCount))) :
    Adds fields s.breaks p p' ∧
      ((s.breaks = true → p.Answered) → Stmt.UsesAll (p'.vocabulary fields) out) := by
  have wide : 2 ≤ fields := Nat.le_trans (by omega) fit
  cases h with
  | block h =>
    obtain ⟨adds, uses⟩ := RewritesAll.names fit h fine own
    exact ⟨adds, fun answered => ⟨uses answered, trivial⟩⟩
  | expr | throw => exact ⟨.refl _, fun _ => ⟨Expr.uses_hoist fit _ own, trivial⟩⟩
  | assign =>
    exact ⟨.refl _, fun _ => ⟨⟨Place.uses_hoist fit _ own.1, Expr.uses_hoist fit _ own.2⟩, trivial⟩⟩
  | label | nop => exact ⟨.refl _, fun _ => ⟨trivial, trivial⟩⟩
  | goto h => exact ⟨.route h, fun _ => ⟨trivial, trivial⟩⟩
  | condGoto h => exact ⟨.route h, fun _ => ⟨Expr.uses_hoist fit _ own, trivial⟩⟩
  | switch hc hd =>
    exact ⟨(Adds.routesCases hc).trans (.routesDefault hd),
      fun _ => ⟨Expr.uses_hoist fit _ own, trivial⟩⟩
  | yield h =>
    obtain ⟨-, -, -, rfl⟩ := addState_eq_ok h
    refine ⟨.of_same rfl rfl rfl, fun _ => ⟨⟨?_, Expr.uses_hoist fit _ own.2⟩, ?_⟩⟩
    · exact Nat.lt_of_lt_of_le Nat.one_lt_two wide
    · exact ⟨uses_setState wide _, ⟨trivial, trivial⟩, trivial, uses_setState wide _, trivial⟩
  | breakOut =>
    exact ⟨.refl _, fun _ => ⟨uses_setState wide _, ⟨trivial, trivial⟩, trivial⟩⟩
  | @breakTry _ p p₁ p' result l inside hr h =>
    obtain ⟨first, made⟩ : Adds fields true p p₁ ∧ (p.Answered → result.index < p₁.locals.length) :=
      Adds.resultLocal hr
    have second : Adds fields false p₁ p' := .route h
    refine ⟨first.trans second, fun answered => ⟨⟨?_, trivial⟩, trivial, trivial⟩⟩
    exact Nat.lt_of_lt_of_le (made (answered rfl)) second.locals
  | tryCatch plain hb hc =>
    obtain ⟨-, -, fineBody, fineCatches⟩ := fine
    obtain ⟨first, body⟩ := RewritesAll.names fit hb fineBody own.1
    obtain ⟨second, catches⟩ := RewritesCatches.names fit hc fineCatches own.2
    refine ⟨first.trans second, fun answered => ⟨⟨?_, ?_⟩, trivial⟩⟩
    · exact Stmt.UsesAll.mono second.within _ (body fun breaks => answered (by simp [Stmt.breaks, breaks]))
    · exact catches fun breaks => first.answered (answered (by simp [Stmt.breaks, breaks]))
  | tryFinally plain hb hc hf =>
    obtain ⟨-, -, -, -, fineBody, fineCatches, fineCleanup⟩ := fine
    obtain ⟨first, body⟩ := RewritesAll.names fit hb fineBody own.1
    obtain ⟨second, catches⟩ := RewritesCatches.names fit hc fineCatches own.2.1
    obtain ⟨third, cleanup⟩ := RewritesAll.names fit hf fineCleanup own.2.2
    refine ⟨(first.trans second).trans third, fun answered => ⟨⟨?_, ?_, ?_⟩, trivial⟩⟩
    · exact Stmt.UsesAll.mono (second.trans third).within _
        (body fun breaks => answered (by simp [Stmt.breaks, breaks]))
    · exact Catch.UsesAll.mono third.within _
        (catches fun breaks => first.answered (answered (by simp [Stmt.breaks, breaks])))
    · exact cleanup fun breaks =>
        (first.trans second).answered (answered (by simp [Stmt.breaks, breaks]))
  | @frame _ p p₁ p₂ p₃ p₄ id frame index body stmts cleanup clause leave catches suspends hp hb hl hc =>
    obtain ⟨-, -, -, none, fineBody, -, fineCleanup⟩ := fine
    obtain ⟨pushed, room⟩ : Adds fields false p p₁ ∧ index < p₁.handlers.length :=
      Adds.pushFrame hp
    obtain ⟨inner, body'⟩ := RewritesAll.names fit hb fineBody own.1
    have room₂ : 2 + index < 2 + p₂.handlers.length :=
      Nat.add_lt_add_left (Nat.lt_of_lt_of_le room inner.handlers) 2
    obtain ⟨ends, leaves⟩ : Adds fields false p₂ p₃ ∧ Stmt.UsesAll (p₃.vocabulary fields) leave :=
      hl.names room₂
    obtain ⟨last, clause'⟩ := RewritesAll.names fit hc fineCleanup own.2.2
    rw [none] at last clause'
    have before : Adds fields (Stmt.anyBreaks body) p p₃ :=
      ((pushed.trans inner).trans ends).mono fun quiet => by simp [quiet]
    have own' : Stmt.UsesAll (p₄.vocabulary fields)
        (setState (p₃.frames.frame position.frame).finalizeState :: clause ++ [.ret Option.none]) :=
      ⟨uses_setState wide _, Stmt.usesAll_append.mpr ⟨clause' nofun, trivial, trivial⟩⟩
    refine ⟨(before.withHandler last own').mono fun quiet => ?_, fun answered => ?_⟩
    · exact (Bool.or_eq_false_iff.mp (Bool.or_eq_false_iff.mp quiet).1).1
    · have after : ∀ code, (p₃.vocabulary fields).Within
          ((p₄.withHandler index p₃.locals code).vocabulary fields) := by
        intro code
        refine Vocabulary.method_within (Nat.le_refl _) (Nat.add_le_add_left ?_ 2)
        rw [Progress.length_withHandler]
        exact last.handlers
      have inBody := body' fun breaks => pushed.answered (answered (by simp [Stmt.breaks, breaks]))
      have inBlock := Stmt.usesAll_append.mpr ⟨Stmt.UsesAll.mono ends.within _ inBody, leaves⟩
      exact ⟨⟨uses_setState wide _, Stmt.UsesAll.mono (after _) _ inBlock⟩, trivial⟩
  | tryFault hb hf =>
    obtain ⟨-, -, fineBody, fineFault⟩ := fine
    obtain ⟨first, body⟩ := RewritesAll.names fit hb fineBody own.1
    obtain ⟨second, fault⟩ := RewritesAll.names fit hf fineFault own.2
    refine ⟨first.trans second, fun answered => ⟨⟨?_, ?_⟩, trivial⟩⟩
    · exact Stmt.UsesAll.mono second.within _ (body fun breaks => answered (by simp [Stmt.breaks, breaks]))
    · exact fault fun breaks => first.answered (answered (by simp [Stmt.breaks, breaks]))

theorem RewritesAll.names (fit : 2 + source.paramCount + locals ≤ fields) {ss out : List Stmt}
    {position : Position} {p p' : Progress} (h : RewritesAll source position p ss out p')
    (fine : Stmt.SuspendableAll ss)
    (own : Stmt.UsesAll (.iterator (·.index < locals) (·.index < source.paramCount)) ss) :
    Adds fields (Stmt.anyBreaks ss) p p' ∧
      ((Stmt.anyBreaks ss = true → p.Answered) → Stmt.UsesAll (p'.vocabulary fields) out) := by
  cases h with
  | nil => exact ⟨.refl _, fun _ => trivial⟩
  | cons hs hss =>
    obtain ⟨first, uses⟩ := Rewrites.names fit hs fine.1 own.1
    obtain ⟨second, rest⟩ := RewritesAll.names fit hss fine.2 own.2
    refine ⟨first.trans second, fun answered => Stmt.usesAll_append.mpr ⟨?_, ?_⟩⟩
    · exact Stmt.UsesAll.mono second.within _
        (uses fun breaks => answered (by simp [Stmt.anyBreaks, breaks]))
    · exact rest fun breaks => first.answered (answered (by simp [Stmt.anyBreaks, breaks]))

theorem RewritesCatches.names (fit : 2 + source.paramCount + locals ≤ fields) {cs out : List Catch}
    {position : Position} {p p' : Progress} (h : RewritesCatches source position p cs out p')
    (fine : Catch.SuspendableAll cs)
    (own : Catch.UsesAll (.iterator (·.index < locals) (·.index < source.paramCount)) cs) :
    Adds fields (Catch.anyBreaks cs) p p' ∧
      ((Catch.anyBreaks cs = true → p.Answered) → Catch.UsesAll (p'.vocabulary fields) out) := by
  cases h with
  | nil => exact ⟨.refl _, fun _ => trivial⟩
  | plain hb hcs =>
    obtain ⟨first, body⟩ := RewritesAll.names fit hb fine.1 own.2.1
    obtain ⟨second, rest⟩ := RewritesCatches.names fit hcs fine.2 own.2.2
    refine ⟨first.trans second, fun answered => ⟨fun id same => ?_, ?_, ?_⟩⟩
    · cases same
    · exact Stmt.UsesAll.mono second.within _
        (body fun breaks => answered (by simp [Catch.anyBreaks, breaks]))
    · exact rest fun breaks => first.answered (answered (by simp [Catch.anyBreaks, breaks]))
  | @caught _ p p₁ _ p' _ caught temp_ _ _ _ _ ht hb hcs =>
    obtain ⟨start, new⟩ : Adds fields false p p₁ ∧ temp_.index < p₁.locals.length := Adds.temp ht
    obtain ⟨first, body⟩ := RewritesAll.names fit hb fine.1 own.2.1
    obtain ⟨second, rest⟩ := RewritesCatches.names fit hcs fine.2 own.2.2
    have room := Nat.lt_of_lt_of_le new (Nat.le_trans first.locals second.locals)
    refine ⟨(start.trans first).trans second, fun answered => ?_⟩
    refine ⟨fun id same => ?_, ⟨⟨hoisted_local fit (own.1 _ rfl), room⟩, ?_⟩, ?_⟩
    · cases same
      exact room
    · exact Stmt.UsesAll.mono second.within _
        (body fun breaks => start.answered (answered (by simp [Catch.anyBreaks, breaks])))
    · exact rest fun breaks =>
        (start.trans first).answered (answered (by simp [Catch.anyBreaks, breaks]))

end

end Lowering

end ManagedCode
