import ManagedCode.Proofs.Iterator.Analysis
import ManagedCode.Proofs.Iterator.LowerSteps

namespace ManagedCode

namespace Lowering

/-! What lowering does to a statement, step by step. -/

/-- The proxies of a frame are forgotten when its end is written. -/
def Progress.takeProxies (p : Progress) (frame : FrameId) : Progress :=
  { p with frames := (p.frames.takeProxies frame).2 }

/-- The handler of a frame has its code, and the method around goes on with its own locals. -/
def Progress.withHandler (p : Progress) (index : Nat) (locals : List LocalDecl)
    (code : List Stmt) : Progress :=
  { p with
    locals
    handlers := p.handlers.modify index fun m =>
      { m with body := { locals := p.locals, root := code } } }

/-- The targets of a switch are routed in order. -/
inductive RoutesCases (frame : FrameId) :
    Progress → List (Int64 × LabelId) → List (Int64 × LabelId) → Progress → Prop
  | nil {p : Progress} : RoutesCases frame p [] [] p
  | cons {p p₁ p' : Progress} {value : Int64} {target label : LabelId}
    {cases cases' : List (Int64 × LabelId)} (h : route frame target p = .ok (label, p₁))
    (rest : RoutesCases frame p₁ cases cases' p') :
    RoutesCases frame p ((value, target) :: cases) ((value, label) :: cases') p'

inductive RoutesDefault (frame : FrameId) :
    Progress → Option LabelId → Option LabelId → Progress → Prop
  | none {p : Progress} : RoutesDefault frame p none none p
  | some {p p' : Progress} {target label : LabelId} (h : route frame target p = .ok (label, p')) :
    RoutesDefault frame p (some target) (some label) p'

/-- The proxies of a frame call its handler and go on from the frame around. -/
inductive ProxiesEnd (parent : FrameId) (handler : SynthMethodId) :
    Progress → List (LabelId × LabelId) → List Stmt → Progress → Prop
  | nil {p : Progress} : ProxiesEnd parent handler p [] [] p
  | cons {p p₁ p' : Progress} {target proxy next : LabelId} {rest : List (LabelId × LabelId)}
    {sections : List Stmt} (h : route parent target p = .ok (next, p₁))
    (more : ProxiesEnd parent handler p₁ rest sections p') :
    ProxiesEnd parent handler p ((target, proxy) :: rest)
      (.label proxy :: .expr (.callSynthesized handler) :: .goto next :: sections) p'

/-- How a frame ends. -/
inductive FrameEnds (parent frame : FrameId) (handler : SynthMethodId) :
    Progress → List Stmt → Progress → Prop
  | plain {p : Progress} (none : (p.frames.frame frame).proxies = []) :
    FrameEnds parent frame handler p [.expr (.callSynthesized handler)] (p.takeProxies frame)
  | proxies {p p₁ p' : Progress} {drop : LabelId} {sections : List Stmt}
    (some : (p.frames.frame frame).proxies ≠ [])
    (h : freshLabel (p.takeProxies frame) = .ok (drop, p₁))
    (more : ProxiesEnd parent handler p₁ (p.frames.frame frame).proxies sections p') :
    FrameEnds parent frame handler p
      (.goto drop :: sections ++ [.label drop, .expr (.callSynthesized handler)]) p'

mutual

/-- From `p` on, lowering rewrites a statement at a position, and has made `p'` of the body
then. -/
inductive Rewrites (source : Source) :
    Position → Progress → Stmt → List Stmt → Progress → Prop
  | block {position : Position} {p p' : Progress} {ss out : List Stmt}
    (h : RewritesAll source position p ss out p') :
    Rewrites source position p (.block ss) [.block out] p'
  | expr {position : Position} {p : Progress} {value : Expr} :
    Rewrites source position p (.expr value) [.expr (value.hoist source.paramCount)] p
  | assign {position : Position} {p : Progress} {place : Place} {value : Expr} :
    Rewrites source position p (.assign place value)
      [.assign (place.hoist source.paramCount) (value.hoist source.paramCount)] p
  | label {position : Position} {p : Progress} {l : LabelId} :
    Rewrites source position p (.label l) [.label l] p
  | goto {position : Position} {p p' : Progress} {target l : LabelId}
    (h : route position.frame target p = .ok (l, p')) :
    Rewrites source position p (.goto target) [.goto l] p'
  | condGoto {position : Position} {p p' : Progress} {cond : Expr} {jumpIf : Bool}
    {target l : LabelId} (h : route position.frame target p = .ok (l, p')) :
    Rewrites source position p (.condGoto cond jumpIf target)
      [.condGoto (cond.hoist source.paramCount) jumpIf l] p'
  | switch {position : Position} {p p₁ p' : Progress} {scrutinee : Expr}
    {cases cases' : List (Int64 × LabelId)} {default? default' : Option LabelId}
    (hc : RoutesCases position.frame p cases cases' p₁)
    (hd : RoutesDefault position.frame p₁ default? default' p') :
    Rewrites source position p (.switch scrutinee cases default?)
      [.switch (scrutinee.hoist source.paramCount) cases' default'] p'
  | yield {position : Position} {p p' : Progress} {value : Expr} {state : Int} {resume : LabelId}
    (h : addState position.frame p = .ok ((state, resume), p')) :
    Rewrites source position p (.yield value)
      [.assign (.machineField currentField) (value.hoist source.paramCount), setState state,
        .ret (some (.bool true)), .label resume,
        setState (p'.frames.frame position.frame).finalizeState] p'
  | breakOut {position : Position} {p : Progress} (outside : position.inTry = false) :
    Rewrites source position p .yieldBreak [setState finishedState, .ret (some (.bool false))] p
  | breakTry {position : Position} {p p₁ p' : Progress} {result : LocalId} {l : LabelId}
    (inside : position.inTry = true) (hr : resultLocal p = .ok (result, p₁))
    (h : route position.frame source.exitLabel p₁ = .ok (l, p')) :
    Rewrites source position p .yieldBreak [.assign (.local result) (.bool false), .goto l] p'
  | tryCatch {position : Position} {p p₁ p' : Progress} {id : TryId} {body body' : List Stmt}
    {catches catches' : List Catch} (plain : source.facts.containsYield id = false)
    (hb : RewritesAll source { position with inTry := true } p body body' p₁)
    (hc : RewritesCatches source { position with inTry := true } p₁ catches catches' p') :
    Rewrites source position p (.tryCatch id body catches none)
      [.tryCatch id body' catches' none] p'
  | tryFinally {position : Position} {p p₁ p₂ p' : Progress} {id : TryId}
    {body body' cleanup cleanup' : List Stmt} {catches catches' : List Catch}
    (plain : source.facts.containsYield id = false)
    (hb : RewritesAll source { position with inTry := true } p body body' p₁)
    (hc : RewritesCatches source { position with inTry := true } p₁ catches catches' p₂)
    (hf : RewritesAll source { position with inTry := true } p₂ cleanup cleanup' p') :
    Rewrites source position p (.tryCatch id body catches (some cleanup))
      [.tryCatch id body' catches' (some cleanup')] p'
  | frame {position : Position} {p p₁ p₂ p₃ p₄ : Progress} {id : TryId} {frame : FrameId}
    {index : Nat} {body stmts cleanup clause leave : List Stmt} {catches : List Catch}
    (suspends : source.facts.containsYield id = true)
    (hp : pushFrame source position.frame id p = .ok ((frame, index), p₁))
    (hb : RewritesAll source { frame, inTry := true } p₁ body stmts p₂)
    (hl : FrameEnds position.frame frame ⟨2 + index⟩ p₂ leave p₃)
    (hc : RewritesAll source position { p₃ with locals := [] } cleanup clause p₄) :
    Rewrites source position p (.tryCatch id body catches (some cleanup))
      [.block (setState (p₁.frames.frame frame).finalizeState :: stmts ++ leave)]
      (p₄.withHandler index p₃.locals
        (setState (p₃.frames.frame position.frame).finalizeState :: clause ++ [.ret none]))
  | tryFault {position : Position} {p p₁ p' : Progress} {body body' fault fault' : List Stmt}
    (hb : RewritesAll source { position with inTry := true } p body body' p₁)
    (hf : RewritesAll source { position with inTry := true } p₁ fault fault' p') :
    Rewrites source position p (.tryFault body fault) [.tryFault body' fault'] p'
  | throw {position : Position} {p : Progress} {value : Expr} :
    Rewrites source position p (.throw value) [.throw (value.hoist source.paramCount)] p
  | nop {position : Position} {p : Progress} : Rewrites source position p .nop [.nop] p

inductive RewritesAll (source : Source) :
    Position → Progress → List Stmt → List Stmt → Progress → Prop
  | nil {position : Position} {p : Progress} : RewritesAll source position p [] [] p
  | cons {position : Position} {p p₁ p' : Progress} {s : Stmt} {ss first rest : List Stmt}
    (hs : Rewrites source position p s first p₁)
    (hss : RewritesAll source position p₁ ss rest p') :
    RewritesAll source position p (s :: ss) (first ++ rest) p'

/-- An exception is caught in a local of the method that is being written. -/
inductive RewritesCatches (source : Source) :
    Position → Progress → List Catch → List Catch → Progress → Prop
  | nil {position : Position} {p : Progress} : RewritesCatches source position p [] [] p
  | plain {position : Position} {p p₁ p' : Progress} {ty : Option Ty} {body body' : List Stmt}
    {cs cs' : List Catch} (hb : RewritesAll source position p body body' p₁)
    (hcs : RewritesCatches source position p₁ cs cs' p') :
    RewritesCatches source position p (.mk ty none body :: cs) (.mk ty none body' :: cs') p'
  | caught {position : Position} {p p₁ p₂ p' : Progress} {ty : Option Ty} {caught temp_ : LocalId}
    {body body' : List Stmt} {cs cs' : List Catch}
    (ht : temp (caughtTy source ty caught) p = .ok (temp_, p₁))
    (hb : RewritesAll source position p₁ body body' p₂)
    (hcs : RewritesCatches source position p₂ cs cs' p') :
    RewritesCatches source position p (.mk ty (some caught) body :: cs)
      (.mk ty (some temp_)
        (.assign ((Place.local caught).hoist source.paramCount) (.local temp_) :: body') :: cs') p'

end

variable {source : Source} {position : Position} {p p' : Progress}

theorem routesCases_of_ok {frame : FrameId} {cases cases' : List (Int64 × LabelId)}
    (h : (cases.mapM fun ((value, target) : Int64 × LabelId) =>
      (do return (value, ← route frame target) : LowerM (Int64 × LabelId))) p = .ok (cases', p')) : RoutesCases frame p cases cases' p' := by
  induction cases generalizing p cases' with
  | nil =>
    obtain ⟨rfl, rfl⟩ := pure_eq_ok h
    exact .nil
  | cons pair cases ih =>
    obtain ⟨value, target⟩ := pair
    rw [List.mapM_cons, bind_eq_ok] at h
    obtain ⟨first, p₁, hf, h⟩ := h
    rw [bind_eq_ok] at hf
    obtain ⟨label, _, hr, hf⟩ := hf
    obtain ⟨rfl, rfl⟩ := pure_eq_ok hf
    rw [bind_eq_ok] at h
    obtain ⟨rest, _, hm, h⟩ := h
    obtain ⟨rfl, rfl⟩ := pure_eq_ok h
    exact .cons hr (ih hm)

theorem routesDefault_of_ok {frame : FrameId} {default? default' : Option LabelId}
    (h : default?.mapM (route frame) p = .ok (default', p')) :
    RoutesDefault frame p default? default' p' := by
  cases default? with
  | none =>
    obtain ⟨rfl, rfl⟩ := pure_eq_ok h
    exact .none
  | some target =>
    change (route frame target >>= fun label => pure (some label)) p = _ at h
    rw [bind_eq_ok] at h
    obtain ⟨label, _, hr, h⟩ := h
    obtain ⟨rfl, rfl⟩ := pure_eq_ok h
    exact .some hr

theorem proxiesEnd_of_ok {parent : FrameId} {handler : SynthMethodId}
    {proxies : List (LabelId × LabelId)} {out : List Stmt}
    (h : proxySections parent handler proxies p = .ok (out, p')) :
    ProxiesEnd parent handler p proxies out p' := by
  induction proxies generalizing p out with
  | nil =>
    obtain ⟨rfl, rfl⟩ := pure_eq_ok h
    exact .nil
  | cons pair rest ih =>
    obtain ⟨target, proxy⟩ := pair
    rw [proxySections, bind_eq_ok] at h
    obtain ⟨next, _, hr, h⟩ := h
    rw [bind_eq_ok] at h
    obtain ⟨sections, _, hm, h⟩ := h
    obtain ⟨rfl, rfl⟩ := pure_eq_ok h
    exact .cons hr (ih hm)

theorem frameEnds_of_ok {parent frame : FrameId} {handler : SynthMethodId} {out : List Stmt}
    (h : leaveFrame parent frame handler p = .ok (out, p')) :
    FrameEnds parent frame handler p out p' := by
  unfold leaveFrame at h
  rw [bind_eq_ok] at h
  obtain ⟨proxies, p₁, taken, h⟩ := h
  cases taken
  split at h
  next empty =>
    obtain ⟨rfl, rfl⟩ := pure_eq_ok h
    exact .plain (List.isEmpty_iff.mp empty)
  next some =>
    rw [bind_eq_ok] at h
    obtain ⟨drop, _, hf, h⟩ := h
    rw [bind_eq_ok] at h
    obtain ⟨sections, _, hm, h⟩ := h
    obtain ⟨rfl, rfl⟩ := pure_eq_ok h
    exact .proxies (fun none => some (List.isEmpty_iff.mpr none)) hf (proxiesEnd_of_ok hm)

theorem writeHandler_eq_ok {parent : FrameId} {index : Nat} {finallyClause : LowerM (List Stmt)}
    (h : writeHandler parent index finallyClause p = .ok ((), p')) :
    ∃ clause p₁, finallyClause { p with locals := [] } = .ok (clause, p₁) ∧
      p' = p₁.withHandler index p.locals
        (setState (p.frames.frame parent).finalizeState :: clause ++ [.ret none]) := by
  unfold writeHandler at h
  rw [bind_eq_ok] at h
  obtain ⟨state, _, hs, h⟩ := h
  obtain ⟨rfl, rfl⟩ := finalizeState_eq_ok hs
  rw [bind_eq_ok] at h
  obtain ⟨saved, _, hm, h⟩ := h
  cases hm
  rw [bind_eq_ok] at h
  obtain ⟨clause, p₁, hc, h⟩ := h
  cases h
  exact ⟨clause, p₁, hc, rfl⟩

mutual

/-- Lowering follows the rules. -/
theorem rewrites_of_ok (s : Stmt) (known : ∀ t ∈ s.tries, source.facts.Describe t)
    (fine : s.Suspendable) {position : Position} {p p' : Progress} {out : List Stmt}
    (h : rewriteStmt source position s p = .ok (out, p')) :
    Rewrites source position p s out p' := by
  cases s with
  | block stmts =>
    rw [rewriteStmt, bind_eq_ok] at h
    obtain ⟨inner, _, hi, h⟩ := h
    obtain ⟨rfl, rfl⟩ := pure_eq_ok h
    exact .block (rewritesAll_of_ok stmts known fine hi)
  | expr value =>
    rw [rewriteStmt, bind_eq_ok] at h
    obtain ⟨e, _, he, h⟩ := h
    obtain ⟨-, rfl, rfl⟩ := hoistExpr_eq_ok he
    obtain ⟨rfl, rfl⟩ := pure_eq_ok h
    exact .expr
  | assign place value =>
    rw [rewriteStmt, bind_eq_ok] at h
    obtain ⟨_, _, hp, h⟩ := h
    obtain ⟨-, rfl, rfl⟩ := hoistPlace_eq_ok hp
    rw [bind_eq_ok] at h
    obtain ⟨_, _, he, h⟩ := h
    obtain ⟨-, rfl, rfl⟩ := hoistExpr_eq_ok he
    obtain ⟨rfl, rfl⟩ := pure_eq_ok h
    exact .assign
  | label l =>
    rw [rewriteStmt] at h
    obtain ⟨rfl, rfl⟩ := pure_eq_ok h
    exact .label
  | goto target =>
    rw [rewriteStmt, bind_eq_ok] at h
    obtain ⟨l, _, hr, h⟩ := h
    obtain ⟨rfl, rfl⟩ := pure_eq_ok h
    exact .goto hr
  | condGoto cond jumpIf target =>
    rw [rewriteStmt, bind_eq_ok] at h
    obtain ⟨_, _, he, h⟩ := h
    obtain ⟨-, rfl, rfl⟩ := hoistExpr_eq_ok he
    rw [bind_eq_ok] at h
    obtain ⟨l, _, hr, h⟩ := h
    obtain ⟨rfl, rfl⟩ := pure_eq_ok h
    exact .condGoto hr
  | switch scrutinee cases default? =>
    rw [rewriteStmt, bind_eq_ok] at h
    obtain ⟨_, _, he, h⟩ := h
    obtain ⟨-, rfl, rfl⟩ := hoistExpr_eq_ok he
    rw [bind_eq_ok] at h
    obtain ⟨cases', _, hc, h⟩ := h
    rw [bind_eq_ok] at h
    obtain ⟨default', _, hd, h⟩ := h
    obtain ⟨rfl, rfl⟩ := pure_eq_ok h
    exact .switch (routesCases_of_ok hc) (routesDefault_of_ok hd)
  | ret value => cases h
  | yield value =>
    rw [rewriteStmt, bind_eq_ok] at h
    obtain ⟨_, _, he, h⟩ := h
    obtain ⟨-, rfl, rfl⟩ := hoistExpr_eq_ok he
    unfold yieldValue at h
    rw [bind_eq_ok] at h
    obtain ⟨⟨state, resume⟩, _, hs, h⟩ := h
    rw [bind_eq_ok] at h
    obtain ⟨finalize, _, hf, h⟩ := h
    obtain ⟨rfl, rfl⟩ := finalizeState_eq_ok hf
    obtain ⟨rfl, rfl⟩ := pure_eq_ok h
    exact .yield hs
  | yieldBreak =>
    rw [rewriteStmt] at h
    unfold yieldBreak at h
    split at h
    next inside =>
      rw [bind_eq_ok] at h
      obtain ⟨result, _, hr, h⟩ := h
      rw [bind_eq_ok] at h
      obtain ⟨l, _, ht, h⟩ := h
      obtain ⟨rfl, rfl⟩ := pure_eq_ok h
      exact .breakTry inside hr ht
    next outside =>
      obtain ⟨rfl, rfl⟩ := pure_eq_ok h
      exact .breakOut (Bool.eq_false_iff.mpr outside)
  | tryCatch id body catches cleanup =>
    cases cleanup with
    | none =>
      obtain ⟨quiet, quiet', fineBody, fineCatches⟩ := fine
      have plain : source.facts.containsYield id = false := by
        refine (known _ List.mem_cons_self).yields.trans ?_
        exact (congrArg₂ or quiet quiet').trans rfl
      have knownBody : ∀ t ∈ Stmt.triesAll body, source.facts.Describe t := fun t ht =>
        known t (List.mem_cons_of_mem _ (List.mem_append_left _ ht))
      have knownCatches : ∀ t ∈ Catch.triesAll catches, source.facts.Describe t := fun t ht =>
        known t (List.mem_cons_of_mem _ (List.mem_append_right _ ht))
      rw [rewriteStmt, if_neg (Bool.eq_false_iff.mp plain), bind_eq_ok] at h
      obtain ⟨body', _, hb, h⟩ := h
      rw [bind_eq_ok] at h
      obtain ⟨catches', _, hc, h⟩ := h
      obtain ⟨rfl, rfl⟩ := pure_eq_ok h
      exact .tryCatch plain (rewritesAll_of_ok body knownBody fineBody hb)
        (rewritesCatches_of_ok catches knownCatches fineCatches hc)
    | some cleanup =>
      obtain ⟨-, -, -, -, fineBody, fineCatches, fineCleanup⟩ := fine
      have knownBody : ∀ t ∈ Stmt.triesAll body, source.facts.Describe t := fun t ht =>
        known t (List.mem_cons_of_mem _ (List.mem_append_left _ (List.mem_append_left _ ht)))
      have knownCatches : ∀ t ∈ Catch.triesAll catches, source.facts.Describe t := fun t ht =>
        known t (List.mem_cons_of_mem _ (List.mem_append_left _ (List.mem_append_right _ ht)))
      have knownCleanup : ∀ t ∈ Stmt.triesAll cleanup, source.facts.Describe t := fun t ht =>
        known t (List.mem_cons_of_mem _ (List.mem_append_right _ ht))
      rw [rewriteStmt] at h
      split at h
      next suspends =>
        unfold suspendingTry at h
        rw [bind_eq_ok] at h
        obtain ⟨⟨frame, index⟩, p₁, hp, h⟩ := h
        rw [bind_eq_ok] at h
        obtain ⟨entry, _, he, h⟩ := h
        obtain ⟨rfl, rfl⟩ := finalizeState_eq_ok he
        rw [bind_eq_ok] at h
        obtain ⟨stmts, p₂, hb, h⟩ := h
        rw [bind_eq_ok] at h
        obtain ⟨leave, p₃, hl, h⟩ := h
        rw [bind_eq_ok] at h
        obtain ⟨_, _, hw, h⟩ := h
        obtain ⟨clause, p₄, hc, rfl⟩ := writeHandler_eq_ok hw
        obtain ⟨rfl, rfl⟩ := pure_eq_ok h
        exact .frame suspends hp (rewritesAll_of_ok body knownBody fineBody hb)
          (frameEnds_of_ok hl) (rewritesAll_of_ok cleanup knownCleanup fineCleanup hc)
      next plain =>
        dsimp only at h
        rw [bind_eq_ok] at h
        obtain ⟨body', _, hb, h⟩ := h
        rw [bind_eq_ok] at h
        obtain ⟨catches', _, hc, h⟩ := h
        rw [bind_eq_ok] at h
        obtain ⟨cleanup', _, hf, h⟩ := h
        obtain ⟨rfl, rfl⟩ := pure_eq_ok h
        exact .tryFinally (Bool.eq_false_iff.mpr plain)
          (rewritesAll_of_ok body knownBody fineBody hb)
          (rewritesCatches_of_ok catches knownCatches fineCatches hc)
          (rewritesAll_of_ok cleanup knownCleanup fineCleanup hf)
  | tryFault body fault =>
    have knownBody : ∀ t ∈ Stmt.triesAll body, source.facts.Describe t := fun t ht =>
      known t (List.mem_append_left _ ht)
    have knownFault : ∀ t ∈ Stmt.triesAll fault, source.facts.Describe t := fun t ht =>
      known t (List.mem_append_right _ ht)
    rw [rewriteStmt, bind_eq_ok] at h
    obtain ⟨body', _, hb, h⟩ := h
    rw [bind_eq_ok] at h
    obtain ⟨fault', _, hf, h⟩ := h
    obtain ⟨rfl, rfl⟩ := pure_eq_ok h
    exact .tryFault (rewritesAll_of_ok body knownBody fine.2.2.1 hb)
      (rewritesAll_of_ok fault knownFault fine.2.2.2 hf)
  | throw value =>
    rw [rewriteStmt, bind_eq_ok] at h
    obtain ⟨_, _, he, h⟩ := h
    obtain ⟨-, rfl, rfl⟩ := hoistExpr_eq_ok he
    obtain ⟨rfl, rfl⟩ := pure_eq_ok h
    exact .throw
  | nop =>
    rw [rewriteStmt] at h
    obtain ⟨rfl, rfl⟩ := pure_eq_ok h
    exact .nop

theorem rewritesAll_of_ok (ss : List Stmt)
    (known : ∀ t ∈ Stmt.triesAll ss, source.facts.Describe t) (fine : Stmt.SuspendableAll ss)
    {position : Position} {p p' : Progress} {out : List Stmt}
    (h : rewriteStmts source position ss p = .ok (out, p')) :
    RewritesAll source position p ss out p' := by
  cases ss with
  | nil =>
    rw [rewriteStmts] at h
    obtain ⟨rfl, rfl⟩ := pure_eq_ok h
    exact .nil
  | cons s ss =>
    rw [rewriteStmts, bind_eq_ok] at h
    obtain ⟨first, _, hs, h⟩ := h
    rw [bind_eq_ok] at h
    obtain ⟨rest, _, hss, h⟩ := h
    obtain ⟨rfl, rfl⟩ := pure_eq_ok h
    exact .cons (rewrites_of_ok s (fun t ht => known t (List.mem_append_left _ ht)) fine.1 hs)
      (rewritesAll_of_ok ss (fun t ht => known t (List.mem_append_right _ ht)) fine.2 hss)

theorem rewritesCatches_of_ok (cs : List Catch)
    (known : ∀ t ∈ Catch.triesAll cs, source.facts.Describe t) (fine : Catch.SuspendableAll cs)
    {position : Position} {p p' : Progress} {out : List Catch}
    (h : rewriteCatches source position cs p = .ok (out, p')) :
    RewritesCatches source position p cs out p' := by
  cases cs with
  | nil =>
    rw [rewriteCatches] at h
    obtain ⟨rfl, rfl⟩ := pure_eq_ok h
    exact .nil
  | cons c cs =>
    obtain ⟨ty, caught, body⟩ := c
    have knownBody : ∀ t ∈ Stmt.triesAll body, source.facts.Describe t := fun t ht =>
      known t (List.mem_append_left _ ht)
    have knownRest : ∀ t ∈ Catch.triesAll cs, source.facts.Describe t := fun t ht =>
      known t (List.mem_append_right _ ht)
    rw [rewriteCatches, bind_eq_ok] at h
    obtain ⟨first, _, hc, h⟩ := h
    rw [bind_eq_ok] at h
    obtain ⟨rest, _, hcs, h⟩ := h
    obtain ⟨rfl, rfl⟩ := pure_eq_ok h
    cases caught with
    | none =>
      rw [rewriteCatch, bind_eq_ok] at hc
      obtain ⟨body', _, hb, hc⟩ := hc
      obtain ⟨rfl, rfl⟩ := pure_eq_ok hc
      exact .plain (rewritesAll_of_ok body knownBody fine.1 hb)
        (rewritesCatches_of_ok cs knownRest fine.2 hcs)
    | some caught =>
      rw [rewriteCatch, bind_eq_ok] at hc
      obtain ⟨local_, _, ht, hc⟩ := hc
      rw [bind_eq_ok] at hc
      obtain ⟨place, _, hp, hc⟩ := hc
      obtain ⟨-, rfl, rfl⟩ := hoistPlace_eq_ok hp
      rw [bind_eq_ok] at hc
      obtain ⟨body', _, hb, hc⟩ := hc
      obtain ⟨rfl, rfl⟩ := pure_eq_ok hc
      exact .caught ht (rewritesAll_of_ok body knownBody fine.1 hb)
        (rewritesCatches_of_ok cs knownRest fine.2 hcs)

end

end Lowering

end ManagedCode
