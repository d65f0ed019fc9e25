import ManagedCode.Proofs.Body.Code
import ManagedCode.Proofs.Iterator.Housed

namespace ManagedCode

/-- The code of the finally clauses of some try statements. -/
def cleanupCode (tries : List SuspendingTry) : Multiset Node :=
  (tries.map fun try_ => Node.code (Stmt.nodesAll try_.cleanup)).sum

theorem cleanupCode_append (tries tries' : List SuspendingTry) :
    cleanupCode (tries ++ tries') = cleanupCode tries + cleanupCode tries' := by
  rw [cleanupCode, List.map_append, List.sum_append]
  rfl

mutual

/-- The code of a statement is in the finally clauses of the try statements that suspend, or it is
outside all of them. -/
theorem Stmt.code_eq (s : Stmt) (fine : s.Suspendable) (outer? : Option TryId) :
    Node.code s.nodes =
      Node.code s.withoutCleanups.nodes + cleanupCode (s.suspendingTries outer?) := by
  cases s with
  | block stmts =>
    rw [Stmt.withoutCleanups, Stmt.suspendingTries, Stmt.code_block, Stmt.code_block,
      Stmt.codeAll_eq stmts fine outer?]
  | tryCatch id body catches finally? =>
    cases finally? with
    | none =>
      obtain ⟨none, -, fineBody, fineCatches⟩ := fine
      rw [Stmt.withoutCleanups, Stmt.suspendingTries, SuspendingTry.here, SuspendingTry.inside,
        none, Stmt.code_tryCatch, Stmt.code_tryCatch, Stmt.codeAll_eq body fineBody outer?,
        Catch.codeAll_eq catches fineCatches outer?, add_add_add_comm, ← cleanupCode_append]
      rfl
    | some cleanup =>
      obtain ⟨plain, -, quiet, -, fineBody, fineCatches, fineCleanup⟩ := fine
      rw [Stmt.withoutCleanups, Stmt.suspendingTries, SuspendingTry.here, SuspendingTry.inside,
        Stmt.code_tryFinally]
      cases yields : Stmt.anyYields body with
      | true =>
        -- nothing suspends in the finally clause, which is what the try statement is left through
        obtain rfl := plain yields
        have here : cleanupCode [⟨id, outer?, cleanup⟩] = Node.code (Stmt.nodesAll cleanup) :=
          add_zero _
        rw [if_pos rfl, if_pos rfl, if_pos rfl, Stmt.code_tryCatch,
          Stmt.codeAll_eq body fineBody (some id),
          Stmt.suspendingTriesAll_eq_nil outer? cleanup quiet, Catch.withoutCleanupsAll,
          Catch.suspendingTriesAll, List.append_nil, List.append_nil, cleanupCode_append, here]
        ac_rfl
      | false =>
        rw [if_neg Bool.false_ne_true, if_neg Bool.false_ne_true, if_neg Bool.false_ne_true,
          Stmt.code_tryFinally, Stmt.codeAll_eq body fineBody outer?,
          Catch.codeAll_eq catches fineCatches outer?, Stmt.codeAll_eq cleanup fineCleanup outer?,
          List.nil_append, cleanupCode_append, cleanupCode_append]
        ac_rfl
  | tryFault body fault =>
    obtain ⟨-, -, fineBody, fineFault⟩ := fine
    rw [Stmt.withoutCleanups, Stmt.suspendingTries, Stmt.code_tryFault, Stmt.code_tryFault,
      Stmt.codeAll_eq body fineBody outer?, Stmt.codeAll_eq fault fineFault outer?,
      add_add_add_comm, ← cleanupCode_append]
  | _ => exact (add_zero _).symm

theorem Stmt.codeAll_eq (ss : List Stmt) (fine : Stmt.SuspendableAll ss) (outer? : Option TryId) :
    Node.code (Stmt.nodesAll ss) =
      Node.code (Stmt.nodesAll (Stmt.withoutCleanupsAll ss)) +
        cleanupCode (Stmt.suspendingTriesAll outer? ss) := by
  cases ss with
  | nil => rfl
  | cons s ss =>
    rw [Stmt.nodesAll, Stmt.withoutCleanupsAll, Stmt.nodesAll, Stmt.suspendingTriesAll,
      cleanupCode_append, Node.code_append, Node.code_append, Stmt.code_eq s fine.1 outer?,
      Stmt.codeAll_eq ss fine.2 outer?, add_add_add_comm]

theorem Catch.codeAll_eq (cs : List Catch) (fine : Catch.SuspendableAll cs)
    (outer? : Option TryId) :
    Node.code (Catch.nodesAll cs) =
      Node.code (Catch.nodesAll (Catch.withoutCleanupsAll cs)) +
        cleanupCode (Catch.suspendingTriesAll outer? cs) := by
  cases cs with
  | nil => rfl
  | cons c cs =>
    obtain ⟨ty, caught, body⟩ := c
    rw [Catch.withoutCleanupsAll, Catch.suspendingTriesAll, cleanupCode_append, Catch.code_cons,
      Catch.code_cons, Stmt.codeAll_eq body fine.1 outer?, Catch.codeAll_eq cs fine.2 outer?,
      add_add_add_comm, ← add_assoc]

end

namespace Lowering

/-! Lowering keeps all code: that of each finally clause that is left through a handler in this
handler, and all other code in the method that is being written. -/

/-- A handler has the code of the finally clause of a try statement. -/
def HoldsCleanup (n : Nat) (try_ : SuspendingTry) (m : SynthesizedMethod) : Prop :=
  Node.Keeps n (Stmt.nodesAll try_.cleanup) m.body.nodes

variable {source : Source} {n : Nat} {p p₁ p' : Progress}

theorem ProxiesEnd.bookkeeping {parent : FrameId} {handler : SynthMethodId}
    {proxies : List (LabelId × LabelId)} {out : List Stmt}
    (h : ProxiesEnd parent handler p proxies out p') : Bookkeeping (Stmt.nodesAll out) := by
  induction h with
  | nil => exact bookkeeping_nil
  | cons h more ih =>
    simpa [Stmt.nodesAll] using ih

theorem FrameEnds.bookkeeping {parent frame : FrameId} {handler : SynthMethodId} {out : List Stmt}
    (h : FrameEnds parent frame handler p out p') : Bookkeeping (Stmt.nodesAll out) := by
  cases h with
  | plain => simp [Stmt.nodesAll]
  | proxies some h more =>
    have sections := more.bookkeeping
    simpa [Stmt.nodesAll, Stmt.nodesAll_append] using sections

/-- Between a state that is set and bookkeeping, the code stays what it is. -/
theorem keeps_entered (state : Int) {old : List Node} {ss rest : List Stmt}
    (h : Node.Keeps n old (Stmt.nodesAll ss)) (own : Bookkeeping (Stmt.nodesAll rest)) :
    Node.Keeps n old (Stmt.nodesAll (setState state :: ss ++ rest)) := by
  rw [List.cons_append, Stmt.nodesAll, Stmt.nodesAll_append]
  exact (Node.Keeps.own (bookkeeping_setState state)).append (h.followed own)

/-! Whole statements. -/

/-- From `p` to `p'` the code of some nodes goes to others, and that of finally clauses to
handlers. -/
structure Moves (n : Nat) (tries : List SuspendingTry) (old new : List Node) (p p' : Progress) :
    Prop where
  keeps : Node.Keeps n old new
  houses : Houses (HoldsCleanup n) tries p p'

namespace Moves

variable {tries tries' : List SuspendingTry} {old old' new new' : List Node}

theorem andThen (h : Moves n tries old new p p₁) (h' : Moves n tries' old' new' p₁ p') :
    Moves n (tries ++ tries') (old ++ old') (new ++ new') p p' :=
  ⟨h.keeps.append h'.keeps, h.houses.trans h'.houses⟩

/-- A statement that says in which order others are run. -/
theorem under {s s' : Stmt} (order : (Node.stmt s).isCode = false)
    (order' : (Node.stmt s').isCode = false) (h : Moves n tries old new p p') :
    Moves n tries (.stmt s :: old) (.stmt s' :: new) p p' :=
  ⟨(h.keeps.lead fun code => absurd code (by simp [order'])).skip order, h.houses⟩

theorem cons (node : Node) (h : Moves n tries old new p p') :
    Moves n tries (node :: old) (node.hoist n :: new) p p' :=
  ⟨h.keeps.cons node, h.houses⟩

theorem skip {s : Stmt} (order : (Node.stmt s).isCode = false) (h : Moves n tries old new p p') :
    Moves n tries (.stmt s :: old) new p p' :=
  ⟨h.keeps.skip order, h.houses⟩

/-- One statement is written for another. -/
theorem single {s : Stmt} (h : Moves n tries old s.nodes p p') :
    Moves n tries old (Stmt.nodesAll [s]) p p' := by
  rwa [Stmt.nodesAll, Stmt.nodesAll, List.append_nil]

theorem alone {s : Stmt} (same : p'.handlers = p.handlers) (h : Node.Keeps n old s.nodes) :
    Moves n [] old (Stmt.nodesAll [s]) p p' :=
  single ⟨h, .same same⟩

end Moves

mutual

/-- Lowering moves each piece of code once. -/
theorem Rewrites.moves {s : Stmt} {out : List Stmt} {position : Position} {p p' : Progress}
    (h : Rewrites source position p s out p') (known : s.Analysed source.facts)
    (outer? : Option TryId) :
    Moves source.paramCount (s.suspendingTries outer?) s.withoutCleanups.nodes (Stmt.nodesAll out)
      p p' := by
  cases h with
  | block h =>
    exact .single (.under rfl rfl (RewritesAll.moves h known.block outer?))
  | expr => exact .alone rfl (.cons (.stmt (.expr _)) (.expr _))
  | assign => exact .alone rfl (.cons (.stmt (.assign _ _)) (.append (.place _) (.expr _)))
  | throw => exact .alone rfl (.cons (.stmt (.throw _)) (.expr _))
  | label => exact .alone rfl (.cons (.stmt (.label _)) (.own bookkeeping_nil))
  | nop => exact .alone rfl (.cons (.stmt .nop) (.own bookkeeping_nil))
  | goto h => exact .single (.under rfl rfl ⟨.own bookkeeping_nil, .same (idle_route h).handlers⟩)
  | condGoto h => exact .single (.under rfl rfl ⟨.expr _, .same (idle_route h).handlers⟩)
  | switch hc hd =>
    exact .single (.under rfl rfl ⟨.expr _, .same (hc.idle.trans hd.idle).handlers⟩)
  | yield h =>
    refine .skip rfl ⟨?_, .same (handlers_addState h)⟩
    -- the value is stored as the current element, and all that follows is bookkeeping
    refine Node.Keeps.followed (.lead (fun _ => .inl rfl) (.lead (fun _ => trivial) (.expr _))) ?_
    simp [Stmt.nodesAll]
  | breakOut outside =>
    exact .skip rfl ⟨.own (by simp [Stmt.nodesAll]), .same rfl⟩
  | breakTry inside hr h =>
    exact .skip rfl ⟨.own (by simp [Stmt.nodesAll]),
      .same ((idle_resultLocal hr).trans (idle_route h)).handlers⟩
  | tryCatch plain hb hc =>
    rename_i id body body' catches catches'
    have none : Stmt.anyYields body = false := known.suspendable.1
    have moved := (RewritesAll.moves hb known.inBody outer?).andThen
      (RewritesCatches.moves hc known.inCatches outer?)
    rw [Stmt.suspendingTries, SuspendingTry.here, SuspendingTry.inside, none]
    exact .single (.under rfl rfl (.cons (.tryCatch id) moved))
  | tryFinally plain hb hc hf =>
    rename_i p₁ p₂ id body body' cleanup cleanup' catches catches'
    have none : Stmt.anyYields body = false := known.containsYield.symm.trans plain
    have moved := (RewritesAll.moves hb known.inBody outer?).andThen
      ((RewritesCatches.moves hc known.inCatches outer?).andThen
        (RewritesAll.moves hf known.inCleanup outer?))
    rw [Stmt.suspendingTries, SuspendingTry.here, SuspendingTry.inside, Stmt.withoutCleanups, none]
    exact .single (.under rfl rfl (.cons (.tryCatch id) moved))
  | frame suspends hp hb hl hc =>
    rename_i p₁ p₂ p₃ p₄ id frame index body stmts cleanup clause leave catches
    obtain ⟨plain, -, quiet, -⟩ := known.suspendable
    have some : Stmt.anyYields body = true := known.containsYield.symm.trans suspends
    obtain rfl := plain some
    have moved := RewritesAll.moves hb known.inBody (Option.some id)
    have cleaned := RewritesAll.moves hc known.inCleanup outer?
    rw [Stmt.suspendingTriesAll_eq_nil outer? cleanup quiet,
      Stmt.withoutCleanupsAll_eq_self cleanup quiet] at cleaned
    have same : p₄.handlers = p₂.handlers := cleaned.houses.eq_of_nil.trans hl.idle.handlers
    have last : Bookkeeping (Stmt.nodesAll [.ret none]) := by simp [Stmt.nodesAll]
    have kept :=
      keeps_entered (p₃.frames.frame position.frame).finalizeState cleaned.keeps last
    have housed : Houses (HoldsCleanup source.paramCount) (⟨id, outer?, cleanup⟩ :: _) p _ :=
      Houses.frame hp moved.houses same p₃.locals fun _ => kept
    rw [Stmt.suspendingTries, SuspendingTry.here, SuspendingTry.inside, Stmt.withoutCleanups, some,
      Stmt.suspendingTriesAll_eq_nil outer? cleanup quiet]
    refine .single (.under rfl rfl ⟨.skip rfl ?_, ?_⟩)
    · have entered :=
        keeps_entered (p₁.frames.frame frame).finalizeState moved.keeps hl.bookkeeping
      rw [← List.append_nil (Stmt.nodesAll (Stmt.withoutCleanupsAll body))] at entered
      exact entered
    · rw [if_pos rfl, if_pos rfl, Catch.suspendingTriesAll, List.append_nil, List.append_nil]
      exact housed
  | tryFault hb hf =>
    exact .single (.under rfl rfl
      ((RewritesAll.moves hb known.inFaultBody outer?).andThen
        (RewritesAll.moves hf known.inFault outer?)))

theorem RewritesAll.moves {ss out : List Stmt} {position : Position} {p p' : Progress}
    (h : RewritesAll source position p ss out p') (known : Stmt.AnalysedAll source.facts ss)
    (outer? : Option TryId) :
    Moves source.paramCount (Stmt.suspendingTriesAll outer? ss)
      (Stmt.nodesAll (Stmt.withoutCleanupsAll ss)) (Stmt.nodesAll out) p p' := by
  cases h with
  | nil => exact ⟨.own bookkeeping_nil, .same rfl⟩
  | cons hs hss =>
    rw [Stmt.nodesAll_append]
    exact (Rewrites.moves hs known.head outer?).andThen (RewritesAll.moves hss known.tail outer?)

theorem RewritesCatches.moves {cs out : List Catch} {position : Position} {p p' : Progress}
    (h : RewritesCatches source position p cs out p') (known : Catch.AnalysedAll source.facts cs)
    (outer? : Option TryId) :
    Moves source.paramCount (Catch.suspendingTriesAll outer? cs)
      (Catch.nodesAll (Catch.withoutCleanupsAll cs)) (Catch.nodesAll out) p p' := by
  cases h with
  | nil => exact ⟨.own bookkeeping_nil, .same rfl⟩
  | plain hb hcs =>
    exact .andThen (.cons (.catch_ _) (RewritesAll.moves hb known.head outer?))
      (RewritesCatches.moves hcs known.tail outer?)
  | caught ht hb hcs =>
    -- the exception is copied to the field of its local first
    rename_i p₁ p₂ ty caught temp_ body body' cs cs'
    have copy : Bookkeeping
        (Stmt.assign ((Place.local caught).hoist source.paramCount) (.local temp_)).nodes :=
      bookkeeping_setField _ trivial (bookkeeping_local _)
    have copied := (Moves.mk (.own copy) (.same (idle_temp ht).handlers)).andThen
      (RewritesAll.moves hb known.head outer?)
    exact .andThen (.cons (.catch_ ty) copied) (RewritesCatches.moves hcs known.tail outer?)

end

end Lowering

end ManagedCode
