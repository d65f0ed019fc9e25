import ManagedCode.Proofs.Iterator.HoistBody
import ManagedCode.Proofs.Iterator.Readable

namespace ManagedCode

namespace Lowering

/-! How many frames and states a part of a body needs. -/

/-- The try statements that suspend, the outer before the inner: each becomes a frame. -/
def frameIds (tries : List TryFacts) : List TryId := (tries.filter (·.yields)).map (·.id)

theorem frameIds_append (ts ts' : List TryFacts) :
    frameIds (ts ++ ts') = frameIds ts ++ frameIds ts' := by
  unfold frameIds
  rw [List.filter_append, List.map_append]

theorem frameIds_cons (t : TryFacts) (ts : List TryFacts) :
    frameIds (t :: ts) = (if t.yields then [t.id] else []) ++ frameIds ts := by
  unfold frameIds
  rw [List.filter_cons]
  split <;> rfl

section

variable {id : TryId} {body cleanup : List Stmt} {catches : List Catch}

/-! The frames of a try statement. -/

theorem frameIds_tryCatch (none : (Stmt.tryCatch id body catches none).yields = false) :
    frameIds (Stmt.tryCatch id body catches Option.none).tries =
      frameIds (Stmt.triesAll body) ++ frameIds (Catch.triesAll catches) := by
  rw [Stmt.tries, frameIds_cons, none, frameIds_append]
  rfl

theorem frameIds_tryFinally
    (none : (Stmt.tryCatch id body catches (some cleanup)).yields = false) :
    frameIds (Stmt.tryCatch id body catches (some cleanup)).tries =
      frameIds (Stmt.triesAll body) ++ frameIds (Catch.triesAll catches) ++
        frameIds (Stmt.triesAll cleanup) := by
  rw [Stmt.tries, frameIds_cons, none, frameIds_append, frameIds_append]
  rfl

theorem frameIds_frame (some : (Stmt.tryCatch id body [] (some cleanup)).yields = true) :
    frameIds (Stmt.tryCatch id body [] (Option.some cleanup)).tries =
      id :: (frameIds (Stmt.triesAll body) ++ frameIds (Stmt.triesAll cleanup)) := by
  rw [Stmt.tries, frameIds_cons, some, if_pos rfl, frameIds_append, frameIds_append,
    Catch.triesAll]
  simp [frameIds]

end

mutual

/-- Hoisting leaves the frames as they are. -/
theorem frameIds_hoist (n : Nat) (s : Stmt) : frameIds (s.hoist n).tries = frameIds s.tries := by
  cases s with
  | block stmts => exact frameIds_hoistAll n stmts
  | tryCatch id body catches cleanup =>
    have yields := Stmt.yields_hoist (n := n) (.tryCatch id body catches cleanup)
    cases cleanup with
    | none =>
      rw [Stmt.hoist] at yields
      rw [Stmt.hoist, Stmt.tries, Stmt.tries, frameIds_cons, frameIds_cons, frameIds_append,
        frameIds_append, frameIds_hoistAll n body, frameIds_hoistCatches n catches]
      dsimp only
      rw [yields]
    | some cleanup =>
      rw [Stmt.hoist] at yields
      rw [Stmt.hoist, Stmt.tries, Stmt.tries, frameIds_cons, frameIds_cons, frameIds_append,
        frameIds_append, frameIds_append, frameIds_append, frameIds_hoistAll n body,
        frameIds_hoistCatches n catches, frameIds_hoistAll n cleanup]
      dsimp only
      rw [yields]
  | tryFault body fault =>
    rw [Stmt.hoist, Stmt.tries, Stmt.tries, frameIds_append, frameIds_append,
      frameIds_hoistAll n body, frameIds_hoistAll n fault]
  | _ => rfl

theorem frameIds_hoistAll (n : Nat) (ss : List Stmt) :
    frameIds (Stmt.triesAll (Stmt.hoistAll n ss)) = frameIds (Stmt.triesAll ss) := by
  cases ss with
  | nil => rfl
  | cons s ss =>
    rw [Stmt.hoistAll, Stmt.triesAll, Stmt.triesAll, frameIds_append, frameIds_append,
      frameIds_hoist n s, frameIds_hoistAll n ss]

theorem frameIds_hoistCatches (n : Nat) (cs : List Catch) :
    frameIds (Catch.triesAll (Catch.hoistAll n cs)) = frameIds (Catch.triesAll cs) := by
  cases cs with
  | nil => rfl
  | cons c cs =>
    obtain ⟨ty, caught, body⟩ := c
    cases caught <;>
      rw [Catch.hoistAll, Catch.hoist, Catch.triesAll, Catch.triesAll, frameIds_append,
        frameIds_append, frameIds_hoistCatches n cs] <;>
      exact congrArg (· ++ _) (frameIds_hoistAll n body)

end

mutual

theorem yieldSites_eq_nil (s : Stmt) {around : List TryId} (none : s.yields = false) :
    s.yieldSites around = [] := by
  cases s with
  | block stmts => exact yieldSitesAll_eq_nil stmts none
  | yield => cases none
  | tryCatch id body catches cleanup =>
    refine yieldSitesAll_eq_nil body ?_
    cases cleanup with
    | none => exact (Bool.or_eq_false_iff.mp none).1
    | some cleanup => exact (Bool.or_eq_false_iff.mp (Bool.or_eq_false_iff.mp none).1).1
  | _ => rfl

theorem yieldSitesAll_eq_nil (ss : List Stmt) {around : List TryId}
    (none : Stmt.anyYields ss = false) : Stmt.yieldSitesAll around ss = [] := by
  cases ss with
  | nil => rfl
  | cons s ss =>
    obtain ⟨first, rest⟩ := Bool.or_eq_false_iff.mp none
    rw [Stmt.yieldSitesAll, yieldSites_eq_nil s first, yieldSitesAll_eq_nil ss rest]
    rfl

end

/-- Lowering made a frame for each of some try statements, and a state for each of some yields. -/
structure Counts (frames : List TryId) (sites : List (Expr × List TryId)) (p p' : Progress) :
    Prop where
  handlers : p'.handlers.length = p.handlers.length + frames.length
  resume : p'.resumeLabels.length = p.resumeLabels.length + sites.length

variable {source : Source} {base : Nat} {p p₁ p' : Progress}

theorem Counts.same (handlers : p'.handlers = p.handlers)
    (resume : p'.resumeLabels = p.resumeLabels) : Counts [] [] p p' :=
  ⟨congrArg List.length handlers, congrArg List.length resume⟩

theorem Counts.trans {frames frames' : List TryId} {sites sites' : List (Expr × List TryId)}
    (h : Counts frames sites p p₁) (h' : Counts frames' sites' p₁ p') :
    Counts (frames ++ frames') (sites ++ sites') p p' where
  handlers := by rw [h'.handlers, h.handlers, List.length_append, Nat.add_assoc]
  resume := by rw [h'.resume, h.resume, List.length_append, Nat.add_assoc]

theorem counts_freshLabel {label : LabelId} (h : freshLabel p = .ok (label, p')) :
    Counts [] [] p p' := by
  obtain ⟨-, -, rfl⟩ := freshLabel_eq_ok h
  exact .same rfl rfl

theorem counts_temp {ty : Ty} {id : LocalId} (h : temp ty p = .ok (id, p')) :
    Counts [] [] p p' := by
  obtain ⟨-, rfl⟩ := temp_eq_ok h
  exact .same rfl rfl

theorem counts_route {frame : FrameId} {target label : LabelId}
    (h : route frame target p = .ok (label, p')) : Counts [] [] p p' := by
  rcases route_eq_ok h with ⟨-, -, rfl⟩ | ⟨-, -, rfl⟩ | ⟨-, -, -, -, rfl⟩ <;> exact .same rfl rfl

theorem counts_resultLocal {result : LocalId} (h : resultLocal p = .ok (result, p')) :
    Counts [] [] p p' := by
  rcases resultLocal_eq_ok h with ⟨-, rfl⟩ | ⟨-, -, rfl⟩ <;> exact .same rfl rfl

theorem RoutesCases.counts {frame : FrameId} {cases cases' : List (Int64 × LabelId)}
    (h : RoutesCases frame p cases cases' p') : Counts [] [] p p' := by
  induction h with
  | nil => exact .same rfl rfl
  | cons h rest ih => exact (counts_route h).trans ih

theorem RoutesDefault.counts {frame : FrameId} {default? default' : Option LabelId}
    (h : RoutesDefault frame p default? default' p') : Counts [] [] p p' := by
  cases h with
  | none => exact .same rfl rfl
  | some h => exact counts_route h

theorem ProxiesEnd.counts {parent : FrameId} {handler : SynthMethodId}
    {proxies : List (LabelId × LabelId)} {out : List Stmt}
    (h : ProxiesEnd parent handler p proxies out p') : Counts [] [] p p' := by
  induction h with
  | nil => exact .same rfl rfl
  | cons h more ih => exact (counts_route h).trans ih

theorem FrameEnds.counts {parent frame : FrameId} {handler : SynthMethodId} {out : List Stmt}
    (h : FrameEnds parent frame handler p out p') : Counts [] [] p p' := by
  cases h with
  | plain => exact .same rfl rfl
  | proxies some h more =>
    have start : Counts [] [] p (p.takeProxies frame) := .same rfl rfl
    exact start.trans ((counts_freshLabel h).trans more.counts)

mutual

theorem Rewrites.counts {s : Stmt} {out : List Stmt} {position : Position} {p p' : Progress}
    (h : Rewrites source position p s out p') (readable : Readable source base s)
    (around : List TryId) :
    Counts (frameIds s.tries) ((s.hoist source.paramCount).yieldSites around) p p' := by
  cases h with
  | block h => exact RewritesAll.counts h readable.block around
  | expr | assign | label | throw | nop | breakOut => exact .same rfl rfl
  | goto h => exact counts_route h
  | condGoto h => exact counts_route h
  | switch hc hd => exact hc.counts.trans hd.counts
  | yield h =>
    obtain ⟨-, -, -, rfl⟩ := addState_eq_ok h
    exact ⟨rfl, List.length_append⟩
  | breakTry inside hr h => exact (counts_resultLocal hr).trans (counts_route h)
  | tryCatch plain hb hc =>
    rename_i id body body' catches catches'
    have fine := readable.suspendable
    have body := RewritesAll.counts hb readable.inBody (id :: around)
    have counts := body.trans (RewritesCatches.counts hc readable.inCatches fine.2.1)
    have yields : (Stmt.anyYields _ || Catch.anyYields _) = false :=
      Bool.or_eq_false_iff.mpr ⟨fine.1, fine.2.1⟩
    rw [frameIds_tryCatch yields]
    rw [List.append_nil] at counts
    exact counts
  | tryFinally plain hb hc hf =>
    rename_i p₁ p₂ id body body' cleanup cleanup' catches catches'
    obtain ⟨-, none, none', -⟩ := readable.suspendable
    have counted := RewritesAll.counts hb readable.inBody (id :: around)
    have clause := RewritesAll.counts hf readable.inCleanup []
    rw [yieldSitesAll_eq_nil _ (by rwa [Stmt.anyYields_hoistAll])] at clause
    have counts := (counted.trans (RewritesCatches.counts hc readable.inCatches none)).trans clause
    have yields : (Stmt.tryCatch id body catches (some cleanup)).yields = false :=
      (readable.described _ List.mem_cons_self).yields.symm.trans plain
    rw [frameIds_tryFinally yields]
    rw [List.append_nil, List.append_nil] at counts
    exact counts
  | frame suspends hp hb hl hc =>
    rename_i p₁ p₂ p₃ p₄ id frame index body stmts cleanup clause' leave catches
    obtain ⟨plain, none, none', -⟩ := readable.suspendable
    have some : Stmt.anyYields body = true := readable.containsYield.symm.trans suspends
    obtain rfl := plain some
    have push : Counts [id] [] p p₁ := by
      obtain ⟨-, -, rfl, rfl⟩ := pushFrame_eq_ok hp
      exact ⟨List.length_append, rfl⟩
    have counted := RewritesAll.counts hb readable.inBody (id :: around)
    have clause := RewritesAll.counts hc readable.inCleanup []
    rw [yieldSitesAll_eq_nil _ (by rwa [Stmt.anyYields_hoistAll])] at clause
    have moved : Counts [] [] p₃ { p₃ with locals := [] } := .same rfl rfl
    have counts := (push.trans counted).trans (hl.counts.trans (moved.trans clause))
    have yields : (Stmt.tryCatch id body [] (Option.some cleanup)).yields = true :=
      (readable.described _ List.mem_cons_self).yields.symm.trans suspends
    rw [frameIds_frame yields]
    simp only [List.nil_append, List.append_nil] at counts
    have written : Counts [] [] p₄ (p₄.withHandler index p₃.locals
        (setState (p₃.frames.frame position.frame).finalizeState :: clause' ++ [.ret Option.none])) :=
      ⟨List.length_modify .., rfl⟩
    have whole := counts.trans written
    rw [List.append_nil, List.append_nil] at whole
    exact whole
  | tryFault hb hf =>
    obtain ⟨none, none', -⟩ := readable.suspendable
    have body := RewritesAll.counts hb readable.inFaultBody []
    have fault := RewritesAll.counts hf readable.inFault []
    rw [yieldSitesAll_eq_nil _ (by rwa [Stmt.anyYields_hoistAll])] at body fault
    rw [Stmt.tries, frameIds_append]
    exact body.trans fault

theorem RewritesAll.counts {ss out : List Stmt} {position : Position} {p p' : Progress}
    (h : RewritesAll source position p ss out p') (readable : ReadableAll source base ss)
    (around : List TryId) :
    Counts (frameIds (Stmt.triesAll ss))
      (Stmt.yieldSitesAll around (Stmt.hoistAll source.paramCount ss)) p p' := by
  cases h with
  | nil => exact .same rfl rfl
  | cons hs hss =>
    rw [Stmt.triesAll, frameIds_append, Stmt.hoistAll, Stmt.yieldSitesAll]
    exact (Rewrites.counts hs readable.head around).trans
      (RewritesAll.counts hss readable.tail around)

theorem RewritesCatches.counts {cs out : List Catch} {position : Position} {p p' : Progress}
    (h : RewritesCatches source position p cs out p') (readable : ReadableCatches source base cs)
    (none : Catch.anyYields cs = false) : Counts (frameIds (Catch.triesAll cs)) [] p p' := by
  cases h with
  | nil => exact .same rfl rfl
  | plain hb hcs =>
    obtain ⟨first, rest⟩ := Bool.or_eq_false_iff.mp none
    have body := RewritesAll.counts hb readable.head []
    rw [yieldSitesAll_eq_nil _ (by rwa [Stmt.anyYields_hoistAll])] at body
    rw [Catch.triesAll, frameIds_append]
    exact body.trans (RewritesCatches.counts hcs readable.tail rest)
  | caught ht hb hcs =>
    obtain ⟨first, rest⟩ := Bool.or_eq_false_iff.mp none
    have body := RewritesAll.counts hb readable.head []
    rw [yieldSitesAll_eq_nil _ (by rwa [Stmt.anyYields_hoistAll])] at body
    rw [Catch.triesAll, frameIds_append]
    exact ((counts_temp ht).trans body).trans (RewritesCatches.counts hcs readable.tail rest)

end

theorem counts_plain {ss out : List Stmt} {position : Position} (none : Stmt.anyYields ss = false)
    (h : RewritesAll source position p ss out p') (readable : ReadableAll source base ss) :
    Counts (frameIds (Stmt.triesAll ss)) [] p p' := by
  have counts := RewritesAll.counts h readable []
  rwa [yieldSitesAll_eq_nil _ (by rwa [Stmt.anyYields_hoistAll])] at counts

end Lowering

end ManagedCode
