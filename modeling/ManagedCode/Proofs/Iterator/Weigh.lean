import Mathlib.Algebra.GroupWithZero.Nat
import ManagedCode.Proofs.Iterator.Growth

namespace ManagedCode

/-! No label and no try id is used twice. -/

/-- Weights of labels and try ids, and what those weigh together that have not been drawn yet. -/
structure Tally where
  label : LabelId → Nat
  tryId : TryId → Nat
  labels : Nat → Nat
  tries : Nat → Nat
  drawLabel : ∀ n, labels (n + 1) + label ⟨n⟩ ≤ labels n
  drawTry : ∀ n, tries (n + 1) + tryId ⟨n⟩ ≤ tries n

namespace Tally

variable (t : Tally)

/-- What the labels and try ids of a statement weigh. -/
def stmt (s : Stmt) : Nat := (s.labels.map t.label).sum + (s.tries.map (t.tryId ·.id)).sum

def stmts (ss : List Stmt) : Nat :=
  ((Stmt.labelsAll ss).map t.label).sum + ((Stmt.triesAll ss).map (t.tryId ·.id)).sum

def catches (cs : List Catch) : Nat :=
  ((Catch.labelsAll cs).map t.label).sum + ((Catch.triesAll cs).map (t.tryId ·.id)).sum

@[simp] theorem stmts_nil : t.stmts [] = 0 := rfl

@[simp] theorem stmts_append (ss ss' : List Stmt) : t.stmts (ss ++ ss') = t.stmts ss + t.stmts ss' := by
  unfold stmts
  rw [Stmt.labelsAll_append, Stmt.triesAll_append, List.map_append, List.map_append,
    List.sum_append, List.sum_append]
  omega

@[simp] theorem stmts_cons (s : Stmt) (ss : List Stmt) : t.stmts (s :: ss) = t.stmt s + t.stmts ss := by
  unfold stmts stmt
  rw [Stmt.labelsAll, Stmt.triesAll, List.map_append, List.map_append, List.sum_append,
    List.sum_append]
  omega

@[simp] theorem stmt_block (ss : List Stmt) : t.stmt (.block ss) = t.stmts ss := rfl

@[simp] theorem stmt_label (l : LabelId) : t.stmt (.label l) = t.label l := rfl

@[simp] theorem stmt_tryCatch (id : TryId) (body : List Stmt) (cs : List Catch) :
    t.stmt (.tryCatch id body cs none) = t.tryId id + t.stmts body + t.catches cs := by
  unfold stmt stmts catches
  rw [Stmt.labels, Stmt.tries]
  simp only [List.map_append, List.sum_append, List.map_cons, List.sum_cons]
  omega

@[simp] theorem stmt_tryFinally (id : TryId) (body : List Stmt) (cs : List Catch)
    (cleanup : List Stmt) : t.stmt (.tryCatch id body cs (some cleanup)) =
      t.tryId id + t.stmts body + t.catches cs + t.stmts cleanup := by
  unfold stmt stmts catches
  rw [Stmt.labels, Stmt.tries]
  simp only [List.map_append, List.sum_append, List.map_cons, List.sum_cons]
  omega

@[simp] theorem stmt_tryFault (body fault : List Stmt) :
    t.stmt (.tryFault body fault) = t.stmts body + t.stmts fault := by
  unfold stmt stmts
  rw [Stmt.labels, Stmt.tries]
  simp only [List.map_append, List.sum_append]
  omega

@[simp] theorem catches_nil : t.catches [] = 0 := rfl

@[simp] theorem catches_cons (ty : Option Ty) (caught : Option LocalId) (body : List Stmt)
    (cs : List Catch) : t.catches (.mk ty caught body :: cs) = t.stmts body + t.catches cs := by
  unfold stmts catches
  rw [Catch.labelsAll, Catch.triesAll]
  simp only [List.map_append, List.sum_append]
  omega

theorem stmts_goto (l : LabelId) (rest : List Stmt) : t.stmts (.goto l :: rest) = t.stmts rest :=
  rfl

theorem stmts_labelled (l : LabelId) (value : Expr) (rest : List Stmt) :
    t.stmts (.label l :: .expr value :: rest) = t.label l + t.stmts rest := by
  have skip : t.stmts (.expr value :: rest) = t.stmts rest := rfl
  rw [stmts_cons, stmt_label, skip]

theorem stmts_handler (state : Int) (clause : List Stmt) :
    t.stmts (setState state :: clause ++ [.ret none]) = t.stmts clause := by
  rw [List.cons_append, stmts_cons, stmts_append]
  exact (Nat.zero_add _).trans (Nat.add_zero _)

/-- Weighs one label only. -/
def ofLabel (l : LabelId) : Tally where
  label l' := if l' = l then 1 else 0
  tryId _ := 0
  labels n := if n ≤ l.index then 1 else 0
  tries _ := 0
  drawLabel n := by
    obtain ⟨i⟩ := l
    simp only [LabelId.mk.injEq]
    split <;> split <;> split <;> omega
  drawTry _ := Nat.le_refl _

/-- Weighs one try id only. -/
def ofTry (id : TryId) : Tally where
  label _ := 0
  tryId id' := if id' = id then 1 else 0
  labels _ := 0
  tries n := if n ≤ id.index then 1 else 0
  drawLabel _ := Nat.le_refl _
  drawTry n := by
    obtain ⟨i⟩ := id
    simp only [TryId.mk.injEq]
    split <;> split <;> split <;> omega

theorem sum_map_eq_count {α : Type} [DecidableEq α] (a : α) (as : List α) :
    (as.map fun a' => if a' = a then 1 else 0).sum = as.count a := by
  induction as with
  | nil => rfl
  | cons a' as ih =>
    rw [List.map_cons, List.sum_cons, ih, List.count_cons]
    by_cases same : a' = a
    · simp [same, Nat.add_comm]
    · simp [same]

theorem stmts_ofLabel (l : LabelId) (ss : List Stmt) :
    (ofLabel l).stmts ss = (Stmt.labelsAll ss).count l := by
  have nothing : ((Stmt.triesAll ss).map fun _ => 0).sum = 0 := by simp
  exact (congrArg₂ (· + ·) (sum_map_eq_count l _) nothing).trans (Nat.add_zero _)

theorem stmts_ofTry (id : TryId) (ss : List Stmt) :
    (ofTry id).stmts ss = (Stmt.tryIdsAll ss).count id := by
  have nothing : ((Stmt.labelsAll ss).map fun _ => 0).sum = 0 := by simp
  have tries := sum_map_eq_count id (Stmt.tryIdsAll ss)
  unfold Stmt.tryIdsAll at tries
  rw [List.map_map] at tries
  exact (congrArg₂ (· + ·) nothing tries).trans (Nat.zero_add _)

end Tally

theorem sum_map_modify_le {α : Type} (weight : α → Nat) (f : α → α) (extra : Nat)
    (more : ∀ a, weight (f a) ≤ weight a + extra) (as : List α) (i : Nat) :
    ((as.modify i f).map weight).sum ≤ (as.map weight).sum + extra := by
  induction as generalizing i with
  | nil => simp
  | cons a as ih =>
    cases i with
    | zero =>
      have first := more a
      simp only [List.modify_zero_cons, List.map_cons, List.sum_cons]
      omega
    | succ i =>
      have rest := ih i
      simp only [List.modify_succ_cons, List.map_cons, List.sum_cons]
      omega

theorem sum_map_modify_eq {α : Type} {weight : α → Nat} {f : α → α}
    (same : ∀ a, weight (f a) = weight a) (as : List α) (i : Nat) :
    ((as.modify i f).map weight).sum = (as.map weight).sum := by
  induction as generalizing i with
  | nil => simp
  | cons a as ih =>
    cases i with
    | zero => simp only [List.modify_zero_cons, List.map_cons, List.sum_cons, same]
    | succ i => simp only [List.modify_succ_cons, List.map_cons, List.sum_cons, ih]

theorem sum_map_modify_zero {α : Type} {weight : α → Nat} {f : α → α} {default : α}
    (none : ∀ a, weight (f a) = 0) (nothing : weight default = 0) (as : List α) (i : Nat) :
    ((as.modify i f).map weight).sum + weight (as.getD i default) = (as.map weight).sum := by
  induction as generalizing i with
  | nil => simp [nothing]
  | cons a as ih =>
    cases i with
    | zero =>
      simp only [List.modify_zero_cons, List.map_cons, List.sum_cons, none,
        List.getD_cons_zero]
      omega
    | succ i =>
      have rest := ih i
      simp only [List.modify_succ_cons, List.map_cons, List.sum_cons, List.getD_cons_succ]
      omega

namespace Lowering

open Progress

/-! What lowering draws. -/

variable {source : Source} {position : Position} {p p' : Progress} (t : Tally)

/-- What the proxies of a frame weigh. -/
def proxyWeight (proxies : List (LabelId × LabelId)) : Nat := (proxies.map (t.label ·.2)).sum

/-- What was drawn and is not in the written statements yet, or was not drawn yet. -/
def Progress.weight (p : Progress) : Nat :=
  (p.handlers.map (t.stmts ·.body.root)).sum +
    (p.frames.frames.map (proxyWeight t ·.proxies)).sum +
    t.labels p.ids.labelCount + t.tries p.ids.tryCount

variable {t}

theorem weight_tell (state : Int) (tree : FrameTree) (path : List FrameId) :
    ((tree.tell state path).frames.map (proxyWeight t ·.proxies)).sum =
      (tree.frames.map (proxyWeight t ·.proxies)).sum := by
  induction path generalizing tree with
  | nil => rfl
  | cons child path ih =>
    cases path with
    | nil => rfl
    | cons parent rest =>
      refine (ih _).trans (sum_map_modify_eq ?_ _ _)
      exact fun _ => rfl

theorem weight_addFrameState (tree : FrameTree) (f : FrameId) (state : Int) :
    ((tree.addState f state).frames.map (proxyWeight t ·.proxies)).sum =
      (tree.frames.map (proxyWeight t ·.proxies)).sum := by
  rw [FrameTree.addState_eq]
  exact weight_tell ..

theorem weight_takeProxies (p : Progress) (frame : FrameId) :
    (p.takeProxies frame).weight t + proxyWeight t (p.frames.frame frame).proxies = p.weight t := by
  let weight : Frame → Nat := (proxyWeight t ·.proxies)
  let write : Frame → Frame := fun f => { f with proxies := [] }
  have none : ∀ f, weight (write f) = 0 := fun _ => rfl
  have nothing : weight default = 0 := rfl
  have frames := sum_map_modify_zero none nothing p.frames.frames frame.index
  unfold Progress.weight
  change _ + ((p.frames.frames.modify frame.index write).map weight).sum + _ + _ + weight _ = _
  rw [← frames]
  simp only [Progress.takeProxies]
  change _ + weight (p.frames.frames.getD frame.index default) = _
  omega

theorem weight_withHandler (p : Progress) (index : Nat) (locals : List LocalDecl)
    (code : List Stmt) : (p.withHandler index locals code).weight t ≤ p.weight t + t.stmts code := by
  let write : SynthesizedMethod → SynthesizedMethod := fun m =>
    { m with body := { locals := p.locals, root := code } }
  have more : ∀ m, t.stmts (write m).body.root ≤ t.stmts m.body.root + t.stmts code :=
    fun _ => Nat.le_add_left _ _
  have handlers := sum_map_modify_le (t.stmts ·.body.root) write (t.stmts code) more p.handlers index
  unfold Progress.weight
  change ((p.handlers.modify index write).map _).sum + _ + _ + _ ≤ _
  simp only [Progress.withHandler]
  omega

theorem weight_freshLabel {l : LabelId} (h : freshLabel p = .ok (l, p')) :
    t.label l + p'.weight t ≤ p.weight t := by
  obtain ⟨rfl, -, rfl⟩ := freshLabel_eq_ok h
  have drawn := t.drawLabel p.ids.labelCount
  unfold Progress.weight
  dsimp only
  omega

theorem weight_temp {ty : Ty} {id : LocalId} (h : temp ty p = .ok (id, p')) :
    p'.weight t = p.weight t := by
  obtain ⟨-, rfl⟩ := temp_eq_ok h
  rfl

theorem weight_resultLocal {result : LocalId} (h : resultLocal p = .ok (result, p')) :
    p'.weight t = p.weight t := by
  rcases resultLocal_eq_ok h with ⟨-, rfl⟩ | ⟨-, -, rfl⟩ <;> rfl

theorem weight_addState {frame : FrameId} {state : Int} {resume : LabelId}
    (h : addState frame p = .ok ((state, resume), p')) :
    t.label resume + p'.weight t ≤ p.weight t := by
  obtain ⟨-, rfl, -, rfl⟩ := addState_eq_ok h
  have drawn := t.drawLabel p.ids.labelCount
  unfold Progress.weight
  dsimp only
  rw [weight_addFrameState]
  omega

/-- A proxy waits for the end of its frame. -/
theorem weight_route {frame : FrameId} {target l : LabelId}
    (h : route frame target p = .ok (l, p')) : p'.weight t ≤ p.weight t := by
  rcases route_eq_ok h with ⟨-, -, rfl⟩ | ⟨-, -, rfl⟩ | ⟨-, -, rfl, -, rfl⟩
  · exact Nat.le_refl _
  · exact Nat.le_refl _
  · have drawn := t.drawLabel p.ids.labelCount
    let write : Frame → Frame := fun f =>
      { f with proxies := f.proxies ++ [(target, ⟨p.ids.labelCount⟩)] }
    have more : ∀ f, proxyWeight t (write f).proxies ≤
        proxyWeight t f.proxies + t.label ⟨p.ids.labelCount⟩ := by
      intro f
      simp [write, proxyWeight]
    have frames := sum_map_modify_le (proxyWeight t ·.proxies) write _ more p.frames.frames
      frame.index
    unfold Progress.weight
    change _ + ((p.frames.frames.modify frame.index write).map _).sum + _ + _ ≤ _
    dsimp only
    omega

theorem weight_pushFrame {parent frame : FrameId} {id : TryId} {index : Nat}
    (h : pushFrame source parent id p = .ok ((frame, index), p')) : p'.weight t = p.weight t := by
  obtain ⟨-, -, rfl, rfl⟩ := pushFrame_eq_ok h
  unfold Progress.weight
  dsimp only [FrameTree.push]
  rw [weight_addFrameState]
  simp [proxyWeight]

theorem RoutesCases.weight {frame : FrameId} {cases cases' : List (Int64 × LabelId)}
    (h : RoutesCases frame p cases cases' p') : p'.weight t ≤ p.weight t := by
  induction h with
  | nil => exact Nat.le_refl _
  | cons h rest ih => exact Nat.le_trans ih (weight_route h)

theorem RoutesDefault.weight {frame : FrameId} {default? default' : Option LabelId}
    (h : RoutesDefault frame p default? default' p') : p'.weight t ≤ p.weight t := by
  cases h with
  | none => exact Nat.le_refl _
  | some h => exact weight_route h

theorem ProxiesEnd.weight {parent : FrameId} {handler : SynthMethodId}
    {proxies : List (LabelId × LabelId)} {out : List Stmt}
    (h : ProxiesEnd parent handler p proxies out p') :
    t.stmts out + p'.weight t ≤ proxyWeight t proxies + p.weight t := by
  induction h with
  | nil => exact Nat.le_refl _
  | cons h more ih =>
    have routed := weight_route (t := t) h
    rename_i rest sections
    rw [t.stmts_labelled, t.stmts_goto]
    simp only [proxyWeight, List.map_cons, List.sum_cons] at ih ⊢
    omega

theorem FrameEnds.weight {parent frame : FrameId} {handler : SynthMethodId} {out : List Stmt}
    (h : FrameEnds parent frame handler p out p') : t.stmts out + p'.weight t ≤ p.weight t := by
  have taken := weight_takeProxies (t := t) p frame
  cases h with
  | plain =>
    have nothing : t.stmts [.expr (.callSynthesized handler)] = 0 := rfl
    omega
  | proxies some h more =>
    rename_i p₁ drop sections
    have drawn := weight_freshLabel (t := t) h
    have written := more.weight (t := t)
    rw [List.cons_append, t.stmts_goto, t.stmts_append, t.stmts_labelled, t.stmts_nil]
    omega

mutual

/-- What lowering writes weighs no more than what it is written for and what was drawn. -/
theorem Rewrites.weight {s : Stmt} {out : List Stmt} {position : Position} {p p' : Progress}
    (h : Rewrites source position p s out p') :
    t.stmts out + p'.weight t ≤ t.stmt s + p.weight t := by
  cases h with
  | block h =>
    rw [t.stmts_cons, t.stmts_nil, t.stmt_block, t.stmt_block, Nat.add_zero]
    exact RewritesAll.weight h
  | expr | assign | label | throw | nop | breakOut => exact Nat.le_refl _
  | goto h | condGoto h => exact Nat.add_le_add_left (weight_route h) 0
  | switch hc hd => exact Nat.add_le_add_left (Nat.le_trans hd.weight hc.weight) 0
  | yield h =>
    have drawn := weight_addState (t := t) h
    exact Nat.le_trans drawn (Nat.le_add_left _ _)
  | breakTry inside hr h =>
    have routed := weight_route (t := t) h
    rw [weight_resultLocal hr] at routed
    exact Nat.add_le_add_left routed 0
  | tryCatch plain hb hc =>
    have body := RewritesAll.weight hb
    have catches := RewritesCatches.weight hc
    rw [t.stmts_cons, t.stmts_nil, t.stmt_tryCatch, t.stmt_tryCatch]
    omega
  | tryFinally plain hb hc hf =>
    have body := RewritesAll.weight hb
    have catches := RewritesCatches.weight hc
    have cleanup := RewritesAll.weight hf
    rw [t.stmts_cons, t.stmts_nil, t.stmt_tryFinally, t.stmt_tryFinally]
    omega
  | frame suspends hp hb hl hc =>
    rename_i p₁ p₂ p₃ p₄ id frame index body stmts cleanup clause leave catches
    have pushed := weight_pushFrame (t := t) hp
    have body := RewritesAll.weight hb
    have ended := hl.weight (t := t)
    have clause' := RewritesAll.weight hc
    have moved : Progress.weight t { p₃ with locals := [] } = p₃.weight t := rfl
    have written := weight_withHandler (t := t) p₄ index p₃.locals
      (setState (p₃.frames.frame position.frame).finalizeState :: clause ++ [.ret none])
    rw [t.stmts_handler] at written
    have state : t.stmt (setState (p₁.frames.frame frame).finalizeState) = 0 := rfl
    rw [t.stmts_cons, t.stmts_nil, t.stmt_block, List.cons_append, t.stmts_cons, t.stmts_append,
      t.stmt_tryFinally, state]
    omega
  | tryFault hb hf =>
    have body := RewritesAll.weight hb
    have fault := RewritesAll.weight hf
    rw [t.stmts_cons, t.stmts_nil, t.stmt_tryFault, t.stmt_tryFault]
    omega

theorem RewritesAll.weight {ss out : List Stmt} {position : Position} {p p' : Progress}
    (h : RewritesAll source position p ss out p') :
    t.stmts out + p'.weight t ≤ t.stmts ss + p.weight t := by
  cases h with
  | nil => exact Nat.le_refl _
  | cons hs hss =>
    have first := Rewrites.weight hs
    have rest := RewritesAll.weight hss
    rw [t.stmts_append, t.stmts_cons]
    omega

theorem RewritesCatches.weight {cs out : List Catch} {position : Position} {p p' : Progress}
    (h : RewritesCatches source position p cs out p') :
    t.catches out + p'.weight t ≤ t.catches cs + p.weight t := by
  cases h with
  | nil => exact Nat.le_refl _
  | plain hb hcs =>
    have body := RewritesAll.weight hb
    have rest := RewritesCatches.weight hcs
    rw [t.catches_cons, t.catches_cons]
    omega
  | caught ht hb hcs =>
    have body := RewritesAll.weight hb
    have rest := RewritesCatches.weight hcs
    rw [weight_temp ht] at body
    rw [t.catches_cons, t.catches_cons, t.stmts_cons]
    have copy : ∀ place value, t.stmt (.assign place value) = 0 := fun _ _ => rfl
    rw [copy]
    omega

end

end Lowering

end ManagedCode
