import ManagedCode.Proofs.Body.SuspendingTries
import ManagedCode.Proofs.Iterator.Rewrites
import ManagedCode.Proofs.Iterator.Written

namespace ManagedCode

theorem modify_length_append {α : Type} (before after : List α) (a : α) (f : α → α) :
    (before ++ a :: after).modify before.length f = before ++ f a :: after := by
  rw [List.modify_eq_take_drop, List.take_left, List.drop_left]
  rfl

namespace Lowering

/-! Which handlers lowering makes. -/

variable {source : Source} {p p₁ p' : Progress}

/-- Neither a state nor a handler was made. -/
structure Idle (p p' : Progress) : Prop where
  handlers : p'.handlers = p.handlers
  resume : p'.resumeLabels = p.resumeLabels

namespace Idle

theorem refl (p : Progress) : Idle p p := ⟨rfl, rfl⟩

theorem trans (h : Idle p p₁) (h' : Idle p₁ p') : Idle p p' :=
  ⟨h'.handlers.trans h.handlers, h'.resume.trans h.resume⟩

end Idle

theorem idle_freshLabel {l : LabelId} (h : freshLabel p = .ok (l, p')) : Idle p p' := by
  obtain ⟨-, -, rfl⟩ := freshLabel_eq_ok h
  exact ⟨rfl, rfl⟩

theorem idle_temp {ty : Ty} {id : LocalId} (h : temp ty p = .ok (id, p')) : Idle p p' := by
  obtain ⟨-, rfl⟩ := temp_eq_ok h
  exact ⟨rfl, rfl⟩

theorem idle_resultLocal {result : LocalId} (h : resultLocal p = .ok (result, p')) :
    Idle p p' := by
  rcases resultLocal_eq_ok h with ⟨-, rfl⟩ | ⟨-, -, rfl⟩ <;> exact ⟨rfl, rfl⟩

theorem idle_route {frame : FrameId} {target l : LabelId}
    (h : route frame target p = .ok (l, p')) : Idle p p' := by
  rcases route_eq_ok h with ⟨-, -, rfl⟩ | ⟨-, -, rfl⟩ | ⟨-, -, -, -, rfl⟩ <;> exact ⟨rfl, rfl⟩

theorem handlers_addState {frame : FrameId} {state : Int} {resume : LabelId}
    (h : addState frame p = .ok ((state, resume), p')) : p'.handlers = p.handlers := by
  obtain ⟨-, -, -, rfl⟩ := addState_eq_ok h
  rfl

theorem RoutesCases.idle {frame : FrameId} {cases cases' : List (Int64 × LabelId)}
    (h : RoutesCases frame p cases cases' p') : Idle p p' := by
  induction h with
  | nil => exact .refl _
  | cons h rest ih => exact (idle_route h).trans ih

theorem RoutesDefault.idle {frame : FrameId} {default? default' : Option LabelId}
    (h : RoutesDefault frame p default? default' p') : Idle p p' := by
  cases h with
  | none => exact .refl _
  | some h => exact idle_route h

theorem ProxiesEnd.idle {parent : FrameId} {handler : SynthMethodId}
    {proxies : List (LabelId × LabelId)} {out : List Stmt}
    (h : ProxiesEnd parent handler p proxies out p') : Idle p p' := by
  induction h with
  | nil => exact .refl _
  | cons h more ih => exact (idle_route h).trans ih

theorem FrameEnds.idle {parent frame : FrameId} {handler : SynthMethodId} {out : List Stmt}
    (h : FrameEnds parent frame handler p out p') : Idle p p' := by
  have taken : Idle p (p.takeProxies frame) := ⟨rfl, rfl⟩
  cases h with
  | plain => exact taken
  | proxies some h more => exact (taken.trans (idle_freshLabel h)).trans more.idle

/-- Lowering made a handler for each of some try statements. -/
def Houses (R : SuspendingTry → SynthesizedMethod → Prop) (tries : List SuspendingTry)
    (p p' : Progress) : Prop :=
  ∃ made, p'.handlers = p.handlers ++ made ∧ List.Forall₂ R tries made

namespace Houses

variable {R : SuspendingTry → SynthesizedMethod → Prop} {tries tries' : List SuspendingTry}

theorem same (h : p'.handlers = p.handlers) : Houses R [] p p' :=
  ⟨[], by rw [h, List.append_nil], .nil⟩

theorem eq_of_nil (h : Houses R [] p p') : p'.handlers = p.handlers := by
  obtain ⟨made, split, nothing⟩ := h
  cases nothing
  exact split.trans (List.append_nil _)

theorem length (h : Houses R tries p p') :
    p'.handlers.length = p.handlers.length + tries.length := by
  obtain ⟨made, split, each⟩ := h
  rw [split, List.length_append, each.length_eq]

theorem trans (h : Houses R tries p p₁) (h' : Houses R tries' p₁ p') :
    Houses R (tries ++ tries') p p' := by
  obtain ⟨made, split, each⟩ := h
  obtain ⟨made', split', each'⟩ := h'
  exact ⟨made ++ made', by rw [split', split, List.append_assoc], List.rel_append each each'⟩

/-- The handler of a frame stands before those that are made inside it, and gets its code after
them. -/
theorem frame {parent frame : FrameId} {id : TryId} {index : Nat} {p₂ p₃ : Progress}
    (hp : pushFrame source parent id p = .ok ((frame, index), p₁)) (body : Houses R tries p₁ p₂)
    (same : p₃.handlers = p₂.handlers) (locals : List LocalDecl) {code : List Stmt}
    {try_ : SuspendingTry}
    (written : ∀ name, R try_
      { name, kind := .handler (frameState p.handlers.length), ret := .void,
        body := { locals := p₃.locals, root := code } }) :
    Houses R (try_ :: tries) p (p₃.withHandler index locals code) := by
  obtain ⟨made, split, inside⟩ := body
  obtain ⟨-, -, rfl, rfl⟩ := pushFrame_eq_ok hp
  have placed : (p₃.withHandler p.handlers.length locals code).handlers = _ :=
    congrArg (List.modify · p.handlers.length _) (same.trans (split.trans (List.append_assoc ..)))
  exact ⟨_, placed.trans (modify_length_append ..), .cons (written _) inside⟩

end Houses

end Lowering

end ManagedCode
