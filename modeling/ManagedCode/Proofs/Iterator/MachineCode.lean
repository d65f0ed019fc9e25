import ManagedCode.Proofs.Iterator.Assembly
import ManagedCode.Proofs.Iterator.KeptCode
import ManagedCode.Proofs.Metadata.ReservedSet
import ManagedCode.Proofs.Metadata.VisitOrder

namespace ManagedCode

/-! What becomes of the code of an iterator in its machine. -/

/-- The nodes of all methods of a machine. -/
def StateMachine.nodes (machine : StateMachine) : List Node :=
  machine.methods.flatMap (·.body.nodes)

/-- What is kept of each of some finally clauses is kept of them all. -/
theorem Node.Keeps.handlers {n : Nat} {tries : List SuspendingTry}
    {handlers : List SynthesizedMethod}
    (h : List.Forall₂ (Lowering.HoldsCleanup n) tries handlers) :
    Node.Keeps n (tries.flatMap fun try_ => Stmt.nodesAll try_.cleanup)
      (handlers.flatMap (·.body.nodes)) := by
  induction h with
  | nil => exact .own bookkeeping_nil
  | cons first _ ih => exact first.append ih

namespace Dispose

variable {frames : FrameTree} {handler : Nat → SynthMethodId} {cached : LocalId}

theorem bookkeeping_guarded {inner : List Stmt} (h : Bookkeeping (Stmt.nodesAll inner))
    (number : TryId) (method : SynthMethodId) : Bookkeeping
      (Stmt.tryCatch number inner [] (some [.expr (.callSynthesized method)])).nodes := by
  refine bookkeeping_cons.mpr ⟨nofun, bookkeeping_cons.mpr ⟨nofun, ?_⟩⟩
  simpa [Stmt.nodesAll, Catch.nodesAll] using h

mutual

theorem Due.bookkeeping {f : FrameId} {ids ids' : FreshIds} {out : List Stmt}
    (h : Due frames handler cached f ids out ids') : Bookkeeping (Stmt.nodesAll out) := by
  match h with
  | .nothing _ => exact bookkeeping_nil
  | .children _ all =>
    have sections := DueBelow.bookkeeping all
    have switch : ∀ cases, Bookkeeping (Stmt.switch (.local cached) cases none).nodes :=
      fun _ => bookkeeping_cons.mpr ⟨nofun, bookkeeping_local cached⟩
    simpa [Stmt.nodesAll, Stmt.nodesAll_append, switch] using sections

theorem DueBelow.bookkeeping {children : List (FrameId × List Int)} {done : LabelId}
    {ids ids' : FreshIds} {cases : List (Int64 × LabelId)} {sections : List Stmt}
    (h : DueBelow frames handler cached children done ids cases sections ids') :
    Bookkeeping (Stmt.nodesAll sections) := by
  match h with
  | .nil => exact bookkeeping_nil
  | .cons _ hi _ more =>
    have later := DueBelow.bookkeeping more
    simpa [Stmt.nodesAll, bookkeeping_guarded (Due.bookkeeping hi)] using later

end

end Dispose

namespace Lowering

theorem bookkeeping_prologue (resumeLabels : List LabelId) (start : LabelId) :
    Bookkeeping (Stmt.nodesAll (prologue resumeLabels start)) := by
  have cached : Bookkeeping
      (Stmt.assign (.local ⟨0⟩) (.machineField stateField)).nodes :=
    bookkeeping_setLocal _ rfl bookkeeping_state
  have switch : ∀ cases, Bookkeeping (Stmt.switch (.local ⟨0⟩) cases none).nodes :=
    fun _ => bookkeeping_cons.mpr ⟨nofun, bookkeeping_local _⟩
  simp [prologue, Stmt.nodesAll, cached, switch]

theorem bookkeeping_epilogue (exit : LabelId) (result? : Option LocalId) :
    Bookkeeping (Stmt.nodesAll (clearAnswer result? ++ epilogue exit result?)) := by
  cases result? <;> simp [clearAnswer, epilogue, answer, Stmt.nodesAll]

theorem keeps_stepRoot {n : Nat} {old : List Node} {rewritten : List Stmt}
    (h : Node.Keeps n old (Stmt.nodesAll rewritten)) (hasFrames : Bool) (exit start : LabelId)
    (progress : Progress) :
    Node.Keeps n old
      (Stmt.nodesAll (stepRoot hasFrames (stepStmts exit start progress rewritten))) := by
  have stmts : Node.Keeps n old (Stmt.nodesAll (stepStmts exit start progress rewritten)) := by
    unfold stepStmts
    rw [List.append_assoc, Stmt.nodesAll_append, Stmt.nodesAll_append]
    exact ((Node.Keeps.own (bookkeeping_prologue progress.resumeLabels start)).append h).followed
      (bookkeeping_epilogue exit progress.result?)
  unfold stepRoot
  split
  next =>
    rw [Stmt.nodesAll, Stmt.nodesAll, List.append_nil]
    refine .lead nofun (stmts.followed ?_)
    simp [Stmt.nodesAll]
  next => exact stmts

theorem bookkeeping_disposeRoot {dispatch : List Stmt} (h : Bookkeeping (Stmt.nodesAll dispatch)) :
    Bookkeeping (Stmt.nodesAll (disposeRoot dispatch)) := by
  have cached : Bookkeeping
      (Stmt.assign (.local ⟨0⟩) (.machineField stateField)).nodes :=
    bookkeeping_setLocal _ rfl bookkeeping_state
  simpa [disposeRoot, Stmt.nodesAll, Stmt.nodesAll_append, cached] using h

namespace Composition

variable {iterator : IteratorMethod} {machine : StateMachine} (c : Composition iterator machine)
include c

theorem moves : Moves iterator.body.params.length iterator.body.suspendingTries
    (Stmt.nodesAll (Stmt.withoutCleanupsAll iterator.body.root)) (Stmt.nodesAll c.rewritten)
    (.begun iterator.body) c.progress :=
  RewritesAll.moves c.rewrites c.known none

theorem keeps_step : Node.Keeps iterator.body.params.length
    (Stmt.nodesAll (Stmt.withoutCleanupsAll iterator.body.root)) machine.step.body.nodes := by
  unfold Body.nodes
  rw [c.step_root]
  exact keeps_stepRoot c.moves.keeps _ _ _ _

theorem bookkeeping_dispose : Bookkeeping machine.dispose.body.nodes := by
  unfold Body.nodes
  rw [c.dispose_root]
  exact bookkeeping_disposeRoot c.due.bookkeeping

/-- One handler for each try statement that suspends, with the code of its finally clause. -/
theorem keeps_handlers : List.Forall₂ (HoldsCleanup iterator.body.params.length)
    iterator.body.suspendingTries machine.handlers := by
  obtain ⟨made, split, kept⟩ := c.moves.houses
  have same : c.progress.handlers = made := split
  rw [c.handlers, same]
  exact List.forall₂_map_right_iff.mpr kept

/-- A machine has the code of its iterator. -/
theorem keeps : Node.Keeps iterator.body.params.length iterator.body.nodes machine.nodes := by
  have bookkeeping : Node.Keeps iterator.body.params.length [] machine.dispose.body.nodes :=
    .own c.bookkeeping_dispose
  obtain ⟨extra, own, same⟩ :=
    c.keeps_step.append (bookkeeping.append (.handlers c.keeps_handlers))
  have source : Node.code iterator.body.nodes = _ :=
    Stmt.codeAll_eq iterator.body.root c.known.suspendable none
  refine ⟨extra, own, ?_⟩
  rw [StateMachine.nodes, c.methods, List.flatMap_cons, List.flatMap_cons, same, source,
    Node.code_append, List.nil_append, Node.code_flatMap]
  rfl

end Composition

end Lowering

/-! Visiting code that is moved. -/

namespace Target

variable {target : Target}

theorem visitNode_hoist (n : Nat) (node : Node) :
    target.visitNode (node.hoist n) = target.visitNode node := by
  cases node with
  | stmt s =>
    cases s with
    | assign place value =>
      cases place with
      | field receiver f => cases receiver <;> rfl
      | _ => rfl
    | tryCatch id body catches finally? => cases finally? <;> rfl
    | _ => rfl
  | tryCatch | catch_ => rfl
  | expr e =>
    cases e with
    | call callee receiver args => cases callee <;> cases receiver <;> rfl
    | field receiver f => cases receiver <;> rfl
    | addressOf place =>
      cases place with
      | field receiver f => cases receiver <;> rfl
      | _ => rfl
    | _ => rfl
  | place p =>
    cases p with
    | field receiver f => cases receiver <;> rfl
    | _ => rfl

/-- Statements that say in which order others are run name nothing. -/
theorem visitNode_of_order {node : Node} (order : node.isCode = false) :
    target.visitNode node = pure () := by
  cases node with
  | stmt s =>
    cases s with
    | assign => cases order
    | _ => rfl
  | tryCatch => rfl
  | _ => cases order

theorem visitNode_of_bookkeeping {node : Node} (own : node.IsBookkeeping) :
    target.visitNode node = pure () := by
  cases node with
  | stmt s =>
    cases s with
    | assign place value =>
      cases place with
      | field | element => cases own
      | _ => rfl
    | _ => rfl
  | expr e =>
    cases e with
    | call callee receiver args =>
      cases callee with
      | method => cases own
      | synthesized => rfl
    | field | newArray | element | addressOf | typeToken => cases own
    | _ => rfl
  | place p =>
    cases p with
    | field => cases own
    | _ => rfl
  | _ => cases own

end Target

namespace Node.Keeps

variable {n : Nat} {old new : List Node} {target : Target}

theorem covers (h : Keeps n old new) (target : Target) : target.Covers old new := by
  obtain ⟨extra, own, same⟩ := h
  intro node' mem'
  cases code : node'.isCode with
  | false => exact .inl (Target.visitNode_of_order code)
  | true =>
    have among := Node.mem_code.mpr ⟨mem', code⟩
    rw [same] at among
    rcases Multiset.mem_add.mp among with among | among
    · obtain ⟨node, mem, rfl⟩ := Multiset.mem_map.mp among
      exact .inr ⟨node, (Node.mem_code.mp mem).1, Target.visitNode_hoist n node⟩
    · exact .inl (Target.visitNode_of_bookkeeping (own node' among))

end Node.Keeps

namespace StateMachine

/-- Walks the statements of all methods. -/
def walk (machine : StateMachine) (target : Target) : Emit Unit :=
  machine.methods.forM fun m => target.walkStmts m.body.root

end StateMachine

end ManagedCode
