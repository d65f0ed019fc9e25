import Mathlib.Data.List.Forall2
import ManagedCode.Proofs.Coroutine.Drive
import ManagedCode.Proofs.Iterator.HoistEval
import ManagedCode.Proofs.Run.Steps

namespace ManagedCode

/-! A body runs alike over its own locals and over the fields of its machine. -/

/-- The code of an iterator with a number of locals and of parameters. -/
abbrev Vocabulary.ranged (locals params : Nat) : Vocabulary :=
  .iterator (·.index < locals) (·.index < params)

variable {σ : Type} {n m : Nat}

/-- The fields of a machine, after the two of its own, hold the `n` arguments and the `m` locals of
an activation. -/
structure Kept (n m : Nat) (activation : Activation) (u w : World σ) : Prop where
  host : u.host = w.host
  room : w.fields.length = 2 + n + m
  args : activation.args.length = n
  params : ∀ i < n, w.fields[2 + i]? = activation.args[i]?
  locals : ∀ i < m, w.fields[2 + n + i]? = activation.locals.lookup ⟨i⟩

namespace Kept

variable {activation : Activation} {u w : World σ}

theorem onHost (h : Kept n m activation u w) (host : σ) :
    Kept n m activation { u with host } { w with host } :=
  { h with host := rfl }

theorem field_local (h : Kept n m activation u w) {id : LocalId} (own : id.index < m) :
    w.field (id.slot n) = activation.readLocal id := by
  have value := h.locals id.index own
  have room : 2 + n + id.index < w.fields.length := by
    rw [h.room]
    omega
  rw [List.getElem?_eq_getElem room] at value
  unfold World.field Activation.readLocal LocalId.slot
  rw [← value, List.getElem?_eq_getElem room]
  rfl

theorem field_param (h : Kept n m activation u w) {id : ParamId} (own : id.index < n) :
    w.field id.slot = activation.readParam id := by
  have value := h.params id.index own
  have room : id.index < activation.args.length := by
    rw [h.args]
    exact own
  rw [List.getElem?_eq_getElem room] at value
  unfold World.field Activation.readParam ParamId.slot
  rw [value, List.getElem?_eq_getElem room]
  rfl

theorem writeLocal (h : Kept n m activation u w) {id : LocalId} (own : id.index < m)
    (value : Value) :
    Kept n m (activation.writeLocal id value) u
      { w with fields := w.fields.set (id.slot n).index value } where
  host := h.host
  room := by rw [List.length_set, h.room]
  args := h.args
  params i hi := by
    refine Eq.trans (List.getElem?_set_ne ?_) (h.params i hi)
    unfold LocalId.slot
    dsimp only
    omega
  locals i hi := by
    by_cases same : i = id.index
    · subst same
      have room : (id.slot n).index < w.fields.length := by
        unfold LocalId.slot
        rw [h.room]
        dsimp only
        omega
      rw [Activation.lookup_writeLocal_self activation id value]
      exact List.getElem?_set_self room
    · have other : (⟨i⟩ : LocalId) ≠ id := fun h => same (congrArg LocalId.index h)
      rw [Activation.lookup_writeLocal_of_ne activation value other]
      refine Eq.trans (List.getElem?_set_ne ?_) (h.locals i hi)
      unfold LocalId.slot
      dsimp only
      omega

theorem writeParam (h : Kept n m activation u w) {id : ParamId} (own : id.index < n)
    (value : Value) :
    Kept n m { activation with args := activation.args.set id.index value } u
      { w with fields := w.fields.set id.slot.index value } where
  host := h.host
  room := by rw [List.length_set, h.room]
  args := by rw [List.length_set, h.args]
  params i hi := by
    have room : w.fields.length = 2 + n + m := h.room
    have args : activation.args.length = n := h.args
    unfold ParamId.slot
    dsimp only
    rw [List.getElem?_set, List.getElem?_set, h.params i hi]
    simp only [Nat.add_left_cancel_iff]
    split
    · rw [if_pos (by omega), if_pos (by omega)]
    · rfl
  locals i hi := by
    refine Eq.trans (List.getElem?_set_ne ?_) (h.locals i hi)
    unfold ParamId.slot
    dsimp only
    omega

theorem hoistedReads : HoistedReads n (·.index < m) (·.index < n) activation
    (Kept (σ := σ) n m activation) where
  host h := h.host
  onHost h := h.onHost
  locals h own := h.field_local own
  params h own := h.field_param own

end Kept

/-- A configuration of a body, and one over the fields of its machine. -/
def Keeps (n m : Nat) (a b : Config σ) : Prop := Kept n m a.activation a.world b.world

/-- Both ended in the same way. -/
def KeepsAt {α : Type} (n m : Nat) (v : α) (a : Config σ) (w : α) (b : Config σ) : Prop :=
  v = w ∧ Keeps n m a b

namespace Keeps

variable {env : Environment σ} {run run' : List Stmt → Exec σ Flow} {a b : Config σ}

theorem withFuel (h : Keeps n m a b) (f g : Nat) : Keeps n m (a.withFuel f) (b.withFuel g) :=
  { h with }

theorem eval (h : Keeps n m a b) {e : Expr} (own : e.Uses (.ranged m n)) :
    Simulates (env.eval run e) a (env.eval run' (e.hoist n)) b (Keeps n m) (KeepsAt n m) :=
  .onWorld (Kept.hoistedReads.eval e own h) (fun _ _ kept => kept) fun _ _ _ kept => ⟨rfl, kept⟩

theorem evalBool (h : Keeps n m a b) {e : Expr} (own : e.Uses (.ranged m n)) :
    Simulates (env.evalBool run e) a (env.evalBool run' (e.hoist n)) b (Keeps n m)
      (KeepsAt n m) := by
  refine (h.eval own).bind fun v a' w b' _ step => ?_
  obtain ⟨rfl, kept⟩ := step
  cases v with
  | bool v => exact .pure ⟨rfl, kept⟩
  | _ => exact .fails kept

theorem evalInt (h : Keeps n m a b) {e : Expr} (own : e.Uses (.ranged m n)) :
    Simulates (env.evalInt run e) a (env.evalInt run' (e.hoist n)) b (Keeps n m)
      (KeepsAt n m) := by
  refine (h.eval own).bind fun v a' w b' _ step => ?_
  obtain ⟨rfl, kept⟩ := step
  cases v with
  | int v => exact .pure ⟨rfl, kept⟩
  | _ => exact .fails kept

/-- What is written to an activation on one side is written to a field on the other. -/
theorem stores {x : Exec σ Unit} {slot : FieldSlot} {value : Value}
    (activation : Activation) (stored : x a = .ok () { a with activation })
    (room : slot.index < b.world.fields.length)
    (kept : Kept n m activation a.world
      { b.world with fields := b.world.fields.set slot.index value }) :
    Simulates x a (Exec.onWorld fun _ => World.writeField slot value) b (Keeps n m) (KeepsAt n m) := by
  rw [Simulates.of_ok stored]
  refine ⟨Nat.le_refl _, 0, (), { b with world := { b.world with
    fields := b.world.fields.set slot.index value } }, Nat.le_add_left _ _, .of_eq fun f => ?_,
    rfl, kept⟩
  have written : Exec.onWorld (fun _ => World.writeField slot value) (b.withFuel f) =
      reached (.ok ()) { b.withFuel f with world := { (b.withFuel f).world with
        fields := b.world.fields.set slot.index value } } :=
    Exec.onWorld_eq (World.writeField_eq value room)
  exact written

theorem write (h : Keeps n m a b) {place : Place} (own : place.Uses (.ranged m n)) (value : Value) :
    Simulates (env.write run value place) a (env.write run' value (place.hoist n)) b (Keeps n m)
      (KeepsAt n m) := by
  have kept : Kept n m a.activation a.world b.world := h
  have onHost : ∀ {a b : Config σ} (action : EStateM RunError σ Unit), Keeps n m a b →
      Simulates (Exec.onWorld fun _ => World.onHost action) a
        (Exec.onWorld fun _ => World.onHost action) b (Keeps n m) (KeepsAt n m) := by
    intro a b action h
    have kept : Kept n m a.activation a.world b.world := h
    exact .onWorld (.onHost action kept.host kept.onHost) (fun _ _ kept => kept)
      fun _ _ _ kept => ⟨rfl, kept⟩
  cases place with
  | «local» id =>
    have own : id.index < m := own
    refine stores (a.activation.writeLocal id value) rfl ?_ (kept.writeLocal own value)
    unfold LocalId.slot
    rw [kept.room]
    dsimp only
    omega
  | param id =>
    have own : id.index < n := own
    refine stores { a.activation with args := a.activation.args.set id.index value } ?_ ?_
      (kept.writeParam own value)
    · have stored : a.activation.writeParam id value =
          .ok { a.activation with args := a.activation.args.set id.index value } := by
        unfold Activation.writeParam
        rw [if_pos (by rw [kept.args]; exact own)]
      change Exec.setParam id value a = _
      unfold Exec.setParam
      rw [get_bind, stored]
      rfl
    · unfold ParamId.slot
      rw [kept.room]
      dsimp only
      omega
  | machineField slot => exact own.elim
  | field receiver member =>
    cases receiver with
    | none => exact onHost _ h
    | some receiver =>
      refine (h.eval own).bind fun v a' w b' _ step => ?_
      obtain ⟨rfl, h'⟩ := step
      exact onHost _ h'
  | element => exact .fails h

end Keeps

/-! Places. -/

/-- A list of a body and the list that it is hoisted to. A list that handles an exception first
stores it. -/
inductive Scope.Hoists (n m : Nat) : Scope → Scope → Prop
  | mk {ss rest extra : List Stmt} (uses : Stmt.UsesAll (.ranged m n) ss)
    (uses' : Stmt.UsesAll (.ranged m n) rest) (hidden : Stmt.plainLabelsAll extra = []) :
    Hoists n m ⟨Stmt.returningAll ss, Stmt.returningAll rest⟩
      ⟨extra ++ Stmt.hoistAll n ss, Stmt.hoistAll n rest⟩

theorem Scope.hoists {ss rest : List Stmt} (uses : Stmt.UsesAll (.ranged m n) ss)
    (uses' : Stmt.UsesAll (.ranged m n) rest) :
    Scope.Hoists n m ⟨Stmt.returningAll ss, Stmt.returningAll rest⟩
      ⟨Stmt.hoistAll n ss, Stmt.hoistAll n rest⟩ :=
  @Scope.Hoists.mk n m ss rest [] uses uses' rfl

namespace Point

abbrev Hoists (n m : Nat) : Point → Point → Prop := List.Forall₂ (Scope.Hoists n m)

variable {p p' : Point}

theorem hoists_start {ss : List Stmt} (uses : Stmt.UsesAll (.ranged m n) ss) {p p' : Point}
    (h : Hoists n m p p') :
    Hoists n m (⟨Stmt.returningAll ss, Stmt.returningAll ss⟩ :: p)
      (⟨Stmt.hoistAll n ss, Stmt.hoistAll n ss⟩ :: p') :=
  .cons (Scope.hoists uses uses) h

theorem Hoists.next (h : Hoists n m p p') : (p.next? = none ∧ p'.next? = none) ∨
    ∃ (s : Stmt) (after after' : Point), s.Uses (.ranged m n) ∧ p.next? = some (s.returning, after) ∧
      p'.next? = some (s.hoist n, after') ∧ Hoists n m after after' := by
  induction h with
  | nil => exact .inl ⟨rfl, rfl⟩
  | cons hs ht ih =>
    obtain ⟨uses, uses', hidden⟩ := hs
    rename_i ss rest extra
    cases rest with
    | nil => exact ih
    | cons s rest =>
      exact .inr ⟨s, _, _, uses'.1, rfl, rfl, .cons (.mk uses uses'.2 hidden) ht⟩

mutual

/-- A label is found in the hoisted list where it is found in the list. -/
theorem find?_hoist (label : LabelId) (ss extra : List Stmt)
    (uses : Stmt.UsesAll (.ranged m n) ss) (hidden : Stmt.plainLabelsAll extra = [])
    (rest : List Stmt) (uses' : Stmt.UsesAll (.ranged m n) rest) :
    Option.Rel (Hoists n m) (find? label (Stmt.returningAll ss) (Stmt.returningAll rest))
      (find? label (extra ++ Stmt.hoistAll n ss) (Stmt.hoistAll n rest)) := by
  cases rest with
  | nil => exact .none
  | cons s rest =>
    have first := findIn?_hoist label ss extra rest uses hidden uses'.2 s uses'.1
    have later := find?_hoist label ss extra uses hidden rest uses'.2
    rw [Stmt.returningAll, Stmt.hoistAll, find?, find?]
    generalize findIn? label (Stmt.returningAll ss) (Stmt.returningAll rest) s.returning = x at first ⊢
    generalize findIn? label _ (Stmt.hoistAll n rest) (s.hoist n) = y at first ⊢
    cases first with
    | none => exact later
    | some h => exact .some h

theorem findIn?_hoist (label : LabelId) (ss extra rest : List Stmt)
    (uses : Stmt.UsesAll (.ranged m n) ss) (hidden : Stmt.plainLabelsAll extra = [])
    (uses' : Stmt.UsesAll (.ranged m n) rest) (s : Stmt) (own : s.Uses (.ranged m n)) :
    Option.Rel (Hoists n m)
      (findIn? label (Stmt.returningAll ss) (Stmt.returningAll rest) s.returning)
      (findIn? label (extra ++ Stmt.hoistAll n ss) (Stmt.hoistAll n rest) (s.hoist n)) := by
  cases s with
  | label l =>
    change Option.Rel _ (if l = label then _ else _) (if l = label then _ else _)
    have here : Scope.Hoists n m ⟨Stmt.returningAll ss, Stmt.returningAll (.label l :: rest)⟩
        ⟨extra ++ Stmt.hoistAll n ss, Stmt.hoistAll n (.label l :: rest)⟩ :=
      .mk uses ⟨trivial, uses'⟩ hidden
    split
    · exact .some (.cons here .nil)
    · exact .none
  | block stmts =>
    have inner := find?_hoist label stmts [] own rfl stmts own
    rw [List.nil_append] at inner
    change Option.Rel _ ((find? label (Stmt.returningAll stmts) (Stmt.returningAll stmts)).map _)
      ((find? label (Stmt.hoistAll n stmts) (Stmt.hoistAll n stmts)).map _)
    generalize find? label (Stmt.returningAll stmts) (Stmt.returningAll stmts) = x at inner ⊢
    generalize find? label (Stmt.hoistAll n stmts) (Stmt.hoistAll n stmts) = y at inner ⊢
    cases inner with
    | none => exact .none
    | some h => exact .some (List.rel_append h (.cons (.mk uses uses' hidden) .nil))
  | tryCatch id body catches cleanup => cases cleanup <;> exact .none
  | _ => exact .none

end

theorem jump?_hoist (label : LabelId) (h : Hoists n m p p') :
    Option.Rel (Hoists n m) (jump? label p) (jump? label p') := by
  induction h with
  | nil => exact .none
  | cons hs ht ih =>
    obtain ⟨uses, uses', hidden⟩ := hs
    rename_i ss rest extra
    have found := find?_hoist label ss extra uses hidden ss uses
    have skip : find? label (extra ++ Stmt.hoistAll n ss) (extra ++ Stmt.hoistAll n ss) =
        find? label (extra ++ Stmt.hoistAll n ss) (Stmt.hoistAll n ss) :=
      find?_append (by rw [hidden]; exact List.not_mem_nil)
    rw [← skip] at found
    rw [jump?, jump?]
    dsimp only
    generalize find? label (Stmt.returningAll ss) (Stmt.returningAll ss) = x at found ⊢
    generalize find? label (extra ++ Stmt.hoistAll n ss) (extra ++ Stmt.hoistAll n ss) = y at found ⊢
    cases found with
    | none => exact ih
    | some h => exact .some (List.rel_append h ht)

end Point

/-! Runs. -/

/-- Within an amount of fuel, a body runs as the hoisted body does. -/
def HoistsWell (env : Environment σ) (n m fuel : Nat) : Prop :=
  ∀ {p p' : Point} {a b : Config σ}, p.Hoists n m p' → a.fuel ≤ fuel → Keeps n m a b →
    Simulates (env.runs p) a (env.runs p') b (Keeps n m) (KeepsAt n m)

namespace HoistsWell

variable {env : Environment σ} {fuel : Nat} {a b : Config σ}

theorem runAll (well : HoistsWell env n m fuel) {ss : List Stmt}
    (uses : Stmt.UsesAll (.ranged m n) ss) (less : a.fuel ≤ fuel) (kept : Keeps n m a b) :
    Simulates (env.runAll (Stmt.returningAll ss)) a (env.runAll (Stmt.hoistAll n ss)) b (Keeps n m)
      (KeepsAt n m) :=
  well (Point.hoists_start uses .nil) less kept

theorem follow (well : HoistsWell env n m fuel) {after after' : Point}
    (h : after.Hoists n m after') (less : a.fuel ≤ fuel) (kept : Keeps n m a b) (flow : Flow) :
    Simulates (Environment.follow env.runs after flow) a (Environment.follow env.runs after' flow) b
      (Keeps n m) (KeepsAt n m) := by
  cases flow with
  | normal => exact well h less kept
  | goto label =>
    have found := Point.jump?_hoist label h
    simp only [Environment.follow]
    generalize Point.jump? label after = x at found ⊢
    generalize Point.jump? label after' = y at found ⊢
    cases found with
    | none => exact .pure ⟨rfl, kept⟩
    | some h => exact well h less kept
  | _ => exact .pure ⟨rfl, kept⟩

/-- A caught exception is stored in its field before the clause is executed. -/
theorem catching (well : HoistsWell env n m fuel) (still : ∀ s h, env.watch s h = h)
    {caught : LocalId} (own : caught.index < m) {body : List Stmt}
    (uses : Stmt.UsesAll (.ranged m n) body) (less : a.fuel ≤ fuel) (kept : Keeps n m a b)
    (value : Value) :
    Simulates (Exec.setLocal caught value >>= fun _ => env.runAll (Stmt.returningAll body)) a
      (Exec.setLocal caught value >>= fun _ => env.runAll
        (.assign (.machineField (caught.slot n)) (.local caught) :: Stmt.hoistAll n body)) b
      (Keeps n m) (KeepsAt n m) := by
  let store : Stmt := .assign (.machineField (caught.slot n)) (.local caught)
  let code := store :: Stmt.hoistAll n body
  let a₁ : Config σ := { a with activation := a.activation.writeLocal caught value }
  let b₁ : Config σ := { b with activation := b.activation.writeLocal caught value }
  let b₂ : Config σ := { b₁ with
    world := { b.world with fields := b.world.fields.set (caught.slot n).index value } }
  have before : Kept n m a.activation a.world b.world := kept
  have after : Keeps n m a₁ b₂ := before.writeLocal own value
  have room : (caught.slot n).index < b.world.fields.length := by
    unfold LocalId.slot
    rw [before.room]
    dsimp only
    omega
  have stored : (env.execStmt env.runAll store).Ends b₁ 0 .normal b₂ := by
    refine .of_eq fun f => ?_
    have held : env.eval env.runAll (.local caught) (b₁.withFuel f) = .ok value (b₁.withFuel f) :=
      eval_local (Activation.lookup_writeLocal_self b.activation caught value)
    have written : Exec.onWorld (fun _ => World.writeField (caught.slot n) value) (b₁.withFuel f) =
        reached (.ok ()) (b₂.withFuel f) :=
      Exec.onWorld_eq (World.writeField_eq value room)
    exact (bind_of_ok held).trans (bind_of_ok written)
  have reaches : (env.runAll code).Reaches b₁ 1
      (env.runs [⟨[store] ++ Stmt.hoistAll n body, Stmt.hoistAll n body⟩]) b₂ :=
    runs_reaches (p := .start code) rfl nofun (still store) stored
  have both : Simulates (Exec.setLocal caught value) a (Exec.setLocal caught value) b (Keeps n m)
      (fun _ a' _ b' => a' = a₁ ∧ b' = b₁) :=
    .update rfl (fun _ => rfl) ⟨rfl, rfl⟩
  refine both.bind fun _ a' _ b' _ same => ?_
  obtain ⟨rfl, rfl⟩ := same
  exact .ahead reaches (well (.cons (.mk uses uses rfl) .nil) less after)

theorem handle (well : HoistsWell env n m fuel) (still : ∀ s h, env.watch s h = h)
    {catches : List Catch} (uses : Catch.UsesAll (.ranged m n) catches) (less : a.fuel ≤ fuel)
    (kept : Keeps n m a b) (flow : Flow) :
    Simulates (Environment.handle env.runAll (Catch.returningAll catches) flow) a
      (Environment.handle env.runAll (Catch.hoistAll n catches) flow) b (Keeps n m)
      (KeepsAt n m) := by
  cases flow with
  | throw value =>
    cases catches with
    | nil => exact .pure ⟨rfl, kept⟩
    | cons clause rest =>
      obtain ⟨exceptionTy, caught, body⟩ := clause
      cases caught with
      | none => exact well.runAll uses.2.1 less kept
      | some caught => exact well.catching still (uses.1 caught rfl) uses.2.1 less kept value
  | _ => exact .pure ⟨rfl, kept⟩

theorem cleanUp (well : HoistsWell env n m fuel) {ss : List Stmt}
    (uses : Stmt.UsesAll (.ranged m n) ss) (less : a.fuel ≤ fuel) (kept : Keeps n m a b)
    (flow : Flow) :
    Simulates (Environment.cleanUp env.runAll (Stmt.returningAll ss) flow) a
      (Environment.cleanUp env.runAll (Stmt.hoistAll n ss) flow) b (Keeps n m) (KeepsAt n m) := by
  refine (well.runAll uses less kept).bind fun ended a' ended' b' _ step => ?_
  obtain ⟨rfl, kept'⟩ := step
  cases ended <;> exact .pure ⟨rfl, kept'⟩

/-- A statement that is no block is executed as the hoisted statement is. -/
theorem exec (well : HoistsWell env n m fuel) (still : ∀ s h, env.watch s h = h) {s : Stmt}
    (own : s.Uses (.ranged m n)) (plain : ∀ stmts, s ≠ .block stmts) (less : a.fuel ≤ fuel)
    (kept : Keeps n m a b) :
    Simulates (env.execStmt env.runAll s.returning) a (env.execStmt env.runAll (s.hoist n)) b
      (Keeps n m) (KeepsAt n m) := by
  cases s with
  | block stmts => exact absurd rfl (plain stmts)
  | expr value =>
    exact (kept.eval own).bind fun _ _ _ _ _ step => .pure ⟨rfl, step.2⟩
  | assign place value =>
    refine (kept.eval own.2).bind fun v a' w b' _ step => ?_
    obtain ⟨rfl, kept'⟩ := step
    exact (kept'.write own.1 v).bind fun _ _ _ _ _ step => .pure ⟨rfl, step.2⟩
  | label | goto | nop | yieldBreak => exact .pure ⟨rfl, kept⟩
  | condGoto cond jumpIf target =>
    refine (kept.evalBool own).bind fun v a' w b' _ step => ?_
    obtain ⟨rfl, kept'⟩ := step
    exact .pure ⟨rfl, kept'⟩
  | switch scrutinee cases default? =>
    refine (kept.evalInt own).bind fun v a' w b' _ step => ?_
    obtain ⟨rfl, kept'⟩ := step
    exact .pure ⟨rfl, kept'⟩
  | ret value =>
    cases value with
    | none => exact own.elim
    | some value => exact own.1.elim
  | yield value => exact .fails kept
  | tryCatch id body catches cleanup =>
    cases cleanup with
    | none =>
      refine (well.runAll own.1 less kept).bind fun flow a' flow' b' fewer step => ?_
      obtain ⟨rfl, kept'⟩ := step
      refine (well.handle still own.2 (by omega) kept' flow).bind fun flow a' flow' b' _ step => ?_
      exact .pure step
    | some cleanup =>
      refine (well.runAll own.1 less kept).bind fun flow a' flow' b' fewer step => ?_
      obtain ⟨rfl, kept'⟩ := step
      refine (well.handle still own.2.1 (by omega) kept' flow).bind
        fun flow a'' flow' b'' fewer' step => ?_
      obtain ⟨rfl, kept''⟩ := step
      exact well.cleanUp own.2.2 (by omega) kept'' flow
  | tryFault body fault =>
    refine (well.runAll own.1 less kept).bind fun flow a' flow' b' fewer step => ?_
    obtain ⟨rfl, kept'⟩ := step
    cases flow with
    | throw value => exact well.cleanUp own.2 (by omega) kept' (.throw value)
    | _ => exact .pure ⟨rfl, kept'⟩
  | throw value =>
    refine (kept.eval own).bind fun v a' w b' _ step => ?_
    obtain ⟨rfl, kept'⟩ := step
    exact .pure ⟨rfl, kept'⟩

end HoistsWell

theorem Stmt.returning_ne_block {s : Stmt} (plain : ∀ stmts, s ≠ .block stmts) (stmts : List Stmt) :
    s.returning ≠ .block stmts := by
  cases s with
  | block stmts => exact absurd rfl (plain stmts)
  | tryCatch id body catches cleanup => cases cleanup <;> exact nofun
  | _ => exact nofun

theorem Stmt.hoist_ne_block {s : Stmt} (plain : ∀ stmts, s ≠ .block stmts) (stmts : List Stmt) :
    s.hoist n ≠ .block stmts := by
  cases s with
  | block stmts => exact absurd rfl (plain stmts)
  | tryCatch id body catches cleanup => cases cleanup <;> exact nofun
  | _ => exact nofun

/-- Within any amount of fuel, a body runs as the hoisted body does. -/
theorem hoistsWell {env : Environment σ} (still : ∀ s h, env.watch s h = h) (fuel : Nat) :
    HoistsWell env n m fuel := by
  induction fuel using Nat.strongRecOn with
  | ind fuel ih =>
  intro p p' a b h less kept
  -- Whatever runs after a unit of fuel runs with less.
  have shorter : ∀ {k : Nat}, a.fuel = k + 1 → HoistsWell env n m k := fun h => ih _ (by omega)
  rcases h.next with ⟨done, done'⟩ | ⟨s, after, after', own, due, due', h'⟩
  · rw [Environment.runs_done done, Environment.runs_done done']
    exact .pure ⟨rfl, kept⟩
  by_cases isBlock : ∃ inner, s = .block inner
  · obtain ⟨inner, rfl⟩ := isBlock
    have enter : env.runs p = Exec.tick >>= fun _ =>
        env.runs (⟨Stmt.returningAll inner, Stmt.returningAll inner⟩ :: after) := by
      rw [Environment.runs_eq due]
      exact congrArg (Exec.tick >>= ·) (funext fun _ => advance_block (still _))
    have enter' : env.runs p' = Exec.tick >>= fun _ =>
        env.runs (⟨Stmt.hoistAll n inner, Stmt.hoistAll n inner⟩ :: after') := by
      rw [Environment.runs_eq due']
      exact congrArg (Exec.tick >>= ·) (funext fun _ => advance_block (still _))
    rw [enter, enter']
    refine Simulates.tick (k := 0) (Exec.Reaches.tick _ b) fun k hk => ?_
    exact shorter hk (Point.hoists_start own h') (Nat.le_refl k) (kept.withFuel k b.fuel)
  have plain : ∀ stmts, s ≠ .block stmts := fun stmts h => isBlock ⟨stmts, h⟩
  refine simulates_step (KeepsAt n m) due due' (Stmt.returning_ne_block plain)
    (Stmt.hoist_ne_block plain) (still _) (still _) ?_ ?_
  · intro k hk
    have step := HoistsWell.exec (shorter hk) still own plain (a := a.withFuel k) (Nat.le_refl k)
      (kept.withFuel k b.fuel)
    exact step.unwinding fun v _ _ kept => ⟨rfl, kept⟩
  · rintro flow a' _ b' fewer ⟨rfl, kept'⟩
    exact HoistsWell.follow (ih (a.fuel - 1) (by omega)) h' (by omega) kept' flow

end ManagedCode
