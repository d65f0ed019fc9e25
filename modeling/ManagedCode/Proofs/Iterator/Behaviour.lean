import ManagedCode.Proofs.Iterator.Calls
import ManagedCode.Proofs.Iterator.HoistDrive

namespace ManagedCode

/-! What a client sees of a machine is what it would see of the body itself. -/

variable {σ : Type} {iterator : IteratorMethod} {machine : StateMachine}

/-- A machine that has been created holds its arguments; all else is unit. -/
theorem Instance.fields_create (fields : machine.fields = machineFields iterator)
    (args : List Value) (host : σ) :
    (create machine args host).fields = stateValue initialState :: .unit ::
      ((List.range iterator.body.params.length).map (args.getD · .unit) ++
        List.replicate iterator.body.locals.length .unit) := by
  unfold create
  rw [fields]
  simp only [machineFields, List.cons_append, List.map_cons, List.map_append]
  refine congrArg (_ :: _ :: ·) (congrArg₂ _ ?_ ?_)
  · refine List.ext_getElem (by simp) fun i _ _ => ?_
    simp
  · refine List.ext_getElem (by simp) fun i _ _ => ?_
    simp

namespace Coroutine

/-- The body of an iterator before its first step. Its locals hold unit. -/
def Live.begun (body : Body) (args : List Value) (host : σ) : Live σ where
  activation :=
    { args
      locals := ((List.range body.locals.length).map LocalId.mk).map fun id => (id, .unit) }
  host

/-- The body of an iterator itself, as a coroutine. -/
def performBody (body : Body) (host : Host σ) : Performs (Live σ) :=
  perform { host } {} (Stmt.returningAll body.root)

/-- A new machine holds what its body begins with. -/
theorem kept_begun (fields : machine.fields = machineFields iterator) {args : List Value}
    (complete : args.length = iterator.body.params.length) (host : σ) :
    Kept iterator.body.params.length iterator.body.locals.length
      (Live.begun iterator.body args host).activation (Live.begun iterator.body args host).world
      (Instance.create machine args host).world where
  host := rfl
  room := by
    change (Instance.create machine args host).fields.length = _
    rw [Instance.fields_create fields]
    simp
    omega
  args := complete
  params i hi := by
    change (Instance.create machine args host).fields[2 + i]? = args[i]?
    rw [Instance.fields_create fields, Nat.add_comm 2 i, List.getElem?_cons_succ,
      List.getElem?_cons_succ, List.getElem?_append_left (by simpa using hi)]
    simp [hi, complete]
  locals i hi := by
    have mem : (⟨i⟩ : LocalId) ∈ (List.range iterator.body.locals.length).map LocalId.mk :=
      List.mem_map_of_mem (List.mem_range.mpr hi)
    have found : (Live.begun iterator.body args host).activation.locals.lookup ⟨i⟩ = some .unit :=
      List.lookup_graph (fun _ => Value.unit) mem
    change (Instance.create machine args host).fields[_]? = _
    rw [found, Instance.fields_create fields, Nat.add_assoc, Nat.add_comm 2,
      List.getElem?_cons_succ, List.getElem?_cons_succ, List.getElem?_append_right (by simp)]
    simp [hi]

end Coroutine

namespace Lowering

open Coroutine

variable (assembly : Assembly iterator machine)

/-- A machine on a host that takes note of nothing. -/
theorem Assembly.unwatched (host : Host σ) :
    assembly.Setting {} { host } (Instance.environment machine host fun _ h => h) where
  hosted := ⟨rfl, fun _ _ => rfl, fun _ _ _ => rfl⟩
  methods := rfl
  entered _ _ _ _ _ := rfl
  leaving _ _ _ := rfl

/-- The hoisted body over the fields of a new machine. -/
def hoistedLive (machine : StateMachine) (args : List Value) (host : σ) : Live σ where
  activation := { args := [] }
  fields := (Instance.create machine args host).fields
  host

theorem linked_create (args : List Value) (host : σ) :
    assembly.Linked (hoistedLive machine args host) (Instance.create machine args host) := by
  have fields := Instance.fields_create assembly.fields args host
  have alike : Alike (some (stateValue initialState)) (some .unit)
      (hoistedLive machine args host).world (Instance.create machine args host).world :=
    { host := rfl
      length := rfl
      wide := ?_
      same := fun _ _ => rfl
      state := ?_
      current := ?_ }
  · exact .fresh rfl alike
  · change 2 ≤ (Instance.create machine args host).fields.length
    rw [fields]
    exact Nat.le_add_left 2 _
  · change (Instance.create machine args host).fields[0]? = _
    rw [fields]
    rfl
  · change (Instance.create machine args host).fields[1]? = _
    rw [fields]
    rfl

end Lowering

open Lowering Coroutine in
/-- Lowering preserves behaviour: whatever the calls, a client that drives the machine of an iterator
sees what it would see of the body itself, and so does the host, which may well write down all that
it is asked. -/
theorem lowering_preserves_behaviour {symbols : Symbols} {options : LoweringOptions}
    (regular : iterator.body.Regular)
    (inRange : Stmt.UsesAll (.ranged iterator.body.locals.length iterator.body.params.length)
      iterator.body.root)
    (lowered : lowerIterator symbols options iterator = .ok machine) (host : Host σ) (start : σ)
    {args : List Value} (complete : args.length = iterator.body.params.length) :
    Indistinguishable (performBody iterator.body host) (.begun iterator.body args start)
      (Instance.perform machine host) (.create machine args start)
      fun live inst => live.host = inst.host := by
  obtain ⟨assembly⟩ := nonempty_assembly regular lowered
  have still : ∀ s h, Environment.watch { host } s h = h := fun _ _ => rfl
  have hoists : Bisimilar (performBody iterator.body host) _ _ _ := bisimilar_hoist still inRange
  have lowers := bisimilar_hoisted (assembly.unwatched host)
  have both : Indistinguishable (performBody iterator.body host) (.begun iterator.body args start)
      (Instance.perform machine host) (.create machine args start) _ :=
    (hoists.trans lowers).indistinguishable
      ⟨hoistedLive machine args start, ⟨.fresh, kept_begun assembly.fields complete start⟩,
        linked_create assembly args start⟩
  refine both.mono ?_
  rintro live inst ⟨middle, same, same'⟩
  exact same.trans same'

/-- `try { x := n; yield x; yield break } finally { closed() }` -/
def sampleIterator : IteratorMethod where
  method := default
  elementTy := .int32
  body :=
    { params := [{ name := some "n", ty := .int32 }]
      locals := [{ name := some "x", ty := .int32 }]
      root := [.tryCatch ⟨0⟩
        [.assign (.local ⟨0⟩) (.param ⟨0⟩), .yield (.local ⟨0⟩), .yieldBreak] []
        (some [.expr (.call (.method default) none [])])]
      tryCount := 1 }

theorem inRange_sampleIterator : Stmt.UsesAll (.ranged 1 1) sampleIterator.body.root := by
  simp [sampleIterator, Stmt.UsesAll, Stmt.Uses, Catch.UsesAll, Place.Uses, Expr.Uses, Expr.UsesAll,
    Vocabulary.iterator]

theorem regular_sampleIterator : sampleIterator.body.Regular where
  uses := by
    simp [sampleIterator, Stmt.UsesAll, Stmt.Uses, Catch.UsesAll, Place.Uses, Expr.Uses,
      Expr.UsesAll, Vocabulary.iterator]
  labels := by decide
  labelCount := by decide
  tries := by decide
  tryCount := by decide
  tryLimit := by decide
  jumps := by decide
  contained := by
    simp [sampleIterator, Stmt.ContainedAll, Stmt.Contained, Catch.ContainedAll, Stmt.escapesAll,
      Stmt.targets, Stmt.escapes, unresolved]

theorem exists_machine_sampleIterator :
    ∃ machine, lowerIterator .oneMethod {} sampleIterator = .ok machine :=
  exists_eq_ok (by decide +kernel)

open Coroutine in
theorem lowering_preserves_behaviour_sample : ∃ machine,
    lowerIterator .oneMethod {} sampleIterator = .ok machine ∧
      Indistinguishable (performBody sampleIterator.body Script.host)
        (.begun sampleIterator.body [.int 7] {}) (Instance.perform machine Script.host)
        (.create machine [.int 7] {}) fun live inst => live.host = inst.host := by
  obtain ⟨machine, lowered⟩ := exists_machine_sampleIterator
  exact ⟨machine, lowered, lowering_preserves_behaviour regular_sampleIterator
    inRange_sampleIterator lowered Script.host {} rfl⟩

end ManagedCode
