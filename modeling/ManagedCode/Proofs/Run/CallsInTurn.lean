import ManagedCode.Proofs.Run.Calls
import ManagedCode.Proofs.Run.Fields
import ManagedCode.Proofs.Run.Steps

namespace ManagedCode

/-! Calls of synthesized methods, one after the other. -/

variable {σ : Type}

/-- Calls a synthesized method. -/
def callOf (method : SynthMethodId) : Stmt := .expr (.callSynthesized method)

/-- How a statement ended if an exception may have been thrown. -/
def Flow.ofThrown (thrown? : Option Value) : Flow := thrown?.elim .normal .throw

namespace Environment

/-- A call, of which the host takes note before the statements of the method are executed. -/
def call (env : Environment σ) (method : SynthMethodId) : Exec σ Flow :=
  Exec.onHost (env.watch (callOf method)) >>= fun _ =>
    (env.execStmt env.runAll (callOf method)).unwinding

/-- Called in the world `w`, a method ends in the world `w'`, with the exception that it threw, if
it threw one. -/
def Calls (env : Environment σ) (method : SynthMethodId) (w : World σ) (thrown? : Option Value)
    (w' : World σ) : Prop :=
  ∀ activation, ∃ k, (env.call method).Ends ⟨activation, w⟩ k (.ofThrown thrown?) ⟨activation, w'⟩

/-- Methods that are called one after the other, each once and whatever the others threw, with the
exception that was thrown last. -/
inductive CallsInTurn (env : Environment σ) :
    List SynthMethodId → World σ → Option Value → World σ → Prop
  | nil {w : World σ} : CallsInTurn env [] w none w
  | cons {method : SynthMethodId} {methods : List SynthMethodId} {w w₁ w' : World σ}
    {thrown? later? : Option Value} (first : env.Calls method w thrown? w₁)
    (rest : CallsInTurn env methods w₁ later? w') :
    CallsInTurn env (method :: methods) w (later?.or thrown?) w'

variable {env : Environment σ} {methods : List SynthMethodId} {method : SynthMethodId}
  {w w' : World σ} {thrown? : Option Value}

/-- What is done where a call is due. -/
theorem Calls.reaches (h : env.Calls method w thrown? w') (list rest : List Stmt) (outer : Point)
    (activation : Activation) :
    ∃ k, (env.runs (⟨list, callOf method :: rest⟩ :: outer)).Reaches ⟨activation, w⟩ k
      (follow env.runs (⟨list, rest⟩ :: outer) (.ofThrown thrown?)) ⟨activation, w'⟩ := by
  obtain ⟨k, ends⟩ := h activation
  have step : env.runs (⟨list, callOf method :: rest⟩ :: outer) = Exec.tick >>= fun _ =>
      env.call method >>= follow env.runs (⟨list, rest⟩ :: outer) := by
    rw [runs_eq rfl]
    rfl
  rw [step]
  exact ⟨_, (Exec.Reaches.tick _ _).trans ends.andThen⟩

theorem Calls.runAll (h : env.Calls method w thrown? w') (activation : Activation) :
    ∃ k, (env.runAll [callOf method]).Ends ⟨activation, w⟩ k (.ofThrown thrown?)
      ⟨activation, w'⟩ := by
  obtain ⟨k, reaches⟩ := h.reaches [callOf method] [] [] activation
  refine ⟨k, ?_⟩
  cases thrown? with
  | some value => exact reaches
  | none =>
    have through : env.runs [⟨[callOf method], []⟩] = pure .normal := runs_done rfl
    have last : (env.runAll [callOf method]).Reaches ⟨activation, w⟩ k
        (env.runs [⟨[callOf method], []⟩]) ⟨activation, w'⟩ := reaches
    rwa [through] at last

/-- A method whose statements come to an end. -/
theorem calls_of_ends {target : SynthesizedMethod}
    (found : env.methods[method.index]? = some target) {k : Nat} {left : Activation} {flow : Flow}
    (ends : (env.runAll target.body.root).Ends
      ⟨{ args := [] }, { w with host := env.watch (callOf method) w.host }⟩ k flow ⟨left, w'⟩)
    (returns : Returns flow (.ofThrown thrown?)) : env.Calls method w thrown? w' := by
  intro activation
  let noted : World σ := { w with host := env.watch (callOf method) w.host }
  have call : (env.execStmt env.runAll (callOf method)).unwinding.Ends ⟨activation, noted⟩ k
      (.ofThrown thrown?) ⟨activation, w'⟩ := by
    refine ⟨fun f => ?_, fun f room => ?_⟩
    · exact call_of_ok (c := Config.withFuel ⟨activation, noted⟩ (k + f)) found (ends.1 f) returns
    · obtain ⟨t, ht⟩ := ends.2 f room
      exact ⟨_, call_of_error (c := Config.withFuel ⟨activation, noted⟩ f) found ht nofun⟩
  have note : (Exec.onHost (env.watch (callOf method))).Ends ⟨activation, w⟩ 0 ()
      ⟨activation, noted⟩ := .of_eq fun f => rfl
  exact ⟨_, note.andThen.trans call⟩

theorem Calls.fieldCount (h : env.Calls method w thrown? w') : w'.fieldCount = w.fieldCount := by
  obtain ⟨k, ends⟩ := h.runAll { args := [] }
  have preserved : Preserves Config.fieldCount (env.runAll [callOf method]) := preserves_runAll _
  have kept := preserved (Config.withFuel ⟨{ args := [] }, w⟩ (k + 0))
  rw [ends.1 0] at kept
  exact kept

theorem CallsInTurn.of_append_singleton (h : env.CallsInTurn (methods ++ [method]) w thrown? w') :
    ∃ before? w₁ last?, env.CallsInTurn methods w before? w₁ ∧ env.Calls method w₁ last? w' ∧
      thrown? = last?.or before? := by
  induction methods generalizing w thrown? with
  | nil =>
    cases h with
    | cons first rest =>
      cases rest
      exact ⟨none, w, _, .nil, first, Option.or_none.symm⟩
  | cons m methods ih =>
    cases h with
    | cons first rest =>
      obtain ⟨before?, w₁, last?, inner, last, rfl⟩ := ih rest
      exact ⟨_, w₁, last?, .cons first inner, last, Option.or_assoc⟩

/-- Where nothing is thrown in the end, the first call threw nothing. -/
theorem CallsInTurn.of_cons (h : env.CallsInTurn (method :: methods) w none w') :
    ∃ w₁, env.Calls method w none w₁ ∧ env.CallsInTurn methods w₁ none w' := by
  generalize normal : (none : Option Value) = ended at h
  cases h with
  | cons first rest =>
    rename_i w₁ thrown? later?
    cases later? with
    | some value => cases normal
    | none =>
      cases thrown? with
      | some value => cases normal
      | none => exact ⟨w₁, first, rest⟩

theorem CallsInTurn.fieldCount (h : env.CallsInTurn methods w thrown? w') :
    w'.fieldCount = w.fieldCount := by
  induction h with
  | nil => rfl
  | cons first rest ih => exact ih.trans first.fieldCount

end Environment

namespace Lowering

open Environment

variable {env : Environment σ}

/-- A body ends, and what must be done after it, and then the statements after the two are due. -/
theorem runs_tryFinally (id : TryId) (whole rest : List Stmt) {body cleanup : List Stmt}
    {c c₁ c₂ : Config σ} {k k₂ : Nat} {flow ended : Flow}
    (still : ∀ host, env.watch (.tryCatch id body [] (some cleanup)) host = host)
    (inner : (env.runAll body).Ends c k flow c₁)
    (clean : (cleanUp env.runAll cleanup flow).Ends c₁ k₂ ended c₂) :
    (env.runs [⟨whole, .tryCatch id body [] (some cleanup) :: rest⟩]).Reaches c (1 + (k + k₂))
      (follow env.runs [⟨whole, rest⟩] ended) c₂ := by
  have tried : ((env.execStmt env.runAll
      (.tryCatch id body [] (some cleanup))).unwinding).Ends c (k + k₂) ended c₂ := by
    rw [execStmt_tryFinally]
    exact inner.andThen.trans clean
  have step : env.runs [⟨whole, .tryCatch id body [] (some cleanup) :: rest⟩] =
      Exec.tick >>= fun _ => (env.execStmt env.runAll
        (.tryCatch id body [] (some cleanup))).unwinding >>= follow env.runs [⟨whole, rest⟩] := by
    rw [runs_eq rfl]
    exact congrArg (Exec.tick >>= ·) (funext fun _ => advance_eq still nofun)
  rw [step]
  exact (Exec.Reaches.tick _ c).trans tried.andThen

end Lowering

end ManagedCode
