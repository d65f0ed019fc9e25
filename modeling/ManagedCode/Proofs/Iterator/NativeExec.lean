import ManagedCode.Proofs.Iterator.Aligned
import ManagedCode.Proofs.Run.Mirror
import ManagedCode.Proofs.Run.Steps

namespace ManagedCode

/-- The frame that a statement of a machine enters. -/
def Stmt.entered? : Stmt → Option Nat
  | .block (.assign (.machineField slot) (.const (.int value)) :: _) =>
    if slot = stateField ∧ value.toInt ≤ firstFinalizeState then
      some (firstFinalizeState - value.toInt).toNat
    else none
  | _ => none

/-- The frame whose handler a statement of a machine calls. -/
def Stmt.handled? : Stmt → Option Nat
  | .expr (.call (.synthesized method) none []) =>
    if 2 ≤ method.index then some (method.index - 2) else none
  | _ => none

/-- A statement that neither enters a frame nor calls a handler. -/
def Stmt.Quiet (s : Stmt) : Prop := s.entered? = none ∧ s.handled? = none

variable {σ : Type}

/-- The environment of a body and that of its machine: the same host, which takes note only of the
entries of frames and the calls of handlers. -/
structure Hosted (E M : Environment σ) : Prop where
  host : E.host = M.host
  still : ∀ s h, E.watch s h = h
  quiet : ∀ s, s.Quiet → ∀ h, M.watch s h = h

/-- Worlds that differ in the machine's own two fields only, of which the second has the given
values. -/
structure Alike (state current : Option Value) (u w : World σ) : Prop where
  host : u.host = w.host
  length : u.fields.length = w.fields.length
  wide : 2 ≤ w.fields.length
  same : ∀ i, 2 ≤ i → u.fields[i]? = w.fields[i]?
  state : w.fields[0]? = state
  current : w.fields[1]? = current

namespace Alike

variable {state current : Option Value} {u w : World σ}

theorem refl {fuel : Nat} (wide : 2 ≤ w.fields.length) :
    Alike w.fields[0]? w.fields[1]? { w with fuel } w where
  host := rfl
  length := rfl
  wide := wide
  same _ _ := rfl
  state := rfl
  current := rfl

theorem onHost (h : Alike state current u w) (host : σ) :
    Alike state current { u with host } { w with host } :=
  { h with host := rfl }

theorem readField (h : Alike state current u w) {slot : FieldSlot} (own : 2 ≤ slot.index) :
    Mirrors (Alike state current) (World.readField slot) u (World.readField slot) w := by
  have same : u.field slot = w.field slot := by
    unfold World.field
    rw [h.same slot.index own]
  refine ⟨w.field slot, u, w, h, rfl, ?_, fun f => World.readField_eq slot (w.withFuel f)⟩
  rw [World.readField_eq, same]

theorem writeField (h : Alike state current u w) {slot : FieldSlot} (own : 2 ≤ slot.index)
    (value : Value) :
    Mirrors (Alike state current) (World.writeField slot value) u
      (World.writeField slot value) w := by
  by_cases room : slot.index < w.fields.length
  · refine ⟨.ok (), { u with fields := u.fields.set slot.index value },
      { w with fields := w.fields.set slot.index value }, ?_, rfl,
      World.writeField_eq value (h.length ▸ room), fun f =>
      World.writeField_eq (w := w.withFuel f) value room⟩
    exact
      { host := h.host
        length := by simp only [List.length_set, h.length]
        wide := by simp only [List.length_set]; exact h.wide
        same := fun i hi => by simp only [List.getElem?_set, h.same i hi, h.length]
        state := by
          rw [← h.state]
          exact List.getElem?_set_ne (by omega)
        current := by
          rw [← h.current]
          exact List.getElem?_set_ne (by omega) }
  · refine ⟨.error (.unsupported (.machineField slot)), u, w, h, rfl,
      World.writeField_eq_error value (h.length ▸ room), fun f =>
      World.writeField_eq_error (w := w.withFuel f) value room⟩

variable {host : Host σ} {activation activation' : Activation}
  {invoke invoke' : SynthMethodId → List Value → EStateM RunError (World σ) Value}

mutual

/-- An expression over the hoisted fields has the same value in both worlds. -/
theorem eval (e : Expr) (own : e.InFields) {u w : World σ} (h : Alike state current u w) :
    Mirrors (Alike state current) (e.eval host invoke activation) u
      (e.eval host invoke' activation') w := by
  cases e with
  | const value => exact .pure _ h
  | «local» id => exact own.elim
  | param id => exact own.elim
  | machineField slot => exact h.readField own
  | field receiver member =>
    cases receiver with
    | none => exact .onHost _ h.host h.onHost
    | some receiver =>
      exact (eval receiver own h).bind fun _ _ _ h => .onHost _ h.host h.onHost
  | call callee receiver args =>
    cases callee with
    | method member =>
      cases receiver with
      | none => exact (evalAll args own h).bind fun _ _ _ h => .onHost _ h.host h.onHost
      | some receiver =>
        exact (eval receiver own.1 h).bind fun _ _ _ h =>
          (evalAll args own.2 h).bind fun _ _ _ h => .onHost _ h.host h.onHost
    | synthesized method => cases receiver <;> exact own.elim
  | binary op lhs rhs =>
    exact (eval lhs own.1 h).bind fun _ _ _ h => (eval rhs own.2 h).bind fun _ _ _ h =>
      .outcome _ h
  | unary op operand => exact (eval operand own h).bind fun _ _ _ h => .outcome _ h
  | element | addressOf | newArray | typeToken => exact .fails _ h

theorem evalAll (es : List Expr) (own : Expr.AllInFields es) {u w : World σ}
    (h : Alike state current u w) :
    Mirrors (Alike state current) (Expr.evalAll host invoke activation es) u
      (Expr.evalAll host invoke' activation' es) w := by
  cases es with
  | nil => exact .pure _ h
  | cons e es =>
    exact (eval e own.1 h).bind fun _ _ _ h => (evalAll es own.2 h).bind fun _ _ _ h => .pure _ h

end

end Alike

namespace Lowering

variable {plan : Plan} {site : Site}

/-- The local that holds the answer of a step says that there is no element. -/
def Answers (result : Option LocalId) (b : Config σ) : Prop :=
  ∀ r, result = some r → b.activation.locals.lookup r = some (.bool false)

/-- Configurations of a body and of its machine that differ only in what the code of the body does
not see. Once there is an answer (`answered`), it stays. -/
structure Near (result : Option LocalId) (answered : Prop) (state current : Option Value)
    (a b : Config σ) : Prop where
  alike : Alike state current a.world b.world
  answers : answered → Answers result b

/-- How written statements end when those of the body end with a flow, where `fin` stands for the
end of the list. -/
inductive Follows (plan : Plan) (site : Site) (fin : Flow) : Flow → Flow → Config σ → Prop
  | normal {b : Config σ} : Follows plan site fin .normal fin b
  | goto {b : Config σ} {l l' : LabelId} (h : site.Routed l l') :
    Follows plan site fin (.goto l) (.goto l') b
  | ret {b : Config σ} {l : LabelId} (h : site.Routed plan.exit l) (answered : site.result.isSome)
    (answers : Answers site.result b) : Follows plan site fin (.ret .unit) (.goto l) b
  | throw {b : Config σ} (value : Value) : Follows plan site fin (.throw value) (.throw value) b

/-- What holds when both have ended: the jumps that lead out go to one of `targets`. -/
structure Ended (plan : Plan) (site : Site) (fin : Flow) (targets : List LabelId)
    (answered : Prop) (state current : Option Value) (flow : Flow) (a : Config σ) (flow' : Flow)
    (b : Config σ) : Prop where
  near : Near site.result answered state current a b
  follows : Follows plan site fin flow flow' b
  targets : ∀ l, flow = .goto l → l ∈ targets

variable {E M : Environment σ} {result : Option LocalId} {answered : Prop}
  {state current : Option Value} {a b : Config σ}

theorem Near.withFuel (h : Near result answered state current a b) (f g : Nat) :
    Near result answered state current (a.withFuel f) (b.withFuel g) :=
  ⟨{ h.alike with }, h.answers⟩

theorem Near.eval (hosted : Hosted E M) {e : Expr} (own : e.InFields)
    (h : Near result answered state current a b) (run run' : List Stmt → Exec σ Flow) :
    Simulates (E.eval run e) a (M.eval run' e) b (Near result answered state current)
      (fun v a' w b' => v = w ∧ Near result answered state current a' b') := by
  unfold Environment.eval
  rw [hosted.host]
  refine .onWorld (Alike.eval e own h.alike) ?_ ?_
  · exact fun u w alike => ⟨alike, h.answers⟩
  · exact fun v u w alike => ⟨rfl, alike, h.answers⟩

theorem Near.write (hosted : Hosted E M) {place : Place} (own : place.InFields) (value : Value)
    (h : Near result answered state current a b) (run run' : List Stmt → Exec σ Flow) :
    Simulates (E.write run value place) a (M.write run' value place) b
      (Near result answered state current)
      (fun _ a' _ b' => Near result answered state current a' b') := by
  have onHost : ∀ {a b : Config σ} (action : EStateM RunError σ Unit),
      Near result answered state current a b →
      Simulates (Exec.onWorld fun _ => World.onHost action) a
        (Exec.onWorld fun _ => World.onHost action) b (Near result answered state current)
        (fun _ a' _ b' => Near result answered state current a' b') := by
    intro a b action h
    refine .onWorld (.onHost action h.alike.host h.alike.onHost) ?_ ?_
    · exact fun u w alike => ⟨alike, h.answers⟩
    · exact fun v u w alike => ⟨alike, h.answers⟩
  cases place with
  | «local» id => exact own.elim
  | param id => exact own.elim
  | machineField slot =>
    refine .onWorld (x := fun _ => World.writeField slot value)
      (y := fun _ => World.writeField slot value) (h.alike.writeField own value) ?_ ?_
    · exact fun u w alike => ⟨alike, h.answers⟩
    · exact fun v u w alike => ⟨alike, h.answers⟩
  | field receiver member =>
    cases receiver with
    | none =>
      unfold Environment.write
      rw [hosted.host]
      exact onHost _ h
    | some receiver =>
      refine (h.eval hosted own run run').bind fun v a' w b' _ step => ?_
      obtain ⟨rfl, h'⟩ := step
      rw [hosted.host]
      exact onHost _ h'
  | element => exact .fails h

end Lowering

end ManagedCode
