namespace ManagedCode

/-! Steps that change a state and may fail. -/

variable {ε S α β : Type}

/-- A step that went on after another one found it successful. -/
theorem bind_eq_ok {x : EStateM ε S α} {f : α → EStateM ε S β} {s t : S} {b : β} :
    (x >>= f) s = .ok b t ↔ ∃ a m, x s = .ok a m ∧ f a m = .ok b t := by
  change EStateM.bind x f s = _ ↔ _
  unfold EStateM.bind
  cases x s with
  | ok a m =>
    constructor
    · exact fun h => ⟨a, m, rfl, h⟩
    · rintro ⟨_, _, ⟨⟩, h⟩
      exact h
  | error fault m => simp

theorem bind_of_ok {x : EStateM ε S α} {f : α → EStateM ε S β} {s t : S} {a : α}
    (h : x s = .ok a t) : (x >>= f) s = f a t := by
  change EStateM.bind x f s = _
  unfold EStateM.bind
  rw [h]

theorem bind_of_error {x : EStateM ε S α} {f : α → EStateM ε S β} {s t : S} {e : ε}
    (h : x s = .error e t) : (x >>= f) s = .error e t := by
  change EStateM.bind x f s = _
  unfold EStateM.bind
  rw [h]

theorem except_bind_of_ok {x : Except ε α} {f : α → Except ε β} {a : α} (h : x = .ok a) :
    (x >>= f) = f a := by
  rw [h]
  rfl

theorem except_bind_eq_ok {x : Except ε α} {f : α → Except ε β} {b : β} :
    (x >>= f) = .ok b ↔ ∃ a, x = .ok a ∧ f a = .ok b := by
  cases x with
  | error fault =>
    constructor
    · exact nofun
    · rintro ⟨_, ⟨⟩, _⟩
  | ok a =>
    constructor
    · exact fun h => ⟨a, rfl, h⟩
    · rintro ⟨_, ⟨⟩, h⟩
      exact h

theorem exists_eq_ok {x : Except ε α} (h : x.isOk = true) : ∃ a, x = .ok a := by
  cases x with
  | ok a => exact ⟨a, rfl⟩
  | error fault => cases h

/-- A step that begins by reading the state. -/
theorem get_bind (f : S → EStateM ε S α) (s : S) : (get >>= f) s = f s s :=
  rfl

/-- The state that a step ended in. -/
def finalState : EStateM.Result ε S α → S
  | .ok _ s => s
  | .error _ s => s

/-- Why a step failed, if it did. -/
def failure? : EStateM.Result ε S α → Option ε
  | .ok _ _ => none
  | .error e _ => some e

theorem eq_ok_of_failure? {result : EStateM.Result ε S α} (h : failure? result = none) :
    ∃ a, result = .ok a (finalState result) := by
  cases result with
  | ok a s => exact ⟨a, rfl⟩
  | error => cases h

theorem eq_error_of_failure? {result : EStateM.Result ε S α} {e : ε} (h : failure? result = some e) :
    result = .error e (finalState result) := by
  cases result with
  | ok => cases h
  | error e' s => cases h; rfl

/-- A result with the state it is reached in. -/
def reached : Except ε α → S → EStateM.Result ε S α
  | .ok a, s => .ok a s
  | .error e, s => .error e s

theorem exists_reached (result : EStateM.Result ε S α) : ∃ r s, result = reached r s := by
  cases result with
  | ok a s => exact ⟨.ok a, s, rfl⟩
  | error e s => exact ⟨.error e, s, rfl⟩

end ManagedCode
