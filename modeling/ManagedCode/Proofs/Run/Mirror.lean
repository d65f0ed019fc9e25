import ManagedCode.Proofs.Run.Simulation

namespace ManagedCode

variable {σ α β : Type}

def World.withFuel (w : World σ) (fuel : Nat) : World σ := { w with fuel }

@[simp] theorem World.fuel_withFuel (w : World σ) (f : Nat) : (w.withFuel f).fuel = f := rfl

@[simp] theorem World.withFuel_withFuel (w : World σ) (f g : Nat) :
    (w.withFuel f).withFuel g = w.withFuel g := rfl

@[simp] theorem World.fields_withFuel (w : World σ) (f : Nat) :
    (w.withFuel f).fields = w.fields := rfl

@[simp] theorem World.host_withFuel (w : World σ) (f : Nat) : (w.withFuel f).host = w.host := rfl

theorem Activation.lookup_writeLocal_self (activation : Activation) (id : LocalId) (value : Value) :
    (activation.writeLocal id value).locals.lookup id = some value := by
  unfold Activation.writeLocal
  rw [List.lookup_cons_self]

theorem Activation.lookup_writeLocal_of_ne (activation : Activation) {id other : LocalId}
    (value : Value) (h : other ≠ id) :
    (activation.writeLocal id value).locals.lookup other = activation.locals.lookup other := by
  have kept : (activation.locals.filter (·.1 ≠ id)).lookup other =
      activation.locals.lookup other := by
    induction activation.locals with
    | nil => rfl
    | cons pair rest ih =>
      obtain ⟨key, held⟩ := pair
      by_cases here : key = id
      · have skip : other ≠ key := here ▸ h
        rw [List.filter_cons_of_neg (by simpa using here), List.lookup_cons,
          beq_false_of_ne skip]
        exact ih
      · rw [List.filter_cons_of_pos (by simpa using here), List.lookup_cons, List.lookup_cons, ih]
  unfold Activation.writeLocal
  rw [List.lookup_cons, beq_false_of_ne h]
  exact kept

/-- What a field holds. -/
def World.field (w : World σ) (slot : FieldSlot) : Except RunError Value :=
  w.fields[slot.index]?.elim (.error (.unsupported (.machineField slot))) .ok

theorem World.readField_eq (slot : FieldSlot) (w : World σ) :
    World.readField slot w = reached (w.field slot) w := by
  unfold World.readField World.field
  rw [get_bind]
  cases w.fields[slot.index]? <;> rfl

theorem World.writeField_eq {slot : FieldSlot} {w : World σ} (value : Value)
    (room : slot.index < w.fields.length) :
    World.writeField slot value w = .ok () { w with fields := w.fields.set slot.index value } := by
  unfold World.writeField
  rw [get_bind, if_pos room]
  rfl

theorem World.writeField_eq_error {slot : FieldSlot} {w : World σ} (value : Value)
    (small : ¬slot.index < w.fields.length) :
    World.writeField slot value w = .error (.unsupported (.machineField slot)) w := by
  unfold World.writeField
  rw [get_bind, if_neg small]
  rfl

theorem World.onHost_eq {action : EStateM RunError σ α} {w : World σ} {r : Except RunError α}
    {host : σ} (h : action w.host = reached r host) :
    World.onHost action w = reached r { w with host } := by
  simp only [World.onHost]
  rw [h]
  cases r <;> rfl

theorem Exec.onWorld_eq {action : Activation → EStateM RunError (World σ) α} {c : Config σ}
    {r : Except RunError α} {world : World σ} (h : action c.activation c.world = reached r world) :
    Exec.onWorld action c = reached r { c with world } := by
  unfold Exec.onWorld
  rw [h]
  cases r <;> rfl

/-- At `w`, whatever its fuel, `y` has the result that `x` has at `u`, and neither takes fuel. -/
def Mirrors (rel : World σ → World σ → Prop) (x : EStateM RunError (World σ) α) (u : World σ)
    (y : EStateM RunError (World σ) α) (w : World σ) : Prop :=
  ∃ r u' w', rel u' w' ∧ u'.fuel = u.fuel ∧ x u = reached r u' ∧
    ∀ f, y (w.withFuel f) = reached r (w'.withFuel f)

namespace Mirrors

variable {rel : World σ → World σ → Prop} {u w : World σ}

theorem pure (a : α) (h : rel u w) : Mirrors rel (Pure.pure a) u (Pure.pure a) w :=
  ⟨.ok a, u, w, h, rfl, rfl, fun _ => rfl⟩

theorem outcome (r : Except RunError α) (h : rel u w) :
    Mirrors rel (ofExcept r) u (ofExcept r) w :=
  ⟨r, u, w, h, rfl, by cases r <;> rfl, fun _ => by cases r <;> rfl⟩

theorem fails (e : RunError) (h : rel u w) :
    Mirrors rel (throw e : EStateM RunError (World σ) α) u (throw e) w :=
  ⟨.error e, u, w, h, rfl, rfl, fun _ => rfl⟩

theorem bind {x y : EStateM RunError (World σ) α} {f g : α → EStateM RunError (World σ) β}
    (first : Mirrors rel x u y w) (next : ∀ a u' w', rel u' w' → Mirrors rel (f a) u' (g a) w') :
    Mirrors rel (x >>= f) u (y >>= g) w := by
  obtain ⟨r, u', w', related, fuel, hx, hy⟩ := first
  cases r with
  | error e =>
    exact ⟨.error e, u', w', related, fuel, bind_of_error hx, fun f => bind_of_error (hy f)⟩
  | ok a =>
    obtain ⟨r, u'', w'', related', fuel', hx', hy'⟩ := next a u' w' related
    refine ⟨r, u'', w'', related', fuel'.trans fuel, ?_, fun f => ?_⟩
    · exact (bind_of_ok hx).trans hx'
    · exact (bind_of_ok (hy f)).trans (hy' f)

/-- An access to the host is one to the same host. -/
theorem onHost (action : EStateM RunError σ α) (same : u.host = w.host)
    (h : ∀ host, rel { u with host } { w with host }) :
    Mirrors rel (World.onHost action) u (World.onHost action) w := by
  obtain ⟨r, host, ha⟩ := exists_reached (action w.host)
  refine ⟨r, _, _, h host, rfl, World.onHost_eq (by rw [same, ha]), fun f => ?_⟩
  exact World.onHost_eq (w := w.withFuel f) ha

end Mirrors

/-- What is done to the world alone is simulated without taking fuel. -/
theorem Simulates.onWorld {rel : World σ → World σ → Prop}
    {x y : Activation → EStateM RunError (World σ) α} {a b : Config σ}
    {bad : Config σ → Config σ → Prop} {good : α → Config σ → α → Config σ → Prop}
    (h : Mirrors rel (x a.activation) a.world (y b.activation) b.world)
    (bads : ∀ u w, rel u w → bad { a with world := u } { b with world := w })
    (goods : ∀ v u w, rel u w → good v { a with world := u } v { b with world := w }) :
    Simulates (Exec.onWorld x) a (Exec.onWorld y) b bad good := by
  obtain ⟨r, u, w, related, fuel, hx, hy⟩ := h
  have less : Config.fuel { a with world := u } = a.fuel := fuel
  have hs := Exec.onWorld_eq hx
  have goes : ∀ f, Exec.onWorld y (b.withFuel f) =
      reached r (Config.withFuel { b with world := w } f) := fun f =>
    Exec.onWorld_eq (c := b.withFuel f) (hy f)
  cases r with
  | ok v =>
    rw [of_ok hs]
    exact ⟨Nat.le_of_eq less, 0, v, _, by omega, .of_eq goes, goods v u w related⟩
  | error e =>
    by_cases limit : e = .stepLimit
    · subst limit
      rw [of_stepLimit hs]
      exact fun f _ => ⟨_, goes f⟩
    · rw [of_error hs limit]
      exact ⟨Nat.le_of_eq less, 0, _, by omega, .of_eq goes, bads u w related⟩

end ManagedCode
