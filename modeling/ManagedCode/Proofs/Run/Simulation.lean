import ManagedCode.Proofs.Run.Fuel

namespace ManagedCode

variable {σ α β γ δ : Type}

@[simp] theorem Config.fuel_withFuel (c : Config σ) (f : Nat) : (c.withFuel f).fuel = f := rfl

@[simp] theorem Config.withFuel_withFuel (c : Config σ) (f g : Nat) :
    (c.withFuel f).withFuel g = c.withFuel g := rfl

@[simp] theorem Config.withFuel_fuel (c : Config σ) : c.withFuel c.fuel = c := rfl

@[simp] theorem Config.activation_withFuel (c : Config σ) (f : Nat) :
    (c.withFuel f).activation = c.activation := rfl

@[simp] theorem Config.fields_withFuel (c : Config σ) (f : Nat) :
    (c.withFuel f).world.fields = c.world.fields := rfl

@[simp] theorem Config.host_withFuel (c : Config σ) (f : Nat) :
    (c.withFuel f).world.host = c.world.host := rfl

namespace Exec

/-- From `c` on, `x` becomes `y` at `c'` for `k` units of fuel. -/
def Reaches (x : Exec σ α) (c : Config σ) (k : Nat) (y : Exec σ α) (c' : Config σ) : Prop :=
  (∀ f, x (c.withFuel (k + f)) = y (c'.withFuel f)) ∧
    ∀ f < k, ∃ t, x (c.withFuel f) = .error .stepLimit t

/-- From `c` on, `x` needs more than `n` units of fuel. -/
def Outlasts (x : Exec σ α) (c : Config σ) (n : Nat) : Prop :=
  ∀ f ≤ n, ∃ t, x (c.withFuel f) = .error .stepLimit t

/-- From `c` on, `x` ends with `a` at `c'` for `k` units of fuel. -/
abbrev Ends (x : Exec σ α) (c : Config σ) (k : Nat) (a : α) (c' : Config σ) : Prop :=
  x.Reaches c k (pure a) c'

/-- From `c` on, `x` fails with `error` at `c'` for `k` units of fuel. -/
abbrev Fails (x : Exec σ α) (c : Config σ) (k : Nat) (error : RunError) (c' : Config σ) : Prop :=
  x.Reaches c k (throw error) c'

namespace Reaches

variable {x y z : Exec σ α} {c c' c'' : Config σ} {k m : Nat}

theorem refl (x : Exec σ α) (c : Config σ) : x.Reaches c 0 x c :=
  ⟨fun f => by rw [Nat.zero_add], fun f h => absurd h (Nat.not_lt_zero f)⟩

theorem trans (h : x.Reaches c k y c') (h' : y.Reaches c' m z c'') :
    x.Reaches c (k + m) z c'' := by
  refine ⟨fun f => ?_, fun f room => ?_⟩
  · rw [Nat.add_assoc, h.1, h'.1]
  · by_cases early : f < k
    · exact h.2 f early
    · obtain ⟨g, rfl⟩ := Nat.exists_eq_add_of_le (Nat.le_of_not_lt early)
      obtain ⟨t, ht⟩ := h'.2 g (by omega)
      exact ⟨t, by rw [h.1, ht]⟩

theorem of_eq (h : ∀ f, x (c.withFuel f) = y (c'.withFuel f)) : x.Reaches c 0 y c' :=
  ⟨fun f => by rw [Nat.zero_add, h], fun f h => absurd h (Nat.not_lt_zero f)⟩

/-- A step that goes on somewhere takes what follows it along. -/
theorem bind {f : α → Exec σ β} (h : x.Reaches c k y c') :
    (x >>= f).Reaches c k (y >>= f) c' := by
  refine ⟨fun g => ?_, fun g room => ?_⟩
  · change EStateM.bind x f _ = EStateM.bind y f _
    unfold EStateM.bind
    rw [h.1]
  · obtain ⟨t, ht⟩ := h.2 g room
    exact ⟨t, bind_of_error ht⟩

theorem andThen {a : α} {f : α → Exec σ β} (h : x.Ends c k a c') :
    (x >>= f).Reaches c k (f a) c' := by
  have step : (x >>= f).Reaches c k (pure a >>= f) c' := h.bind
  exact step

theorem fails {f : α → Exec σ β} {error : RunError} (h : x.Fails c k error c') :
    (x >>= f).Fails c k error c' := by
  have step : (x >>= f).Reaches c k (throw error >>= f) c' := h.bind
  exact step

theorem tick (f : Unit → Exec σ α) (c : Config σ) : (Exec.tick >>= f).Reaches c 1 (f ()) c := by
  refine ⟨fun g => ?_, fun g room => ?_⟩
  · have taken : Exec.tick (c.withFuel (1 + g)) = .ok () ((c.withFuel (1 + g)).withFuel g) :=
      tick_succ (by simp [Nat.add_comm])
    rw [bind_of_ok taken]
    rfl
  · have none : Exec.tick (c.withFuel g) = .error .stepLimit (c.withFuel g) :=
      tick_zero (by simp; omega)
    exact ⟨_, bind_of_error none⟩

theorem unwinding {x y : Exec σ Flow} (h : x.Reaches c k y c') :
    x.unwinding.Reaches c k y.unwinding c' := by
  refine ⟨fun f => ?_, fun f room => ?_⟩
  · unfold Exec.unwinding
    rw [h.1]
  · obtain ⟨t, ht⟩ := h.2 f room
    refine ⟨t, ?_⟩
    unfold Exec.unwinding
    rw [ht]

theorem unwinding_thrown {x : Exec σ Flow} {value : Value} (h : x.Fails c k (.thrown value) c') :
    x.unwinding.Ends c k (.throw value) c' := by
  have caught : (throw (.thrown value) : Exec σ Flow).unwinding = pure (.throw value) := rfl
  rw [Ends, ← caught]
  exact h.unwinding

theorem unwinding_fails {x : Exec σ Flow} {error : RunError} (h : x.Fails c k error c')
    (other : ∀ value, error ≠ .thrown value) : x.unwinding.Fails c k error c' := by
  have passed : (throw error : Exec σ Flow).unwinding = throw error := by
    funext config
    cases error with
    | thrown value => exact absurd rfl (other value)
    | _ => rfl
  rw [Fails, ← passed]
  exact h.unwinding

end Reaches

theorem unwinding_of_ok {x : Exec σ Flow} {c c' : Config σ} {flow : Flow} (h : x c = .ok flow c') :
    x.unwinding c = .ok flow c' := by
  unfold unwinding
  rw [h]

theorem unwinding_of_thrown {x : Exec σ Flow} {c c' : Config σ} {value : Value}
    (h : x c = .error (.thrown value) c') : x.unwinding c = .ok (.throw value) c' := by
  unfold unwinding
  rw [h]

theorem unwinding_of_error {x : Exec σ Flow} {c c' : Config σ} {error : RunError}
    (h : x c = .error error c') (other : ∀ value, error ≠ .thrown value) :
    x.unwinding c = .error error c' := by
  unfold unwinding
  rw [h]
  cases error with
  | thrown value => exact absurd rfl (other value)
  | _ => rfl

theorem Outlasts.of_reaches {x y : Exec σ α} {c c' : Config σ} {k n : Nat}
    (h : x.Reaches c k y c') (last : y.Outlasts c' n) : x.Outlasts c (k + n) := by
  intro f room
  by_cases early : f < k
  · exact h.2 f early
  · obtain ⟨g, rfl⟩ := Nat.exists_eq_add_of_le (Nat.le_of_not_lt early)
    obtain ⟨t, ht⟩ := last g (by omega)
    exact ⟨t, by rw [h.1, ht]⟩

theorem Outlasts.mono {x : Exec σ α} {c : Config σ} {m n : Nat} (h : x.Outlasts c n)
    (le : m ≤ n) : x.Outlasts c m :=
  fun f room => h f (Nat.le_trans room le)

theorem Outlasts.bind {x : Exec σ α} {c : Config σ} {n : Nat} {f : α → Exec σ β}
    (h : x.Outlasts c n) : (x >>= f).Outlasts c n := by
  intro g room
  obtain ⟨t, ht⟩ := h g room
  exact ⟨t, bind_of_error ht⟩

end Exec

/-- At `b`, `x` does what `s` does at `a`: a result is answered by one that is related to it, an
error by the same error, and running out of fuel by running out of fuel. It never needs less fuel
than `s`. -/
def Simulates (s : Exec σ α) (a : Config σ) (x : Exec σ β) (b : Config σ)
    (bad : Config σ → Config σ → Prop) (good : α → Config σ → β → Config σ → Prop) : Prop :=
  match s a with
  | .ok v a' => a'.fuel ≤ a.fuel ∧
      ∃ k w b', a.fuel ≤ k + a'.fuel ∧ x.Ends b k w b' ∧ good v a' w b'
  | .error .stepLimit _ => x.Outlasts b a.fuel
  | .error error a' => a'.fuel ≤ a.fuel ∧
      ∃ k b', a.fuel ≤ k + a'.fuel ∧ x.Fails b k error b' ∧ bad a' b'

namespace Simulates

variable {s : Exec σ α} {x y : Exec σ β} {a a' b b' : Config σ} {k : Nat}
  {bad bad' : Config σ → Config σ → Prop} {good : α → Config σ → β → Config σ → Prop}

theorem of_ok {v : α} (h : s a = .ok v a') : Simulates s a x b bad good ↔
    a'.fuel ≤ a.fuel ∧ ∃ k w b', a.fuel ≤ k + a'.fuel ∧ x.Ends b k w b' ∧ good v a' w b' := by
  unfold Simulates
  rw [h]

theorem of_stepLimit (h : s a = .error .stepLimit a') :
    Simulates s a x b bad good ↔ x.Outlasts b a.fuel := by
  unfold Simulates
  rw [h]

theorem of_error {error : RunError} (h : s a = .error error a') (other : error ≠ .stepLimit) :
    Simulates s a x b bad good ↔ a'.fuel ≤ a.fuel ∧
      ∃ k b', a.fuel ≤ k + a'.fuel ∧ x.Fails b k error b' ∧ bad a' b' := by
  unfold Simulates
  rw [h]
  cases error <;> first | rfl | exact absurd rfl other

theorem pure {v : α} {w : β} (h : good v a w b) :
    Simulates (Pure.pure v) a (Pure.pure w) b bad good := by
  rw [of_ok (show (Pure.pure v : Exec σ α) a = .ok v a from rfl)]
  exact ⟨Nat.le_refl _, 0, w, b, by omega, .refl _ _, h⟩

theorem mono {good' : α → Config σ → β → Config σ → Prop} (h : Simulates s a x b bad good)
    (bads : ∀ a' b', bad a' b' → bad' a' b')
    (goods : ∀ v a' w b', good v a' w b' → good' v a' w b') :
    Simulates s a x b bad' good' := by
  cases hs : s a with
  | ok v a' =>
    rw [of_ok hs] at h ⊢
    obtain ⟨less, k, w, b', enough, ends, holds⟩ := h
    exact ⟨less, k, w, b', enough, ends, goods _ _ _ _ holds⟩
  | error error a' =>
    by_cases limit : error = .stepLimit
    · subst limit
      rw [of_stepLimit hs] at h ⊢
      exact h
    · rw [of_error hs limit] at h ⊢
      obtain ⟨less, k, b', enough, fails, holds⟩ := h
      exact ⟨less, k, b', enough, fails, bads _ _ holds⟩

/-- The simulating side may go ahead. -/
theorem ahead (reaches : x.Reaches b k y b') (h : Simulates s a y b' bad good) :
    Simulates s a x b bad good := by
  cases hs : s a with
  | ok v a' =>
    rw [of_ok hs] at h ⊢
    obtain ⟨less, m, w, c, enough, ends, holds⟩ := h
    exact ⟨less, k + m, w, c, by omega, reaches.trans ends, holds⟩
  | error error a' =>
    by_cases limit : error = .stepLimit
    · subst limit
      rw [of_stepLimit hs] at h ⊢
      exact (h.of_reaches reaches).mono (by omega)
    · rw [of_error hs limit] at h ⊢
      obtain ⟨less, m, c, enough, fails, holds⟩ := h
      exact ⟨less, k + m, c, by omega, reaches.trans fails, holds⟩

/-- A unit of fuel is answered by at least one. -/
theorem tick {next : Unit → Exec σ α} (reaches : x.Reaches b (k + 1) y b')
    (h : ∀ n, a.fuel = n + 1 → Simulates (next ()) (a.withFuel n) y b' bad good) :
    Simulates (Exec.tick >>= next) a x b bad good := by
  cases hf : a.fuel with
  | zero =>
    rw [of_stepLimit (bind_of_error (Exec.tick_zero hf)), hf]
    intro f room
    exact reaches.2 f (by omega)
  | succ n =>
    have taken := bind_of_ok (f := next) (Exec.tick_succ hf)
    have step := h n hf
    cases hs : next () (a.withFuel n) with
    | ok v a' =>
      rw [of_ok hs] at step
      rw [of_ok (taken.trans hs)]
      obtain ⟨less, m, w, c, enough, ends, holds⟩ := step
      rw [Config.fuel_withFuel] at less enough
      exact ⟨by omega, k + 1 + m, w, c, by omega, reaches.trans ends, holds⟩
    | error error a' =>
      by_cases limit : error = .stepLimit
      · subst limit
        rw [of_stepLimit hs, Config.fuel_withFuel] at step
        rw [of_stepLimit (taken.trans hs)]
        exact (step.of_reaches reaches).mono (by omega)
      · rw [of_error hs limit] at step
        rw [of_error (taken.trans hs) limit]
        obtain ⟨less, m, c, enough, fails, holds⟩ := step
        rw [Config.fuel_withFuel] at less enough
        exact ⟨by omega, k + 1 + m, c, by omega, reaches.trans fails, holds⟩

theorem fails {error : RunError} (h : bad a b) :
    Simulates (throw error : Exec σ α) a (throw error : Exec σ β) b bad good := by
  have hs : (throw error : Exec σ α) a = .error error a := rfl
  by_cases limit : error = .stepLimit
  · subst limit
    rw [of_stepLimit hs]
    exact fun f _ => ⟨b.withFuel f, rfl⟩
  · rw [of_error hs limit]
    exact ⟨Nat.le_refl _, 0, b, by omega, .refl _ _, h⟩

theorem outcome {r : Except RunError α} {good : α → Config σ → α → Config σ → Prop}
    (hb : bad a b) (hg : ∀ v, r = .ok v → good v a v b) :
    Simulates (ofExcept r : Exec σ α) a (ofExcept r) b bad good := by
  cases r with
  | ok v => exact pure (hg v rfl)
  | error e => exact fails hb

theorem update {f g : Config σ → Config σ} {good : PUnit → Config σ → PUnit → Config σ → Prop}
    (hf : (f a).fuel = a.fuel) (hg : ∀ n, g (b.withFuel n) = (g b).withFuel n)
    (h : good () (f a) () (g b)) :
    Simulates (modify f : Exec σ PUnit) a (modify g) b bad good := by
  rw [of_ok (show (modify f : Exec σ PUnit) a = .ok () (f a) from rfl)]
  refine ⟨Nat.le_of_eq hf, 0, (), g b, by omega, .of_eq fun n => ?_, h⟩
  change EStateM.Result.ok () (g (b.withFuel n)) = _
  rw [hg]
  rfl

theorem bind {next : α → Exec σ γ} {next' : β → Exec σ δ}
    {good' : γ → Config σ → δ → Config σ → Prop} (first : Simulates s a x b bad good)
    (h : ∀ v a' w b', a'.fuel ≤ a.fuel → good v a' w b' →
      Simulates (next v) a' (next' w) b' bad good') :
    Simulates (s >>= next) a (x >>= next') b bad good' := by
  cases hs : s a with
  | ok v a' =>
    rw [of_ok hs] at first
    obtain ⟨less, k, w, b', enough, ends, holds⟩ := first
    have step := h v a' w b' less holds
    have goes := bind_of_ok (f := next) hs
    cases hn : next v a' with
    | ok u a'' =>
      rw [of_ok hn] at step
      rw [of_ok (goes.trans hn)]
      obtain ⟨less', m, w', b'', enough', ends', holds'⟩ := step
      exact ⟨by omega, k + m, w', b'', by omega, ends.andThen.trans ends', holds'⟩
    | error error a'' =>
      by_cases limit : error = .stepLimit
      · subst limit
        rw [of_stepLimit hn] at step
        rw [of_stepLimit (goes.trans hn)]
        exact (step.of_reaches ends.andThen).mono (by omega)
      · rw [of_error hn limit] at step
        rw [of_error (goes.trans hn) limit]
        obtain ⟨less', m, b'', enough', fails, holds'⟩ := step
        exact ⟨by omega, k + m, b'', by omega, ends.andThen.trans fails, holds'⟩
  | error error a' =>
    have goes := bind_of_error (f := next) hs
    by_cases limit : error = .stepLimit
    · subst limit
      rw [of_stepLimit hs] at first
      rw [of_stepLimit goes]
      exact first.bind
    · rw [of_error hs limit] at first
      rw [of_error goes limit]
      obtain ⟨less, k, b', enough, fails, holds⟩ := first
      exact ⟨less, k, b', enough, fails.fails, holds⟩

/-- The simulated side may have something to say after its last step. -/
theorem conclude {next : α → Exec σ γ} {good' : γ → Config σ → β → Config σ → Prop}
    (h : Simulates s a x b bad good)
    (last : ∀ v a' w b', good v a' w b' → ∃ u, next v = Pure.pure u ∧ good' u a' w b') :
    Simulates (s >>= next) a x b bad good' := by
  have whole : Simulates (s >>= next) a (x >>= Pure.pure) b bad good' := by
    refine h.bind fun v a' w b' _ holds => ?_
    obtain ⟨u, same, holds'⟩ := last v a' w b' holds
    rw [same]
    exact .pure holds'
  rwa [bind_pure] at whole

/-- So may the simulating side. -/
theorem answer {next : β → Exec σ γ} {good' : α → Config σ → γ → Config σ → Prop}
    (h : Simulates s a x b bad good)
    (last : ∀ v a' w b', good v a' w b' → ∃ u, next w = Pure.pure u ∧ good' v a' u b') :
    Simulates s a (x >>= next) b bad good' := by
  have whole : Simulates (s >>= Pure.pure) a (x >>= next) b bad good' := by
    refine h.bind fun v a' w b' _ holds => ?_
    obtain ⟨u, same, holds'⟩ := last v a' w b' holds
    rw [same]
    exact .pure holds'
  rwa [bind_pure] at whole

/-- An exception becomes a flow on both sides. -/
theorem unwinding {s x : Exec σ Flow} {good : Flow → Config σ → Flow → Config σ → Prop}
    (h : Simulates s a x b bad good)
    (thrown : ∀ v a' b', bad a' b' → good (.throw v) a' (.throw v) b') :
    Simulates s.unwinding a x.unwinding b bad good := by
  cases hs : s a with
  | ok flow a' =>
    rw [of_ok hs] at h
    rw [of_ok (Exec.unwinding_of_ok hs)]
    obtain ⟨less, k, w, b', enough, ends, holds⟩ := h
    exact ⟨less, k, w, b', enough, ends.unwinding, holds⟩
  | error error a' =>
    by_cases limit : error = .stepLimit
    · subst limit
      rw [of_stepLimit hs] at h
      rw [of_stepLimit (Exec.unwinding_of_error hs nofun)]
      intro f room
      obtain ⟨t, ht⟩ := h f room
      exact ⟨t, Exec.unwinding_of_error ht nofun⟩
    · rw [of_error hs limit] at h
      obtain ⟨less, k, b', enough, fails, holds⟩ := h
      by_cases caught : ∃ value, error = .thrown value
      · obtain ⟨value, rfl⟩ := caught
        rw [of_ok (Exec.unwinding_of_thrown hs)]
        exact ⟨less, k, .throw value, b', enough, fails.unwinding_thrown, thrown _ _ _ holds⟩
      · have other : ∀ value, error ≠ .thrown value := fun value hv => caught ⟨value, hv⟩
        rw [of_error (Exec.unwinding_of_error hs other) limit]
        exact ⟨less, k, b', enough, fails.unwinding_fails other, holds⟩

end Simulates

end ManagedCode
