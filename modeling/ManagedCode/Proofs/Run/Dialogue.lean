import ManagedCode.Proofs.Run.Simulation
import ManagedCode.Run.Instance

namespace ManagedCode

/-! Clients of iterators. -/

/-- What a client asks of an iterator. -/
inductive Call where
  | moveNext
  | dispose
  deriving DecidableEq, Inhabited

/-- What came of a call: the element or the end, or an exception. -/
abbrev Answer := Except Value (Option Value)

/-- The answer as the result of an execution. -/
def Answer.result : Answer → Except RunError (Option Value)
  | .ok element => .ok element
  | .error value => .error (.thrown value)

/-- How an iterator performs a call with an amount of fuel. -/
abbrev Performs (S : Type) := Nat → Call → EStateM RunError S (Option Value)

/-- Calls of an iterator, each with as much fuel as the client likes, and what came of them. -/
inductive Dialogue {S : Type} (perform : Performs S) (start : S) : List (Call × Answer) → S → Prop
  | start : Dialogue perform start [] start
  | call {log : List (Call × Answer)} {s s' : S} {fuel : Nat} {call : Call} {answer : Answer}
    (before : Dialogue perform start log s)
    (h : perform fuel call s = reached answer.result s') :
    Dialogue perform start (log ++ [(call, answer)]) s'

/-- Performs a call of a machine. -/
def Instance.perform {σ : Type} (machine : StateMachine) (host : Host σ)
    (watch : Stmt → σ → σ := fun _ host => host) : Performs (Instance σ) := fun fuel call =>
  match call with
  | .moveNext => do
    if ← moveNext machine host fuel watch then
      return some (← get).current
    else
      return none
  | .dispose => do
    dispose machine host fuel watch
    return none

/-! Calls that do the same. -/

/-- A call of `x` at `s` has the result that `y` has at `t`, if there is fuel enough; `y` never needs
less fuel than `x`. -/
def Matches {S T α : Type} (x : Nat → EStateM RunError S α) (s : S) (y : Nat → EStateM RunError T α)
    (t : T) (rel : Except RunError α → S → T → Prop) : Prop :=
  ∀ n, ∃ r s', x n s = reached r s' ∧
    ((r = .error .stepLimit ∧ ∀ f ≤ n, ∃ t', y f t = .error .stepLimit t') ∨
      (r ≠ .error .stepLimit ∧ ∃ k t', (∀ f, k ≤ f → y f t = reached r t') ∧
        (∀ f < k, ∃ t'', y f t = .error .stepLimit t'') ∧ rel r s' t'))

theorem reached_inj {ε S α : Type} {r r' : Except ε α} {s s' : S}
    (h : reached r s = reached r' s') : r = r' ∧ s = s' := by
  cases r <;> cases r' <;> cases h <;> exact ⟨rfl, rfl⟩

namespace Matches

variable {S T U α : Type} {x : Nat → EStateM RunError S α} {y : Nat → EStateM RunError T α}
  {z : Nat → EStateM RunError U α} {s s' : S} {t t' : T} {u : U}
  {rel rel' : Except RunError α → S → T → Prop} {r : Except RunError α}

/-- A call that comes back does so on the other side, given fuel enough. -/
theorem forth (h : Matches x s y t rel) {n : Nat} (hx : x n s = reached r s')
    (back : r ≠ .error .stepLimit) :
    ∃ k t', (∀ f, k ≤ f → y f t = reached r t') ∧ rel r s' t' := by
  obtain ⟨r', s'', hx', ⟨rfl, -⟩ | ⟨-, k, t', enough, -, related⟩⟩ := h n
  · obtain ⟨rfl, -⟩ := reached_inj (hx.symm.trans hx')
    exact absurd rfl back
  · obtain ⟨rfl, rfl⟩ := reached_inj (hx.symm.trans hx')
    exact ⟨k, t', enough, related⟩

/-- A call that comes back on the other side does so here. -/
theorem back (h : Matches x s y t rel) {n : Nat} (hy : y n t = reached r t')
    (back : r ≠ .error .stepLimit) : ∃ s', x n s = reached r s' ∧ rel r s' t' := by
  obtain ⟨r', s', hx, ⟨-, out⟩ | ⟨-, k, t'', enough, out, related⟩⟩ := h n
  · obtain ⟨t'', ht⟩ := out n (Nat.le_refl n)
    have stopped : y n t = reached (.error .stepLimit) t'' := ht
    obtain ⟨rfl, -⟩ := reached_inj (hy.symm.trans stopped)
    exact absurd rfl back
  · by_cases short : n < k
    · obtain ⟨t'', ht⟩ := out n short
      have stopped : y n t = reached (.error .stepLimit) t'' := ht
      obtain ⟨rfl, -⟩ := reached_inj (hy.symm.trans stopped)
      exact absurd rfl back
    · obtain ⟨rfl, rfl⟩ := reached_inj (hy.symm.trans (enough n (Nat.le_of_not_lt short)))
      exact ⟨s', hx, related⟩

theorem mono (h : Matches x s y t rel) (more : ∀ r s' t', rel r s' t' → rel' r s' t') :
    Matches x s y t rel' := by
  intro n
  obtain ⟨r, s', hx, out | ⟨some, k, t', enough, out, related⟩⟩ := h n
  · exact ⟨r, s', hx, .inl out⟩
  · exact ⟨r, s', hx, .inr ⟨some, k, t', enough, out, more _ _ _ related⟩⟩

theorem congr_left {x' : Nat → EStateM RunError S α} (same : ∀ n, x n s = x' n s)
    (h : Matches x' s y t rel) : Matches x s y t rel := by
  intro n
  rw [same n]
  exact h n

theorem trans {rel' : Except RunError α → T → U → Prop} (h : Matches x s y t rel)
    (h' : Matches y t z u rel') :
    Matches x s z u fun r s' u' => ∃ t', rel r s' t' ∧ rel' r t' u' := by
  intro n
  obtain ⟨r, s', hx, ⟨rfl, out⟩ | ⟨some, k, t', enough, out, related⟩⟩ := h n
  · refine ⟨_, s', hx, .inl ⟨rfl, fun f room => ?_⟩⟩
    obtain ⟨t', ht⟩ := out f room
    obtain ⟨r, t'', hy, ⟨-, out'⟩ | ⟨some, -⟩⟩ := h' f
    · exact out' f (Nat.le_refl f)
    · have stopped : y f t = reached (.error .stepLimit) t' := ht
      obtain ⟨rfl, -⟩ := reached_inj (stopped.symm.trans hy)
      exact absurd rfl some
  · refine ⟨r, s', hx, .inr ⟨some, ?_⟩⟩
    obtain ⟨r', t'', hy, ⟨rfl, -⟩ | ⟨-, k', u', enough', out', related'⟩⟩ := h' k
    · obtain ⟨rfl, -⟩ := reached_inj ((enough k (Nat.le_refl k)).symm.trans hy)
      exact absurd rfl some
    · obtain ⟨rfl, rfl⟩ := reached_inj ((enough k (Nat.le_refl k)).symm.trans hy)
      exact ⟨k', u', enough', out', t', related, related'⟩

end Matches

/-- Iterators that answer every call in the same way, as long as `linked` relates them, and whose
hosts then agree. -/
structure Bisimilar {S T : Type} (x : Performs S) (y : Performs T) (linked : S → T → Prop)
    (alike : S → T → Prop) : Prop where
  calls : ∀ {s t}, linked s t → ∀ call,
    Matches (x · call) s (y · call) t fun r s' t' => alike s' t' ∧
      ((∃ answer : Answer, r = answer.result) → linked s' t')
  alike : ∀ {s t}, linked s t → alike s t

/-- A client cannot tell one iterator from another. What it heard from the one it may hear from the
other, so that the hosts agree; and the call that comes next has the same result on both sides, or
never ends. -/
structure Indistinguishable {S T : Type} (x : Performs S) (s₀ : S) (y : Performs T) (t₀ : T)
    (alike : S → T → Prop) : Prop where
  forth : ∀ {log s}, Dialogue x s₀ log s → ∃ t, Dialogue y t₀ log t ∧ alike s t ∧
    ∀ call, Matches (x · call) s (y · call) t fun _ s' t' => alike s' t'
  back : ∀ {log t}, Dialogue y t₀ log t → ∃ s, Dialogue x s₀ log s ∧ alike s t ∧
    ∀ call, Matches (x · call) s (y · call) t fun _ s' t' => alike s' t'

namespace Bisimilar

variable {S T U : Type} {x : Performs S} {y : Performs T} {z : Performs U}
  {linked alike : S → T → Prop} {linked' alike' : T → U → Prop} {s₀ s : S} {t₀ t : T}
  {log : List (Call × Answer)}

theorem result_ne_stepLimit (answer : Answer) : answer.result ≠ .error .stepLimit := by
  cases answer <;> exact nofun

/-- Every dialogue with the one is one of the other. -/
theorem forth (h : Bisimilar x y linked alike) (start : linked s₀ t₀) (dialogue : Dialogue x s₀ log s) :
    ∃ t, Dialogue y t₀ log t ∧ linked s t := by
  induction dialogue with
  | start => exact ⟨t₀, .start, start⟩
  | call before hx ih =>
    obtain ⟨t, there, related⟩ := ih
    obtain ⟨k, t', enough, -, related'⟩ := (h.calls related _).forth hx (result_ne_stepLimit _)
    exact ⟨t', .call there (enough k (Nat.le_refl k)), related' ⟨_, rfl⟩⟩

theorem back (h : Bisimilar x y linked alike) (start : linked s₀ t₀) (dialogue : Dialogue y t₀ log t) :
    ∃ s, Dialogue x s₀ log s ∧ linked s t := by
  induction dialogue with
  | start => exact ⟨s₀, .start, start⟩
  | call before hy ih =>
    obtain ⟨s, here, related⟩ := ih
    obtain ⟨s', hx, -, related'⟩ := (h.calls related _).back hy (result_ne_stepLimit _)
    exact ⟨s', .call here hx, related' ⟨_, rfl⟩⟩

theorem indistinguishable (h : Bisimilar x y linked alike) (start : linked s₀ t₀) :
    Indistinguishable x s₀ y t₀ alike where
  forth dialogue := by
    obtain ⟨t, there, related⟩ := h.forth start dialogue
    exact ⟨t, there, h.alike related, fun call => (h.calls related call).mono fun _ _ _ h => h.1⟩
  back dialogue := by
    obtain ⟨s, here, related⟩ := h.back start dialogue
    exact ⟨s, here, h.alike related, fun call => (h.calls related call).mono fun _ _ _ h => h.1⟩

theorem trans (h : Bisimilar x y linked alike) (h' : Bisimilar y z linked' alike') :
    Bisimilar x z (fun s u => ∃ t, linked s t ∧ linked' t u)
      (fun s u => ∃ t, alike s t ∧ alike' t u) where
  calls := by
    rintro s u ⟨t, related, related'⟩ call
    refine ((h.calls related call).trans (h'.calls related' call)).mono ?_
    rintro r s' u' ⟨t', ⟨same, more⟩, same', more'⟩
    exact ⟨⟨t', same, same'⟩, fun answered => ⟨t', more answered, more' answered⟩⟩
  alike := by
    rintro s u ⟨t, related, related'⟩
    exact ⟨t, h.alike related, h'.alike related'⟩

end Bisimilar

theorem Indistinguishable.mono {S T : Type} {x : Performs S} {s₀ : S} {y : Performs T} {t₀ : T}
    {alike alike' : S → T → Prop} (h : Indistinguishable x s₀ y t₀ alike)
    (more : ∀ s t, alike s t → alike' s t) : Indistinguishable x s₀ y t₀ alike' where
  forth dialogue := by
    obtain ⟨t, there, same, next⟩ := h.forth dialogue
    exact ⟨t, there, more _ _ same, fun call => (next call).mono fun _ _ _ => more _ _⟩
  back dialogue := by
    obtain ⟨s, here, same, next⟩ := h.back dialogue
    exact ⟨s, here, more _ _ same, fun call => (next call).mono fun _ _ _ => more _ _⟩

end ManagedCode
