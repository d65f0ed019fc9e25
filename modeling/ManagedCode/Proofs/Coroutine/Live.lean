import ManagedCode.Proofs.Coroutine.Drive
import ManagedCode.Proofs.Run.Dialogue

namespace ManagedCode

namespace Coroutine

variable {σ α β γ S T : Type}

/-- Where a coroutine is between two calls. -/
inductive Status where
  | fresh
  /-- It handed out an element, and goes on from a point inside open try statements. -/
  | paused (point : Point) (opened : List OpenTry)
  | done
  deriving Inhabited

/-- A coroutine between two calls. -/
structure Live (σ : Type) where
  status : Status := .fresh
  activation : Activation
  fields : List Value := []
  host : σ
  deriving Inhabited

namespace Live

def world (live : Live σ) : World σ := ⟨live.fields, 0, live.host⟩

def config (live : Live σ) (fuel : Nat) : Config σ :=
  ⟨live.activation, live.fields, fuel, live.host⟩

/-- The coroutine that an execution has left. -/
def of (status : Status) (config : Config σ) : Live σ :=
  ⟨status, config.activation, config.world.fields, config.world.host⟩

end Live

/-- Goes on until there is an element or the end. -/
def resume (next : Exec σ Outcome) (fuel : Nat) : EStateM RunError (Live σ) (Option Value) :=
  fun live =>
    match next (live.config fuel) with
    | .ok (.paused value point opened) config => .ok (some value) (.of (.paused point opened) config)
    | .ok (.ended flow) config =>
      match flow.result with
      | .ok _ => .ok none (.of .done config)
      | .error error => .error error (.of .done config)
    | .error error config => .error error (.of .done config)

/-- Performs a call by running a body. Disposing a coroutine that waits at a yield leaves the body
from there, as a return does; before the first step and after the end it runs nothing. -/
def perform (env : Environment σ) (observer : Observer σ) (root : List Stmt) : Performs (Live σ) :=
  fun fuel call live =>
    match call, live.status with
    | .moveNext, .fresh => resume (drives env observer (.start root) []) fuel live
    | .moveNext, .paused point opened => resume (drives env observer point opened) fuel live
    | .dispose, .paused _ opened =>
      resume (leave env observer (drives env observer) opened (.ret .unit)) fuel live
    | .moveNext, .done | .dispose, .fresh | .dispose, .done => .ok none { live with status := .done }

variable {next : Exec σ Outcome} {fuel : Nat} {live : Live σ} {c : Config σ}

theorem resume_paused {value : Value} {point : Point} {opened : List OpenTry}
    (h : next (live.config fuel) = .ok (.paused value point opened) c) :
    resume next fuel live = .ok (some value) (.of (.paused point opened) c) := by
  unfold resume
  rw [h]

theorem resume_ended {flow : Flow} (h : next (live.config fuel) = .ok (.ended flow) c) :
    resume next fuel live = reached (flow.result.map fun _ => none) (.of .done c) := by
  unfold resume
  rw [h]
  cases flow <;> rfl

theorem resume_error {error : RunError} (h : next (live.config fuel) = .error error c) :
    resume next fuel live = .error error (.of .done c) := by
  unfold resume
  rw [h]

/-! The status that a coroutine is in after its answers. -/

theorem status_of_resume {r : Except RunError (Option Value)} {live' : Live σ}
    (h : resume next fuel live = reached r live') :
    (∃ element point opened, r = .ok (some element) ∧ live'.status = .paused point opened) ∨
      (∀ element, r ≠ .ok (some element)) ∧ live'.status = .done := by
  cases hn : next (live.config fuel) with
  | error error c =>
    have failed : resume next fuel live = reached (.error error) _ := resume_error hn
    obtain ⟨rfl, rfl⟩ := reached_inj (h.symm.trans failed)
    exact .inr ⟨nofun, rfl⟩
  | ok outcome c =>
    cases outcome with
    | paused value point opened =>
      have paused : resume next fuel live = reached (.ok (some value)) _ := resume_paused hn
      obtain ⟨rfl, rfl⟩ := reached_inj (h.symm.trans paused)
      exact .inl ⟨value, point, opened, rfl, rfl⟩
    | ended flow =>
      obtain ⟨rfl, rfl⟩ := reached_inj (h.symm.trans (resume_ended hn))
      refine .inr ⟨fun element => ?_, rfl⟩
      cases flow <;> exact nofun

section

variable {env : Environment σ} {observer : Observer σ} {root : List Stmt} {call : Call}
  {start : Live σ} {log : List (Call × Answer)}

theorem perform_done (through : live.status = .done) :
    perform env observer root fuel call live = .ok none { live with status := .done } := by
  unfold perform
  rw [through]
  cases call <;> rfl

/-- A coroutine waits at a yield just when it has handed out an element. -/
theorem status_of_perform {r : Except RunError (Option Value)} {live' : Live σ}
    (h : perform env observer root fuel call live = reached r live') :
    (∃ element point opened, r = .ok (some element) ∧ live'.status = .paused point opened) ∨
      (∀ element, r ≠ .ok (some element)) ∧ live'.status = .done := by
  have nothing : perform env observer root fuel call live = .ok none { live with status := .done } →
      (∀ element, r ≠ .ok (some element)) ∧ live'.status = .done := by
    intro same
    have ended : reached r live' = reached (.ok none) { live with status := .done } :=
      h.symm.trans same
    obtain ⟨rfl, rfl⟩ := reached_inj ended
    exact ⟨nofun, rfl⟩
  cases status : live.status with
  | done => exact .inr (nothing (perform_done status))
  | fresh =>
    unfold perform at h nothing
    rw [status] at h nothing
    cases call with
    | moveNext => exact status_of_resume h
    | dispose => exact .inr (nothing rfl)
  | paused point opened =>
    unfold perform at h
    rw [status] at h
    cases call <;> exact status_of_resume h

/-- The status of a coroutine after the calls of a log. -/
inductive Status.Follows : List (Call × Answer) → Status → Prop
  | fresh : Follows [] .fresh
  | paused {before : List (Call × Answer)} {call : Call} {element : Value} {point : Point}
    {opened : List OpenTry} : Follows (before ++ [(call, .ok (some element))]) (.paused point opened)
  | done {before : List (Call × Answer)} {call : Call} {answer : Answer}
    (none : ∀ element, answer ≠ .ok (some element)) : Follows (before ++ [(call, answer)]) .done

theorem answer_eq {answer : Answer} {element : Option Value} (h : answer.result = .ok element) :
    answer = .ok element := by
  cases answer <;> cases h
  rfl

theorem follows_of_dialogue (fresh : start.status = .fresh)
    (dialogue : Dialogue (perform env observer root) start log live) :
    Status.Follows log live.status := by
  cases dialogue with
  | start =>
    rw [fresh]
    exact .fresh
  | call before h =>
    rcases status_of_perform h with ⟨element, point, opened, answered, status⟩ | ⟨none, status⟩
    · rw [status, answer_eq answered]
      exact .paused
    · rw [status]
      refine .done fun element same => none element ?_
      rw [same]
      rfl

/-- A coroutine that has once answered without an element is through. -/
theorem done_of_dialogue (dialogue : Dialogue (perform env observer root) start log live)
    {entry : Call × Answer} (mem : entry ∈ log) (none : ∀ element, entry.2 ≠ .ok (some element)) :
    live.status = .done := by
  induction dialogue with
  | start => cases mem
  | call before h ih =>
    rcases List.mem_append.mp mem with earlier | last
    · rw [perform_done (ih earlier)] at h
      have ended := (reached_inj (r := .ok _) h).2
      rw [← ended]
    · cases List.mem_singleton.mp last
      rcases status_of_perform h with ⟨element, -, -, answered, -⟩ | ⟨-, status⟩
      · exact absurd (answer_eq answered) (none element)
      · exact status

end

end Coroutine

/-- Executions that simulate one another answer calls in the same way. -/
theorem Simulates.matches {σ α β γ S T : Type} {s : Exec σ α} {x : Exec σ β} {a b : Config σ}
    {bad : Config σ → Config σ → Prop} {good : α → Config σ → β → Config σ → Prop}
    {f : Nat → EStateM RunError S γ} {g : Nat → EStateM RunError T γ} {u : S} {v : T}
    {rel : Except RunError γ → S → T → Prop}
    (sim : ∀ n, Simulates s (a.withFuel n) x b bad good)
    (contained : x.Contained) (left : Config σ → S)
    (right : Config σ → T) (still : ∀ c n, right (c.withFuel n) = right c)
    (failsLeft : ∀ n error c, s (a.withFuel n) = .error error c → f n u = .error error (left c))
    (failsRight : ∀ n error c, x (b.withFuel n) = .error error c → g n v = .error error (right c))
    (bads : ∀ error a' b', (∀ value, error ≠ .thrown value) → bad a' b' →
      rel (.error error) (left a') (right b'))
    (goods : ∀ value a' value' b', good value a' value' b' → ∃ r u' v', r ≠ .error .stepLimit ∧
      rel r u' v' ∧ (∀ n, s (a.withFuel n) = .ok value a' → f n u = reached r u') ∧
      ∀ n m, x (b.withFuel n) = .ok value' (b'.withFuel m) → g n v = reached r v') :
    Matches f u g v rel := by
  intro n
  have short : ∀ {k : Nat}, (∀ m < k, ∃ t, x (b.withFuel m) = .error .stepLimit t) →
      ∀ m < k, ∃ t, g m v = .error .stepLimit t := fun out m room =>
    let ⟨t, ht⟩ := out m room
    ⟨right t, failsRight m _ t ht⟩
  have step := sim n
  cases hs : s (a.withFuel n) with
  | ok value a' =>
    rw [of_ok hs] at step
    obtain ⟨-, k, value', b', -, ends, holds⟩ := step
    obtain ⟨r, u', v', some, related, here, there⟩ := goods _ _ _ _ holds
    refine ⟨r, u', here n hs, .inr ⟨some, k, v', fun m enough => ?_, short ends.2, related⟩⟩
    obtain ⟨d, rfl⟩ := Nat.exists_eq_add_of_le enough
    exact there _ d (ends.1 d)
  | error error a' =>
    have here := failsLeft n error a' hs
    by_cases limit : error = .stepLimit
    · subst limit
      rw [of_stepLimit hs] at step
      refine ⟨.error .stepLimit, left a', here, .inl ⟨rfl, fun m room => ?_⟩⟩
      obtain ⟨t, ht⟩ := step m room
      exact ⟨right t, failsRight m _ t ht⟩
    · rw [of_error hs limit] at step
      obtain ⟨-, k, b', -, fails, holds⟩ := step
      have other : ∀ value, error ≠ .thrown value := by
        rintro value rfl
        exact contained _ _ value (fails.1 0)
      refine ⟨.error error, left a', here, .inr ⟨by simpa using limit, k, right b', fun m enough => ?_,
        short fails.2, bads error a' b' other holds⟩⟩
      obtain ⟨d, rfl⟩ := Nat.exists_eq_add_of_le enough
      rw [failsRight _ error _ (fails.1 d), still]
      rfl

end ManagedCode
