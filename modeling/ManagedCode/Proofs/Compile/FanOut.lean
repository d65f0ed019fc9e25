import Mathlib.Data.List.Forall2
import ManagedCode.Compile.FanOut

namespace ManagedCode

namespace FanOut

variable {α β σ : Type}

theorem flatten_chunks (size : Nat) (items : List α) : (chunks size items).flatten = items := by
  fun_induction chunks size items with
  | case1 => rfl
  | case2 item items ih => rw [List.flatten_cons, ih, List.cons_append, List.take_append_drop]

/-- What work does to a state when it is done on each item in turn and always succeeds. -/
def Steps (work : α → StateM σ (Option β)) : List α → List β → σ → σ → Prop
  | [], results, s, t => results = [] ∧ t = s
  | item :: items, results, s, t =>
    ∃ r rest middle, work item s = (some r, middle) ∧ results = r :: rest ∧
      Steps work items rest middle t

theorem Steps.append {work : α → StateM σ (Option β)} {first second : List α}
    {results results' : List β} {s t u : σ} (h : Steps work first results s t)
    (h' : Steps work second results' t u) : Steps work (first ++ second) (results ++ results') s u := by
  induction first generalizing results s with
  | nil =>
    obtain ⟨rfl, rfl⟩ := h
    exact h'
  | cons item items ih =>
    obtain ⟨r, rest, middle, hw, rfl, h⟩ := h
    exact ⟨r, rest ++ results', middle, hw, rfl, ih h⟩

/-- An item is worked on before those that follow it. -/
theorem runChunk_cons (work : α → StateM σ (Option β)) (items : List α) {item : α}
    {answer : Option β} {s t : σ} (h : work item s = (answer, t)) :
    runChunk false work (item :: items) s =
      answer.elim (.error .broken, t) fun r =>
        ((r :: ·) <$> (runChunk false work items t).1, (runChunk false work items t).2) := by
  change (bind (work item) _ : StateM σ _) s = _
  simp only [bind, StateT.bind, h]
  cases answer <;> rfl

theorem steps_runChunk {work : α → StateM σ (Option β)} {cancelled : Bool} {items : List α}
    {results : List β} {s t : σ} (h : runChunk cancelled work items s = (.ok results, t)) :
    Steps work items results s t := by
  induction items generalizing results s with
  | nil =>
    cases h
    exact ⟨rfl, rfl⟩
  | cons item items ih =>
    cases cancelled with
    | true => cases h
    | false =>
      cases hw : work item s with
      | mk answer middle =>
        rw [runChunk_cons work items hw] at h
        cases answer with
        | none => cases h
        | some r =>
          cases hr : runChunk false work items middle with
          | mk outcome last =>
            change ((r :: ·) <$> (runChunk false work items middle).1,
              (runChunk false work items middle).2) = _ at h
            rw [hr] at h
            cases outcome with
            | error fault => cases h
            | ok rest =>
              cases h
              exact ⟨r, rest, middle, hw, rfl, ih hr⟩

theorem steps_shares {work : α → StateM σ (Option β)} {cancelled : Bool} {shares : List (List α)}
    {outcomes : List (Except WorkFault (List β))} {results : List (List β)} {s t : σ}
    (h : shares.mapM (runChunk cancelled work) s = (outcomes, t))
    (ok : outcomes.mapM id = .ok results) :
    Steps work shares.flatten results.flatten s t := by
  induction shares generalizing outcomes results s with
  | nil =>
    cases h
    cases ok
    exact ⟨rfl, rfl⟩
  | cons share shares ih =>
    rw [List.mapM_cons] at h
    cases hs : runChunk cancelled work share s with
    | mk outcome middle =>
      cases hr : shares.mapM (runChunk cancelled work) middle with
      | mk others last =>
        change (((runChunk cancelled work share s).1 ::
            (shares.mapM (runChunk cancelled work) (runChunk cancelled work share s).2).1),
          (shares.mapM (runChunk cancelled work) (runChunk cancelled work share s).2).2) = _ at h
        rw [hs, hr] at h
        cases h
        rw [List.mapM_cons] at ok
        cases outcome with
        | error fault => cases ok
        | ok first =>
          cases ho : others.mapM id with
          | error fault => rw [ho] at ok; cases ok
          | ok rest =>
            rw [ho] at ok
            cases ok
            exact (steps_runChunk hs).append (ih hr ho)

/-- However work is shared out, it is done on every item in turn. -/
theorem steps_fanOut {work : α → StateM σ (Option β)} {workers : Nat} {cancelled : Bool}
    {items : List α} {results : List β} {s t : σ}
    (h : fanOut workers cancelled work items s = (.ok results, t)) :
    Steps work items results s t := by
  unfold fanOut at h
  cases hs : (chunks (chunkSize items.length workers) items).mapM (runChunk cancelled work) s with
  | mk outcomes last =>
    change ((do
        let all ← (((chunks (chunkSize items.length workers) items).mapM
          (runChunk cancelled work) s).1).mapM id
        return all.flatten : Except WorkFault (List β)),
      ((chunks (chunkSize items.length workers) items).mapM (runChunk cancelled work) s).2) =
        _ at h
    rw [hs] at h
    cases ho : outcomes.mapM id with
    | error fault => simp [ho, bind, Except.bind] at h
    | ok all =>
      simp only [ho, bind, Except.bind, pure, Except.pure, Prod.mk.injEq, Except.ok.injEq] at h
      obtain ⟨rfl, rfl⟩ := h
      have steps := steps_shares hs ho
      rwa [flatten_chunks] at steps

/-- There is one result for each item, in the same order. -/
theorem Steps.forall₂ {work : α → StateM σ (Option β)} {items : List α} {results : List β} {s t : σ}
    (h : Steps work items results s t) :
    List.Forall₂ (fun item r => ∃ before after, work item before = (some r, after)) items
      results := by
  induction items generalizing results s with
  | nil =>
    obtain ⟨rfl, -⟩ := h
    exact .nil
  | cons item items ih =>
    obtain ⟨first, rest, middle, hw, rfl, h⟩ := h
    exact .cons ⟨s, middle, hw⟩ (ih h)

/-! Work without a state is work on a state of which there is only one. -/

theorem runChunk_stateless (work : α → Id (Option β)) (cancelled : Bool) (items : List α) :
    runChunk cancelled (fun item => (pure (work item) : StateM Unit (Option β))) items () =
      (runChunk cancelled work items, ()) := by
  induction items with
  | nil => rfl
  | cons item items ih =>
    cases cancelled with
    | true => rfl
    | false =>
      rw [runChunk_cons (fun item => (pure (work item) : StateM Unit (Option β))) items rfl]
      have alone : runChunk false work (item :: items) =
          (work item).elim (.error .broken) fun r =>
            (r :: ·) <$> Id.run (runChunk false work items) := by
        change (bind (work item) _ : Id _) = _
        simp only [bind]
        cases work item <;> rfl
      rw [alone, ih]
      cases work item <;> rfl

theorem shares_stateless (work : α → Id (Option β)) (cancelled : Bool)
    (shares : List (List α)) :
    shares.mapM (runChunk cancelled fun item => (pure (work item) : StateM Unit (Option β))) () =
      ((shares.mapM (runChunk cancelled work) : Id _), ()) := by
  induction shares with
  | nil => rfl
  | cons share shares ih =>
    rw [List.mapM_cons, List.mapM_cons]
    have first := runChunk_stateless work cancelled share
    change ((runChunk cancelled (fun item => (pure (work item) : StateM Unit _)) share ()).1 ::
      (shares.mapM (runChunk cancelled fun item => (pure (work item) : StateM Unit _)) ()).1, ()) =
        _
    rw [first, ih]
    rfl

theorem fanOut_stateless (work : α → Id (Option β)) (workers : Nat) (cancelled : Bool)
    (items : List α) :
    fanOut workers cancelled (fun item => (pure (work item) : StateM Unit (Option β))) items () =
      (fanOut workers cancelled work items, ()) := by
  have shares := shares_stateless work cancelled (chunks (chunkSize items.length workers) items)
  change ((do
      let all ← ((chunks (chunkSize items.length workers) items).mapM
        (runChunk cancelled fun item => (pure (work item) : StateM Unit _)) ()).1.mapM id
      return all.flatten : Except WorkFault (List β)), ()) = _
  rw [shares]
  rfl

/-- Work without a state has one result for each item, in the same order. -/
theorem forall₂_fanOut {work : α → Id (Option β)} {workers : Nat} {cancelled : Bool}
    {items : List α} {results : List β} (h : fanOut workers cancelled work items = .ok results) :
    List.Forall₂ (fun item r => work item = some r) items results := by
  have run := fanOut_stateless work workers cancelled items
  rw [h] at run
  refine (steps_fanOut run).forall₂.imp ?_
  rintro item r ⟨_, _, hw⟩
  exact congrArg Prod.fst hw

end FanOut

end ManagedCode
