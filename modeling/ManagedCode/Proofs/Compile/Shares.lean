import ManagedCode.Proofs.Compile.FanOut

namespace ManagedCode

/-! Work that is shared out gives what it gives when it is done on each item in turn. -/

namespace FanOut

variable {α β σ : Type} {items : List α} {workers : Nat}

/-- Items in the shares of at most so many workers, one behind the other and none of them empty. -/
structure SharedOut (items : List α) (workers : Nat) (shares : List (List α)) : Prop where
  all : shares.flatten = items
  few : shares.length ≤ max workers 1
  nonempty : ∀ share ∈ shares, share ≠ []

theorem ne_nil_of_mem_chunks {size : Nat} {items share : List α} (h : share ∈ chunks size items) :
    share ≠ [] := by
  fun_induction chunks size items with
  | case1 => simp at h
  | case2 item items ih =>
    rcases List.mem_cons.mp h with rfl | later
    · simp
    · exact ih later

/-- Chunks are no more than it takes to hold all items. -/
theorem length_chunks_le {size k : Nat} {items : List α} (h : items.length ≤ k * size) :
    (chunks size items).length ≤ k := by
  fun_induction chunks size items generalizing k with
  | case1 => exact Nat.zero_le k
  | case2 item items ih =>
    cases k with
    | zero => simp at h
    | succ k =>
      have room : (items.drop (size - 1)).length ≤ k * size := by
        rw [List.length_cons, Nat.succ_mul] at h
        rw [List.length_drop]
        omega
      have fewer := ih room
      rw [List.length_cons]
      omega

/-- A chunk for each worker holds all items, since their number is rounded up. -/
theorem length_le_mul_chunkSize (items workers : Nat) :
    items ≤ max workers 1 * chunkSize items workers := by
  have some : 0 < max workers 1 := by omega
  have split := Nat.div_add_mod (items + (max workers 1 - 1)) (max workers 1)
  have rest := Nat.mod_lt (items + (max workers 1 - 1)) some
  unfold chunkSize
  omega

theorem sharedOut_chunks (items : List α) (workers : Nat) :
    SharedOut items workers (chunks (chunkSize items.length workers) items) where
  all := flatten_chunks _ items
  few := length_chunks_le (length_le_mul_chunkSize items.length workers)
  nonempty _ := ne_nil_of_mem_chunks

/-! Work that never breaks. -/

theorem Steps.of_append {work : α → StateM σ (Option β)} {first second : List α} {results : List β}
    {s u : σ} (h : Steps work (first ++ second) results s u) :
    ∃ before after t, results = before ++ after ∧ Steps work first before s t ∧
      Steps work second after t u := by
  induction first generalizing results s with
  | nil => exact ⟨[], results, s, rfl, ⟨rfl, rfl⟩, h⟩
  | cons item items ih =>
    obtain ⟨r, rest, middle, hw, rfl, h⟩ := h
    obtain ⟨before, after, t, rfl, h, h'⟩ := ih h
    exact ⟨r :: before, after, t, rfl, ⟨r, before, middle, hw, rfl, h⟩, h'⟩

theorem runChunk_of_steps {work : α → StateM σ (Option β)} {items : List α} {results : List β}
    {s t : σ} (h : Steps work items results s t) :
    runChunk false work items s = (.ok results, t) := by
  induction items generalizing results s with
  | nil =>
    obtain ⟨rfl, rfl⟩ := h
    rfl
  | cons item items ih =>
    obtain ⟨r, rest, middle, hw, rfl, h⟩ := h
    rw [runChunk_cons work items hw, ih h]
    rfl

theorem mapM_cons_eq (f : α → StateM σ β) (item : α) (items : List α) (s : σ) :
    (item :: items).mapM f s =
      ((f item s).1 :: (items.mapM f (f item s).2).1, (items.mapM f (f item s).2).2) := by
  rw [List.mapM_cons]
  rfl

theorem shares_of_steps {work : α → StateM σ (Option β)} {shares : List (List α)}
    {results : List β} {s t : σ} (h : Steps work shares.flatten results s t) :
    ∃ parts : List (List β), shares.mapM (runChunk false work) s = (parts.map .ok, t) ∧
      parts.flatten = results := by
  induction shares generalizing results s with
  | nil =>
    obtain ⟨rfl, rfl⟩ := h
    exact ⟨[], rfl, rfl⟩
  | cons share shares ih =>
    rw [List.flatten_cons] at h
    obtain ⟨first, rest, middle, rfl, here, later⟩ := h.of_append
    obtain ⟨parts, hp, rfl⟩ := ih later
    refine ⟨first :: parts, ?_, rfl⟩
    rw [mapM_cons_eq, runChunk_of_steps here, hp]
    rfl

theorem mapM_id_map_ok (parts : List β) :
    (parts.map .ok : List (Except WorkFault β)).mapM id = .ok parts := by
  induction parts with
  | nil => rfl
  | cons part parts ih =>
    rw [List.map_cons, List.mapM_cons, ih]
    rfl

/-- The outcomes of the shares, put together. -/
theorem fanOut_run (workers : Nat) (cancelled : Bool) (work : α → StateM σ (Option β))
    (items : List α) (s : σ) :
    let outcomes :=
      (chunks (chunkSize items.length workers) items).mapM (runChunk cancelled work) s
    fanOut workers cancelled work items s = (List.flatten <$> outcomes.1.mapM id, outcomes.2) :=
  rfl

/-- Work has results exactly if it has them when it is done on each item in turn, and then the same
ones. -/
theorem fanOut_eq_ok_iff (workers : Nat) {work : α → StateM σ (Option β)} {results : List β}
    {s t : σ} :
    fanOut workers false work items s = (.ok results, t) ↔ Steps work items results s t := by
  constructor
  · exact steps_fanOut
  · intro h
    have shared := sharedOut_chunks items workers
    rw [← shared.all] at h
    obtain ⟨parts, run, rfl⟩ := shares_of_steps h
    rw [fanOut_run, run]
    dsimp only
    rw [mapM_id_map_ok]
    rfl

theorem steps_of_map (work : α → β) (items : List α) (s : σ) :
    Steps (fun item => pure (some (work item))) items (items.map work) s s := by
  induction items with
  | nil => exact ⟨rfl, rfl⟩
  | cons item items ih => exact ⟨work item, items.map work, s, rfl, rfl, ih⟩

/-! Work that breaks. -/

theorem eq_broken_of_runChunk {work : α → StateM σ (Option β)} {items : List α} {fault : WorkFault}
    {s t : σ} (h : runChunk false work items s = (.error fault, t)) : fault = .broken := by
  induction items generalizing s t with
  | nil => cases h
  | cons item items ih =>
    cases hw : work item s with
    | mk answer middle =>
      rw [runChunk_cons work items hw] at h
      cases answer with
      | none =>
        cases h
        rfl
      | some r =>
        cases hr : runChunk false work items middle with
        | mk outcome last =>
          simp only [Option.elim_some, hr] at h
          cases outcome with
          | error fault' =>
            cases h
            exact ih hr
          | ok rest => cases h

theorem mem_of_mapM_id {outcomes : List (Except WorkFault β)} {fault : WorkFault}
    (h : outcomes.mapM id = .error fault) : .error fault ∈ outcomes := by
  induction outcomes with
  | nil => cases h
  | cons outcome outcomes ih =>
    rw [List.mapM_cons] at h
    cases outcome with
    | error fault' =>
      cases h
      exact List.mem_cons_self
    | ok part =>
      cases rest : outcomes.mapM id with
      | error fault' =>
        rw [rest] at h
        cases h
        exact List.mem_cons_of_mem _ (ih rest)
      | ok parts =>
        rw [rest] at h
        cases h

theorem exists_of_mem_shares {work : α → StateM σ (Option β)} {shares : List (List α)}
    {outcome : Except WorkFault (List β)} {s : σ}
    (h : outcome ∈ (shares.mapM (runChunk false work) s).1) :
    ∃ share before, (runChunk false work share before).1 = outcome := by
  induction shares generalizing s with
  | nil => cases h
  | cons share shares ih =>
    rw [mapM_cons_eq] at h
    rcases List.mem_cons.mp h with rfl | later
    · exact ⟨share, s, rfl⟩
    · exact ih later

theorem eq_broken_of_fanOut {work : α → StateM σ (Option β)} {fault : WorkFault} {s t : σ}
    (h : fanOut workers false work items s = (.error fault, t)) : fault = .broken := by
  rw [fanOut_run] at h
  cases outcome : ((chunks (chunkSize items.length workers) items).mapM
      (runChunk false work) s).1.mapM id with
  | ok parts =>
    rw [outcome] at h
    cases h
  | error fault' =>
    rw [outcome] at h
    cases h
    obtain ⟨share, before, ends⟩ := exists_of_mem_shares (mem_of_mapM_id outcome)
    exact eq_broken_of_runChunk (Prod.ext ends rfl)

/-! Work that was cancelled. -/

theorem mapM_cancelled {m : Type → Type} [Monad m] [LawfulMonad m] (work : α → m (Option β))
    {shares : List (List α)} (nonempty : ∀ share ∈ shares, share ≠ []) :
    shares.mapM (runChunk true work) = pure (shares.map fun _ => .error .cancelled) := by
  induction shares with
  | nil => simp
  | cons share shares ih =>
    have first : runChunk true work share = pure (.error .cancelled) := by
      cases share with
      | nil => exact absurd rfl (nonempty [] List.mem_cons_self)
      | cons item items => rfl
    have rest := ih fun share later => nonempty share (List.mem_cons_of_mem _ later)
    rw [List.mapM_cons, first, rest]
    simp

/-- Nothing is done on any item once work was cancelled. -/
theorem fanOut_cancelled {m : Type → Type} [Monad m] [LawfulMonad m] (work : α → m (Option β))
    (some : items ≠ []) : fanOut workers true work items = pure (.error .cancelled) := by
  have shared := sharedOut_chunks items workers
  have all := shared.all
  unfold fanOut
  dsimp only
  rw [mapM_cancelled work shared.nonempty]
  cases shares : chunks (chunkSize items.length workers) items with
  | nil =>
    rw [shares] at all
    exact absurd all.symm some
  | cons share rest => simp [List.mapM_cons, bind, Except.bind]

/-! Work without a state. -/

theorem fanOut_eq_ok_iff_of_stateless {work : α → Id (Option β)} {results : List β} :
    fanOut workers false work items = .ok results ↔
      Steps (fun item => (pure (work item) : StateM Unit (Option β))) items results () () := by
  rw [← fanOut_eq_ok_iff workers, fanOut_stateless]
  exact ⟨fun h => by rw [h], congrArg Prod.fst⟩

/-- It does not matter how many workers there are. -/
theorem fanOut_eq_fanOut (work : α → Id (Option β)) (workers workers' : Nat) (cancelled : Bool)
    (items : List α) :
    fanOut workers cancelled work items = fanOut workers' cancelled work items := by
  cases cancelled with
  | true =>
    by_cases none : items = []
    · subst none
      simp [fanOut, chunks]
    · rw [fanOut_cancelled work none, fanOut_cancelled work none]
  | false =>
    have broken : ∀ workers fault, fanOut workers false work items = .error fault →
        fault = .broken := fun workers fault h => by
      have run := fanOut_stateless work workers false items
      rw [h] at run
      exact eq_broken_of_fanOut run
    have same : ∀ results, fanOut workers false work items = .ok results ↔
        fanOut workers' false work items = .ok results := fun results => by
      rw [fanOut_eq_ok_iff_of_stateless, fanOut_eq_ok_iff_of_stateless]
    cases first : fanOut workers false work items with
    | ok results => exact ((same results).mp first).symm
    | error fault =>
      cases second : fanOut workers' false work items with
      | ok results =>
        have done := (same results).mpr second
        rw [first] at done
        cases done
      | error fault' => rw [broken workers fault first, broken workers' fault' second]

end FanOut

open FanOut in
/-- Work is done on the items in at most as many shares as there are workers. If it is not cancelled
and does not break, its results are those of all items in their order, however many workers there
are; if it is cancelled before, nothing is done. -/
theorem fanOut_in_order {α β : Type} (items : List α) (workers : Nat) :
    (∃ shares, SharedOut items workers shares ∧
      ∀ {m : Type → Type} [Monad m] (cancelled : Bool) (work : α → m (Option β)),
        fanOut workers cancelled work items = do
          let outcomes ← shares.mapM (runChunk cancelled work)
          return do return (← outcomes.mapM id).flatten) ∧
    (∀ work : α → β, (fanOut workers false (fun item => some (work item)) items : Id _) =
      .ok (items.map work)) ∧
    (∀ (workers' : Nat) (cancelled : Bool) (work : α → Id (Option β)),
      fanOut workers cancelled work items = fanOut workers' cancelled work items) ∧
    (∀ {σ : Type} (work : α → StateM σ (Option β)) (results : List β) (s t : σ),
      fanOut workers false work items s = (.ok results, t) ↔ Steps work items results s t) ∧
    (items ≠ [] → ∀ {m : Type → Type} [Monad m] [LawfulMonad m] (work : α → m (Option β)),
      fanOut workers true work items = pure (.error .cancelled)) := by
  refine ⟨⟨_, sharedOut_chunks items workers, fun _ _ => rfl⟩, fun work => ?_,
    fun workers' cancelled work => fanOut_eq_fanOut work workers workers' cancelled items,
    fun work results s t => fanOut_eq_ok_iff workers,
    fun some _ _ _ work => fanOut_cancelled work some⟩
  exact fanOut_eq_ok_iff_of_stateless.mpr (steps_of_map work items ())

theorem fanOut_in_order_squares :
    (fanOut 2 false (fun n => some (n * n)) [1, 2, 3, 4, 5] : Id (Except WorkFault (List Nat))) =
        .ok [1, 4, 9, 16, 25] ∧
      (fanOut 2 true (fun n => some (n * n)) [1, 2, 3, 4, 5] : Id (Except WorkFault (List Nat))) =
        .error .cancelled := by
  obtain ⟨-, whole, -, -, cancelled⟩ := fanOut_in_order (β := Nat) [1, 2, 3, 4, 5] 2
  exact ⟨whole fun n => n * n, cancelled (by decide) (m := Id) fun n => some (n * n)⟩

end ManagedCode
