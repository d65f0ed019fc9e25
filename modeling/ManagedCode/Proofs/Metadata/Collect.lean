import ManagedCode.Proofs.Metadata.Parts
import ManagedCode.Proofs.Metadata.Reserve

namespace ManagedCode

/-- A reference has a token or is excused from having one. -/
def Session.Held (session : Session) (excused : List RefKey) (key : RefKey) : Prop :=
  session.Reserved key ∨ key ∈ excused

@[simp] theorem Session.held_nil {session : Session} {key : RefKey} :
    session.Held [] key ↔ session.Reserved key := by
  simp [Held]

theorem Session.held_congr {session later : Session} (excused : List RefKey)
    (same : later.tokens = session.tokens) (key : RefKey) :
    later.Held excused key ↔ session.Held excused key := by
  simp only [Held, Reserved, same]

/-- What holds of a session between two visits, and inside one, where the types in `pending` are
marked although their parts are still being visited. The references in `excused` need not have
tokens although something that has a token stands for them. -/
structure Session.Sound (session : Session) (target : Target) (excused : List RefKey)
    (pending : List Ty) : Prop where
  closed : ∀ {key}, session.Reserved key → ∀ k ∈ target.keyRefs key, session.Held excused k
  settled : ∀ {t}, .type t ∈ session.seen →
    t ∈ pending ∨ ∀ k ∈ target.embeddedRefs t, session.Held excused k
  ordered : ∀ {before key after}, session.tokens.keys = before ++ key :: after →
    ∀ part ∈ target.parts key, target.IsOwn part ∨ part ∈ before ∨ part ∈ excused
  filed : session.tokens.Filed
  cached : session.arrayMethods.Cached

theorem Session.sound_empty (target : Target) (excused : List RefKey) :
    Session.Sound {} target excused [] where
  closed := nofun
  settled := nofun
  ordered h := by simp [TokenTable.keys] at h
  filed := TokenTable.filed_empty
  cached := nofun

/-- A visit, begun where `known` have their tokens, gives tokens to exactly `refs` besides. -/
def Emit.Collects (target : Target) (excused : List RefKey) (pending : List Ty)
    (known : List RefKey) (visit : Emit Unit) (refs : List RefKey) : Prop :=
  ∀ session later : Session, session.Sound target excused pending →
    (∀ k ∈ known, session.Held excused k) → visit session = .ok () later →
    later.Sound target excused pending ∧
      ∀ k, later.Held excused k ↔ session.Held excused k ∨ k ∈ refs

namespace Emit.Collects

open Emit

variable {target : Target} {pending : List Ty} {excused known refs refs' : List RefKey}
  {visit visit' : Emit Unit} {key : RefKey}

theorem nothing : Collects target excused pending known (pure ()) [] := by
  intro session later sound _ h
  cases h
  exact ⟨sound, by simp⟩

/-- A step that fails has nothing to answer for. -/
theorem fails {fault : Fault} : Collects target excused pending known (throw fault) refs := by
  intro session later sound _ h
  cases h

theorem congr (h : Collects target excused pending known visit refs) (same : ∀ k, k ∈ refs ↔ k ∈ refs') :
    Collects target excused pending known visit refs' := by
  intro session later sound hk hv
  obtain ⟨sound', hr⟩ := h _ _ sound hk hv
  exact ⟨sound', fun k => by rw [hr, same]⟩

theorem weaken (h : Collects target excused pending known visit refs) {more : List RefKey}
    (sub : ∀ k ∈ known, k ∈ more) : Collects target excused pending more visit refs :=
  fun _ _ sound hk hv => h _ _ sound (fun k hm => hk k (sub k hm)) hv

/-- What the first visit gave tokens to is known to the second. -/
theorem andThen (first : Collects target excused pending known visit refs)
    (second : Collects target excused pending (known ++ refs) visit' refs') :
    Collects target excused pending known (do visit; visit') (refs ++ refs') := by
  intro session later sound hk h
  obtain ⟨_, middle, hv, h⟩ := bind_eq_ok.mp h
  obtain ⟨sound₁, hr₁⟩ := first _ _ sound hk hv
  have known₁ : ∀ k ∈ known ++ refs, middle.Held excused k := by
    intro k hm
    rcases List.mem_append.mp hm with hm | hm
    · exact (hr₁ k).mpr (.inl (hk k hm))
    · exact (hr₁ k).mpr (.inr hm)
  obtain ⟨sound₂, hr₂⟩ := second _ _ sound₁ known₁ h
  exact ⟨sound₂, fun k => by rw [hr₂, hr₁, List.mem_append, or_assoc]⟩

/-- A reference that has its token has everything it stands for. -/
theorem unlessReserved (h : Collects target excused pending known visit refs)
    (sub : ∀ k ∈ refs, k ∈ target.keyRefs key) :
    Collects target excused pending known (unlessReserved key visit) refs := by
  intro session later sound hk hv
  rw [unlessReserved_eq] at hv
  split at hv
  next held =>
    cases hv
    refine ⟨sound, fun k => ⟨.inl, ?_⟩⟩
    rintro (hr | hm)
    · exact hr
    · exact sound.closed (Session.reserved_iff_contains.mp held) k (sub k hm)
  next => exact h _ _ sound hk hv

/-- A session with one more mark is sound if a marked type counts as pending. -/
theorem sound_marked {session later : Session} {pending' : List Ty}
    (sound : session.Sound target excused pending) (tokens : later.tokens = session.tokens)
    (arrayMethods : later.arrayMethods = session.arrayMethods)
    (seen : ∀ k, k ∈ later.seen ↔ k ∈ session.seen ∨ k = key)
    (more : ∀ t ∈ pending, t ∈ pending') (type : ∀ t, key = .type t → t ∈ pending') :
    later.Sound target excused pending' := by
  have same := Session.held_congr excused tokens
  constructor
  · intro k hr k' hk'
    have old : session.Reserved k := by rwa [Session.Reserved, ← tokens]
    exact (same k').mpr (sound.closed old k' hk')
  · intro t hseen
    rcases (seen _).mp hseen with old | new
    · exact (sound.settled old).imp (more t) fun h k hk => (same k).mpr (h k hk)
    · exact .inl (type t new.symm)
  · rw [tokens]
    exact sound.ordered
  · rw [tokens]
    exact sound.filed
  · rw [arrayMethods]
    exact sound.cached

/-- Marking something that is not a type leaves all as it was. -/
theorem mark (notType : ∀ t, key ≠ .type t) :
    Collects target excused pending known (discard (markSeen key)) [] := by
  intro session later sound _ h
  obtain ⟨marked, run, ht, ha, hs⟩ := exists_mark session key
  cases run.symm.trans h
  refine ⟨sound_marked sound ht ha hs (fun _ => id) fun t he => absurd he (notType t), fun k => ?_⟩
  simp [Session.held_congr _ ht]

/-- A type is no longer pending once what it stands for has tokens. -/
theorem settle {session : Session} {t : Ty} (sound : session.Sound target excused (t :: pending))
    (h : ∀ k ∈ target.embeddedRefs t, session.Held excused k) :
    session.Sound target excused pending := by
  refine ⟨sound.closed, ?_, sound.ordered, sound.filed, sound.cached⟩
  intro u hu
  rcases sound.settled hu with hp | hp
  · rcases List.mem_cons.mp hp with rfl | hp
    · exact .inr h
    · exact .inl hp
  · exact .inr hp

/-- A type that is marked first is pending while its parts are visited. -/
theorem markThen {t : Ty} (h : Collects target excused (t :: pending) known visit refs)
    (sub : ∀ k ∈ target.embeddedRefs t, k ∈ known ∨ k ∈ refs) :
    Collects target excused pending known (do discard (markSeen (.type t)); visit) refs := by
  intro session later sound hk hv
  obtain ⟨marked, run, ht, ha, hs⟩ := exists_mark session (.type t)
  rw [bind_of_ok run] at hv
  have same := Session.held_congr excused ht
  have sound₁ : marked.Sound target excused (t :: pending) := by
    refine sound_marked sound ht ha hs (fun _ => List.mem_cons_of_mem _) fun u hu => ?_
    cases hu
    exact List.mem_cons_self
  obtain ⟨sound₂, hr⟩ := h _ _ sound₁ (fun k hm => (same k).mpr (hk k hm)) hv
  have hr' : ∀ k, later.Held excused k ↔ session.Held excused k ∨ k ∈ refs := fun k => by
    rw [hr, same]
  refine ⟨settle sound₂ fun k he => ?_, hr'⟩
  exact (hr' k).mpr ((sub k he).imp_left (hk k))

/-- The parts of a type inside a signature are visited at its first sight only: at any later
sight they have their tokens. -/
theorem firstSight {t : Ty} (h : Collects target excused (t :: pending) known visit refs)
    (ht : t ∈ pending → refs = []) (same : ∀ k, k ∈ refs ↔ k ∈ target.embeddedRefs t) :
    Collects target excused pending known (Target.firstSight t visit) refs := by
  refine unlessReserved ?_ fun k hk => List.mem_append_left _ ((same k).mp hk)
  intro session later sound hk hv
  obtain ⟨new, marked, hm, hv⟩ := bind_eq_ok.mp hv
  cases new with
  | true =>
    refine markThen h (fun k he => .inr ((same k).mpr he)) _ _ sound hk ?_
    exact bind_eq_ok.mpr ⟨(), marked, bind_eq_ok.mpr ⟨true, marked, hm, rfl⟩, hv⟩
  | false =>
    cases hv
    rw [markSeen_eq] at hm
    split at hm
    next seen =>
      cases hm
      have settled := sound.settled (Session.hasSeen_iff.mp seen)
      refine ⟨sound, fun k => ⟨.inl, ?_⟩⟩
      rintro (hr | hk)
      · exact hr
      · rcases settled with hp | all
        · simp [ht hp] at hk
        · exact all k ((same k).mp hk)
    next => cases hm

/-- A reference that is filed in its table leaves the session sound if what it stands for is held
by then. -/
theorem sound_filed {session later : Session} (sound : session.Sound target excused pending)
    (arrayMethods : later.arrayMethods = session.arrayMethods)
    (seen : ∀ k ∈ later.seen, k ∈ session.seen ∨ k = key)
    (tokens : (session.Reserved key ∧ later.tokens = session.tokens) ∨
      (¬session.Reserved key ∧
        later.tokens = session.tokens.file key key.table ∧
          (session.tokens.rows key.table).length + 1 < Token.rowLimit))
    (ready : ∀ k ∈ target.keyRefs key, session.Held excused k ∨ k = key)
    (parts : ∀ part ∈ target.parts key, target.IsOwn part ∨ session.Held excused part) :
    later.Sound target excused pending ∧
      ∀ k, later.Held excused k ↔ session.Held excused k ∨ k = key := by
  have reserved := reserved_of_filed tokens
  have held : ∀ k, later.Held excused k ↔ session.Held excused k ∨ k = key := fun k => by
    rw [Session.Held, Session.Held, reserved, or_right_comm]
  have all : ∀ k ∈ target.keyRefs key, later.Held excused k := fun k hm => (held k).mpr (ready k hm)
  refine ⟨⟨?_, ?_, ?_, ?_, ?_⟩, held⟩
  · intro k hr k' hk'
    rcases (reserved k).mp hr with old | rfl
    · exact (held k').mpr (.inl (sound.closed old k' hk'))
    · exact all k' hk'
  · intro t hseen
    rcases seen _ hseen with old | rfl
    · exact (sound.settled old).imp_right fun h k hm => (held k).mpr (.inl (h k hm))
    · exact .inr fun k hm => all k (List.mem_append_left _ hm)
  · intro before key' after split part hp
    rcases tokens with ⟨-, ht⟩ | ⟨-, ht, -⟩
    · exact sound.ordered (ht ▸ split) part hp
    · rw [ht, TokenTable.keys_file] at split
      rcases List.eq_nil_or_concat after with rfl | ⟨after', last, rfl⟩
      · obtain ⟨rfl, hlast⟩ := List.append_inj' split rfl
        cases hlast
        exact parts part hp
      · rw [List.concat_eq_append, ← List.cons_append, ← List.append_assoc] at split
        exact sound.ordered (List.append_inj' split rfl).1 part hp
  · rcases tokens with ⟨-, ht⟩ | ⟨absent, ht, free⟩
    · exact ht ▸ sound.filed
    · exact ht ▸ sound.filed.file absent free
  · rw [arrayMethods]
    exact sound.cached

/-- A reference gets its token after everything that it stands for. -/
theorem reserve (wf : target.symbols.WellFormed) (foreign : ¬target.IsOwn key)
    (buildable : key.Buildable) (ready : ∀ k ∈ target.keyRefs key, k ∈ known ∨ k = key) :
    Collects target excused pending known (Emit.reserve key) [key] := by
  intro session later sound hk h
  obtain ⟨arrayMethods, seen, tokens⟩ := reserve_eq_ok h
  have parts : ∀ part ∈ target.parts key, target.IsOwn part ∨ session.Held excused part := by
    intro part hp
    refine (Target.own_or_mem_keyRefs wf foreign buildable hp).imp_right fun hm => hk part ?_
    exact (ready part hm).resolve_right (Target.ne_of_mem_parts wf hp)
  obtain ⟨sound', held⟩ := sound_filed sound arrayMethods (fun k => (seen k).mp) tokens
    (fun k hm => (ready k hm).imp_left (hk k)) parts
  exact ⟨sound', fun k => by simp [held]⟩

end Emit.Collects

end ManagedCode
