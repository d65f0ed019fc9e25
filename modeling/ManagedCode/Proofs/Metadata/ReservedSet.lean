import ManagedCode.Proofs.Metadata.BodyVisits
import ManagedCode.Proofs.Symbols.WellFormed

namespace ManagedCode

namespace Target

variable {target : Target}

/-- What has a token after some visits. -/
theorem reserved_visitAll (wf : target.symbols.WellFormed) {visits : List Visit}
    {session : Session} (h : target.visitAll visits {} = .ok () session) :
    session.Sound target [] [] ∧
      ∀ key, session.Reserved key ↔ ∃ v ∈ visits, key ∈ target.visitRefs v := by
  have collects : Emit.Collects target [] [] [] (target.visitAll visits) _ :=
    Emit.Collects.visitAll wf visits
  obtain ⟨sound, hr⟩ := collects _ _ (Session.sound_empty target []) nofun h
  simp only [Session.held_nil] at hr
  refine ⟨sound, fun key => ?_⟩
  rw [hr, List.mem_flatMap]
  constructor
  · rintro (none | some)
    · cases none
    · exact some
  · exact .inr

/-- Visits give tokens to exactly what they stand for, in whatever order they come and however
often each is made. -/
theorem contains_visitAll (wf : target.symbols.WellFormed) :
    (∀ visits session, target.visitAll visits {} = .ok () session → ∀ key,
      session.tokens.contains key = true ↔ ∃ v ∈ visits, key ∈ target.visitRefs v) ∧
    (∀ visits visits' session session', (∀ v, v ∈ visits ↔ v ∈ visits') →
      target.visitAll visits {} = .ok () session → target.visitAll visits' {} = .ok () session' →
        ∀ key, session.tokens.contains key = session'.tokens.contains key) := by
  have exact_ : ∀ visits session, target.visitAll visits {} = .ok () session → ∀ key,
      session.tokens.contains key = true ↔ ∃ v ∈ visits, key ∈ target.visitRefs v := by
    intro visits session h key
    rw [Session.reserved_iff_contains]
    exact (reserved_visitAll wf h).2 key
  refine ⟨exact_, fun visits visits' session session' same h h' key => ?_⟩
  rw [Bool.eq_iff_iff, exact_ visits session h, exact_ visits' session' h']
  simp only [same]

/-- A program with a list type and a node type nested in it in one assembly, and a type derived
from lists of numbers in another. -/
def sampleSymbols : Symbols :=
  let (app, symbols) := ({} : Symbols).addAssembly "App"
  let (main, symbols) := symbols.addModule app "Main"
  let (library, symbols) := symbols.addAssembly "Library"
  let (core, symbols) := symbols.addModule library "Core"
  let (list, symbols) := symbols.addType core (some "Collections") "List" 1
  let (node, symbols) := symbols.addNestedType list "Node" 1
  let (_, symbols) := symbols.addField node "next" (.inst node [.typeParam 0])
  let (numbers, symbols) := symbols.addType main none "Numbers" 0
  symbols.setBase numbers (.inst list [.int32])

def sample : Target := { symbols := sampleSymbols, module := ⟨0⟩ }

theorem wellFormed_sample : sample.symbols.WellFormed := by
  have inScope : ∀ {symbols : Symbols} {t : Ty}, (∀ d ∈ t.mentions, d.index < 2) →
      2 ≤ symbols.typeDefs.length → symbols.InScope t := fun ht hl d hd =>
    Nat.lt_of_lt_of_le (ht d hd) hl
  refine Symbols.WellFormed.setBase ?_ _ (inScope (by decide) (by decide))
  refine Symbols.WellFormed.addType ?_ _ _ _ _
  refine Symbols.WellFormed.addField ?_ (by decide) _ (inScope (by decide) (by decide)) _
  refine Symbols.WellFormed.addNestedType ?_ (by decide) _ _
  refine Symbols.WellFormed.addType ?_ _ _ _ _
  exact Symbols.wellFormed_empty.of_defs_eq rfl rfl rfl

def sampleVisits : List Visit :=
  [.definitions, .reference (.member (.specializedField ⟨0⟩ (.inst ⟨1⟩ [.vector .int32])))]

theorem visits_sample : ∃ session, sample.visitAll sampleVisits {} = .ok () session := by
  have ok : (sample.visitAll sampleVisits {} matches .ok ..) = true := by decide +kernel
  cases h : sample.visitAll sampleVisits {} with
  | ok u session => exact ⟨session, rfl⟩
  | error fault session => simp [h] at ok

/-- A type of the other assembly has a token, a type of the module itself has none. -/
theorem contains_visitAll_sample : ∃ session,
    sample.visitAll sampleVisits {} = .ok () session ∧
      session.tokens.contains (.type (.named ⟨0⟩)) = true ∧
      session.tokens.contains (.type (.named ⟨2⟩)) = false := by
  obtain ⟨session, h⟩ := visits_sample
  have closure := (contains_visitAll wellFormed_sample).1 sampleVisits session h
  refine ⟨session, h, (closure _).mpr (by decide +kernel), ?_⟩
  rw [← Bool.not_eq_true, closure]
  decide +kernel

end Target

end ManagedCode
