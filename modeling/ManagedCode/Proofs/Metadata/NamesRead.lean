import ManagedCode.Proofs.Metadata.RowsByToken
import Mathlib.Data.List.TakeWhile

namespace ManagedCode

/-- What a heap of names can give back of a name: what stands before its first zero character,
since a zero byte is where every name ends. -/
def legible (name : String) : String := String.ofList (name.toList.takeWhile (· ≠ '\x00'))

theorem legible_eq_self_iff {name : String} : legible name = name ↔ '\x00' ∉ name.toList := by
  rw [← String.toList_inj, legible, String.toList_ofList, List.takeWhile_eq_self_iff]
  constructor
  · exact fun all mem => absurd rfl (of_decide_eq_true (all _ mem))
  · exact fun absent c hc => decide_eq_true fun zero => absent (zero ▸ hc)

namespace StringHeap

variable {heap later : StringHeap} {name other : String} {n m : Nat}

/-- Adds names one after the other. Gives their offsets and the heap in the end. -/
def addAll (heap : StringHeap) : List String → List Nat × StringHeap
  | [] => ([], heap)
  | name :: names =>
    let (n, later) := heap.add name
    let (offsets, last) := later.addAll names
    (n :: offsets, last)

/-- Names with an offset of their own begin behind the zero byte that the heap begins with, and no
two of them at one place. -/
structure Apart (heap : StringHeap) : Prop where
  inside : ∀ {name n}, heap.offsets.lookup name = some n → 0 < n ∧ n < heap.bytes.length
  injective : ∀ {name other n}, heap.offsets.lookup name = some n →
    heap.offsets.lookup other = some n → name = other

theorem apart_empty : Apart {} := ⟨nofun, nofun⟩

/-- A new name begins where the heap ended, which is behind all the others. -/
theorem Apart.add (apart : heap.Apart) (sound : heap.Sound) (name : String) :
    (heap.add name).2.Apart := by
  unfold StringHeap.add
  split
  · exact apart
  cases found : heap.offsets.lookup name with
  | some offset => exact apart
  | none =>
    have positive : 0 < heap.bytes.length := List.length_pos_iff.mpr fun empty => by
      have := sound.first
      rw [empty] at this
      cases this
    have entries : ∀ {other n},
        List.lookup other (heap.offsets ++ [(name, heap.bytes.length)]) = some n →
          heap.offsets.lookup other = some n ∨ other = name ∧ n = heap.bytes.length := by
      intro other n h
      rw [List.lookup_append] at h
      cases old : heap.offsets.lookup other with
      | some offset =>
        rw [old] at h
        exact .inl h
      | none =>
        rw [old, Option.none_or, List.lookup_cons] at h
        split at h
        next same => exact .inr ⟨eq_of_beq same, (Option.some.inj h).symm⟩
        next => cases h
    refine ⟨fun {other n} h => ?_, fun {other third n} h h' => ?_⟩
    · simp only [List.length_append, List.length_singleton]
      rcases entries h with old | ⟨-, rfl⟩
      · have := apart.inside old
        omega
      · omega
    · rcases entries h with old | ⟨rfl, rfl⟩ <;> rcases entries h' with old' | ⟨rfl, same⟩
      · exact apart.injective old old'
      · have := (apart.inside old).2
        omega
      · have := (apart.inside old').2
        omega
      · rfl

/-- Two names have the same offset only if they are the same. -/
theorem Gives.injective (g : heap.Gives name n) (g' : heap.Gives other n) (apart : heap.Apart) :
    name = other := by
  rcases gives_iff.mp g with ⟨rfl, rfl⟩ | ⟨-, found⟩ <;>
    rcases gives_iff.mp g' with ⟨rfl, zero⟩ | ⟨-, found'⟩
  · rfl
  · exact absurd (apart.inside found').1 (Nat.lt_irrefl 0)
  · exact absurd (zero ▸ (apart.inside found).1) (Nat.lt_irrefl 0)
  · exact apart.injective found found'

theorem Gives.unique (g : heap.Gives name n) (g' : heap.Gives name m) : n = m :=
  congrArg Prod.fst (g.symm.trans g')

/-- However many names are added, each has the offset it got when it was added. -/
theorem Sound.addAll (sound : heap.Sound) (apart : heap.Apart) (names : List String) :
    (heap.addAll names).2.Sound ∧ (heap.addAll names).2.Apart ∧
      heap.Extends (heap.addAll names).2 ∧
      List.Forall₂ (fun name n => (heap.addAll names).2.Gives name n) names
        (heap.addAll names).1 := by
  induction names generalizing heap with
  | nil => exact ⟨sound, apart, .refl heap, .nil⟩
  | cons name names ih =>
    obtain ⟨sound', grows, given⟩ := sound.add name
    obtain ⟨sound'', apart'', grows', rest⟩ := ih sound' (apart.add sound name)
    exact ⟨sound'', apart'', grows.trans grows', .cons (grows'.gives given) rest⟩

/-- An offset is a 32-bit number as long as the heap is not longer than that. -/
theorem Gives.toNat_ofNat (g : heap.Gives name n) (sound : heap.Sound)
    (small : heap.bytes.length ≤ 0x100000000) : (UInt32.ofNat n).toNat = n := by
  have inside := g.lt_length sound
  rw [UInt32.toNat_ofNat']
  omega

end StringHeap

namespace TablesImage

variable {image : TablesImage} {name : String}

/-- A column reads back as a name as far as that is legible. -/
def Spells (image : TablesImage) (name : String) (column : UInt32) : Prop :=
  image.string? column = some (legible name)

/-- Nothing but a zero character keeps a name from being read back as it is. -/
theorem Spells.eq_iff {column : UInt32} (h : image.Spells name column) :
    image.string? column = some name ↔ '\x00' ∉ name.toList := by
  rw [h, Option.some_inj, legible_eq_self_iff]

theorem spells_of_gives {strings : StringHeap} (sound : strings.Sound)
    (same : image.strings = strings.bytes) (small : image.strings.length ≤ 0x100000000) {n : Nat}
    (h : strings.Gives name n) : image.Spells name (.ofNat n) := by
  rw [Spells, string?, h.toNat_ofNat sound (same ▸ small), same]
  exact h.read? sound

theorem spells_of_names {heaps : Draft} (sound : heaps.Sound)
    (same : image.strings = heaps.strings.bytes) (small : image.strings.length ≤ 0x100000000)
    {column : UInt32} (h : heaps.Names name column) : image.Spells name column := by
  obtain ⟨n, given, rfl⟩ := h
  exact spells_of_gives sound.strings same small given

end TablesImage

/-- An image gives the names back whose offsets these are: each reads back up to its first zero
character, and so as it is just if it has none, and names share an offset just if they are the same. -/
structure TablesImage.GivesBack (image : TablesImage) (names : List String) (offsets : List Nat) :
    Prop where
  given : offsets.length = names.length
  spells : ∀ {i : Nat} {name n}, names[i]? = some name → offsets[i]? = some n →
    image.Spells name (.ofNat n)
  whole : ∀ {i : Nat} {name n}, names[i]? = some name → offsets[i]? = some n →
    (image.string? (.ofNat n) = some name ↔ '\x00' ∉ name.toList)
  shared : ∀ {i j : Nat} {name other n m}, names[i]? = some name → offsets[i]? = some n →
    names[j]? = some other → offsets[j]? = some m →
      (UInt32.ofNat n = UInt32.ofNat m ↔ name = other)

/-- The names that were added to a heap are given back from its bytes. -/
theorem TablesImage.givesBack_of_addAll {names : List String} {offsets : List Nat}
    {heap : StringHeap} {image : TablesImage} (added : StringHeap.addAll {} names = (offsets, heap))
    (small : heap.bytes.length ≤ 0x100000000) (finished : image.strings = heap.bytes) :
    image.GivesBack names offsets := by
  obtain ⟨sound, apart, -, given⟩ := StringHeap.sound_empty.addAll StringHeap.apart_empty names
  rw [added] at sound apart given
  have placed : ∀ {i : Nat} {name n}, names[i]? = some name → offsets[i]? = some n →
      heap.Gives name n := fun hn ho => by
    obtain ⟨hi, rfl⟩ := List.getElem?_eq_some_iff.mp hn
    obtain ⟨hi', rfl⟩ := List.getElem?_eq_some_iff.mp ho
    exact given.get hi hi'
  have spells : ∀ {i : Nat} {name n}, names[i]? = some name → offsets[i]? = some n →
      image.Spells name (.ofNat n) := fun hn ho =>
    spells_of_gives sound finished (finished ▸ small) (placed hn ho)
  refine ⟨given.length_eq.symm, spells, fun hn ho => (spells hn ho).eq_iff,
    fun {i j name other n m} hn ho hn' ho' => ⟨fun same => ?_, ?_⟩⟩
  · have at_ := congrArg UInt32.toNat same
    rw [(placed hn ho).toNat_ofNat sound small, (placed hn' ho').toNat_ofNat sound small] at at_
    exact (placed hn ho).injective (at_ ▸ placed hn' ho') apart
  · rintro rfl
    rw [(placed hn ho).unique (placed hn' ho')]

/-- The name of what a reference stands for, if it has one. -/
def Symbols.nameOf? (symbols : Symbols) : RefKey → Option String
  | .assembly a => some (symbols.assembly a).name
  | .module m => some (symbols.module m).name
  | .file f => some (symbols.file f).name
  | .type (.named d) => some (symbols.typeDef d).name
  | .type _ => none
  | .member member => (symbols.entityName (.ofMember member)).toOption
  | .arrayMethod kind _ => some kind.name

namespace TablesImage

variable {image : TablesImage} {target : Target} {session : Session} {heaps : Draft}

/-- A column reads back as the name of what a reference stands for. -/
def SpellsNameOf (image : TablesImage) (symbols : Symbols) (key : RefKey) (column : UInt32) : Prop :=
  ∃ name, symbols.nameOf? key = some name ∧ image.Spells name column

/-- Two columns read back as the name and the namespace of a type definition. -/
def SpellsType (image : TablesImage) (symbols : Symbols) (d : TypeDefId)
    (name nameSpace : UInt32) : Prop :=
  image.Spells (symbols.typeDef d).name name ∧
    image.Spells (symbols.typeDef d).nameSpaceText nameSpace

/-- Every name in the rows of an image reads back as that of what its row describes. -/
structure Named (image : TablesImage) (target : Target) (session : Session) : Prop where
  typeDefs : List.Forall₂ (fun d row => image.SpellsType target.symbols d row.name row.nameSpace)
    target.typeDefs image.typeDefs
  fields : List.Forall₂ (fun f row => image.Spells (target.symbols.field f).name row.name)
    target.fields image.fields
  methods : List.Forall₂ (fun m row => image.Spells (target.symbols.method m).name row.name)
    target.methods image.methods
  assemblyRefs : List.Forall₂ (fun key row => image.SpellsNameOf target.symbols key row.name)
    (session.tokens.rows .assemblyRef) image.assemblyRefs
  moduleRefs : List.Forall₂ (fun key row => image.SpellsNameOf target.symbols key row.name)
    (session.tokens.rows .moduleRef) image.moduleRefs
  files : List.Forall₂ (fun key row => image.SpellsNameOf target.symbols key row.name)
    (session.tokens.rows .file) image.files
  typeRefs : List.Forall₂ (fun key row => ∃ d, key = .type (.named d) ∧
    image.SpellsType target.symbols d row.name row.nameSpace)
      (session.tokens.rows .typeRef) image.typeRefs
  memberRefs : List.Forall₂ (fun key row => image.SpellsNameOf target.symbols key row.name)
    (session.tokens.rows .memberRef) image.memberRefs

/-- What the rows were described with is what they read back as. -/
theorem named_of_laid (laid : Layout.Laid target session heaps image)
    (spells : ∀ {name column}, heaps.Names name column → image.Spells name column) :
    image.Named target session where
  typeDefs := laid.definitions.types.imp fun _ _ ⟨named, spaced, _⟩ => ⟨spells named, spells spaced⟩
  fields := laid.definitions.fields.imp fun _ _ ⟨named, _⟩ => spells named
  methods := laid.definitions.methods.imp fun _ _ ⟨named, _⟩ => spells named
  assemblyRefs := laid.assemblyRefs.imp fun key row described => by
    cases key with
    | assembly a => exact ⟨_, rfl, spells described.1⟩
    | _ => exact described.elim
  moduleRefs := laid.moduleRefs.imp fun key row described => by
    cases key with
    | module m => exact ⟨_, rfl, spells described⟩
    | _ => exact described.elim
  files := laid.files.imp fun key row described => by
    cases key with
    | file f => exact ⟨_, rfl, spells described.1⟩
    | _ => exact described.elim
  typeRefs := laid.typeRefs.imp fun key row described => by
    cases key with
    | type t =>
      cases t with
      | named d => exact ⟨d, rfl, spells described.2.1, spells described.2.2⟩
      | _ => exact described.elim
    | _ => exact described.elim
  memberRefs := laid.memberRefs.imp fun key row described => by
    cases key with
    | member m =>
      cases m with
      | field | method | specializedField | specializedMethod =>
        exact ⟨_, rfl, spells described.2.1⟩
      | methodInstance => exact described.elim
    | arrayMethod kind arrayTy =>
      obtain ⟨method, -, -, named, -⟩ := described
      exact ⟨_, rfl, spells named⟩
    | _ => exact described.elim

end TablesImage

/-- Whatever names are added to a heap, in whatever order, the finished heap gives them back. In
every image that a session builds, the names in the rows read back in the same way as those of what
the rows describe. -/
theorem names_read_back (names : List String) (target : Target) (requests : List Request) :
    (∀ {offsets : List Nat} {heap : StringHeap} {image : TablesImage},
      StringHeap.addAll {} names = (offsets, heap) → heap.bytes.length ≤ 0x100000000 →
        image.strings = heap.bytes → image.GivesBack names offsets) ∧
    ∀ {later : Session} {image : TablesImage},
      target.symbols.Made → (∀ r ∈ requests, target.symbols.Answers r) →
      target.image (target.serveAll {} requests) = .ok image later →
        image.strings.length ≤ 0x100000000 → image.Named target (target.serveAll {} requests) := by
  refine ⟨TablesImage.givesBack_of_addAll, fun made known built small => ?_⟩
  have tidy := Target.tidy_serveAll made.wellFormed known (Session.tidy_empty target)
  obtain ⟨heaps, -, sound, laid, strings, -⟩ := Target.laid_of_image tidy built
  exact TablesImage.named_of_laid laid (TablesImage.spells_of_names sound strings small)

theorem names_read_back_catalog :
    (∃ heap, StringHeap.addAll {} ["Add", "A\x00B", "", "Add"] = ([1, 5, 0, 1], heap) ∧
      TablesImage.GivesBack { strings := heap.bytes } ["Add", "A\x00B", "", "Add"] [1, 5, 0, 1]) ∧
    ∃ image later,
      Target.catalog.image (Target.catalog.serveAll {} Target.catalogRequests) = .ok image later ∧
      image.Named Target.catalog (Target.catalog.serveAll {} Target.catalogRequests) := by
  have added : StringHeap.addAll {} ["Add", "A\x00B", "", "Add"] = ([1, 5, 0, 1],
      (StringHeap.addAll {} ["Add", "A\x00B", "", "Add"]).2) := by decide +kernel
  have small : (StringHeap.addAll {} ["Add", "A\x00B", "", "Add"]).2.bytes.length ≤ 0x100000000 := by
    decide +kernel
  have fits : (match Target.catalog.image (Target.catalog.serveAll {} Target.catalogRequests) with
      | .ok image _ => decide (image.strings.length ≤ 0x100000000)
      | .error _ _ => false) = true := by decide +kernel
  obtain ⟨image, later, built⟩ := Target.image_catalog
  rw [built] at fits
  obtain ⟨heap, rows⟩ := names_read_back ["Add", "A\x00B", "", "Add"] Target.catalog
    Target.catalogRequests
  exact ⟨⟨_, added, heap added small rfl⟩, image, later, built,
    rows Target.made_catalog Target.answers_catalog built (of_decide_eq_true fits)⟩

/-- A module with a type whose name has a zero character. -/
def Target.zeroInName : Target :=
  let (app, symbols) := ({} : Symbols).addAssembly "App"
  let (main, symbols) := symbols.addModule app "Main"
  { symbols := (symbols.addType main (some "N") "A\x00B" 0).2, module := main }

/-- Such a name does not read back, neither from the heap nor from the row of the type. -/
theorem zero_in_name_cuts :
    (∃ heap, StringHeap.addAll {} ["A\x00B"] = ([1], heap) ∧ heap.bytes.length = 5 ∧
      TablesImage.string? { strings := heap.bytes } 1 = some "A") ∧
    ∃ image later row, Target.zeroInName.image
        (Target.zeroInName.serveAll {} [.visit .definitions]) = .ok image later ∧
      Target.zeroInName.typeDefs = [⟨0⟩] ∧ image.typeDefs = [row] ∧
      (Target.zeroInName.symbols.typeDef ⟨0⟩).name = "A\x00B" ∧
      image.string? row.name = some "A" := by
  refine ⟨⟨_, rfl, by decide +kernel, by decide +kernel⟩, ?_⟩
  have written : (match Target.zeroInName.image
        (Target.zeroInName.serveAll {} [.visit .definitions]) with
      | .ok image _ => image.typeDefs.map fun row => image.string? row.name
      | .error _ _ => []) = [some "A"] := by decide +kernel
  cases built : Target.zeroInName.image (Target.zeroInName.serveAll {} [.visit .definitions]) with
  | error fault later => simp [built] at written
  | ok image later =>
    rw [built] at written
    obtain ⟨row, single, reads⟩ := List.map_eq_singleton_iff.mp written
    exact ⟨image, later, row, rfl, by decide +kernel, single, by decide +kernel, reads⟩

end ManagedCode
