import ManagedCode.Proofs.Body.Parts
import ManagedCode.Proofs.Iterator.HoistBody
import ManagedCode.Proofs.Iterator.Nesting

namespace ManagedCode

/-! Places in a body, and where they are in the step method of its machine. -/

/-- The lists of a body whose statements are executed inside try statements that suspend. Of these
the innermost comes first. -/
inductive Stmt.InFrames (root : List Stmt) : List TryFacts → List Stmt → Prop
  | root : InFrames root [] root
  | body {around : List TryFacts} {ss list rest body : List Stmt} {id : TryId}
    {catches : List Catch} {finally? : Option (List Stmt)} {outer : Point}
    (inside : InFrames root around ss)
    (here : At ss (⟨list, .tryCatch id body catches finally? :: rest⟩ :: outer))
    (suspends : Stmt.anyYields body = true) :
    InFrames root (⟨id, true, (Stmt.tryCatch id body catches finally?).labels⟩ :: around) body

def Point.hoist (paramCount : Nat) (p : Point) : Point :=
  p.map fun scope => ⟨Stmt.hoistAll paramCount scope.stmts, Stmt.hoistAll paramCount scope.rest⟩

theorem Point.next?_hoist_eq_none {n : Nat} {p : Point} (h : p.next? = none) :
    (p.hoist n).next? = none := by
  induction p with
  | nil => rfl
  | cons scope outer ih =>
    obtain ⟨stmts, rest⟩ := scope
    cases rest with
    | nil => exact ih h
    | cons s rest => cases h

theorem Stmt.hoistAll_append (n : Nat) (ss ts : List Stmt) :
    Stmt.hoistAll n (ss ++ ts) = Stmt.hoistAll n ss ++ Stmt.hoistAll n ts := by
  induction ss with
  | nil => rfl
  | cons s ss ih => rw [List.cons_append, hoistAll, hoistAll, ih, List.cons_append]

theorem Stmt.hoistAll_suffix {n : Nat} {ss ts : List Stmt} (h : ss <:+ ts) :
    Stmt.hoistAll n ss <:+ Stmt.hoistAll n ts := by
  obtain ⟨before, rfl⟩ := h
  exact ⟨Stmt.hoistAll n before, (Stmt.hoistAll_append n before ss).symm⟩

theorem At.hoist {n : Nat} {ss : List Stmt} {p : Point} (h : At ss p) :
    At (Stmt.hoistAll n ss) (p.hoist n) := by
  induction h with
  | base h => exact .base (Stmt.hoistAll_suffix h)
  | block ho hl hi ih => exact .block ih (Stmt.hoistAll_suffix hl) (Stmt.hoistAll_suffix hi)

theorem Stmt.Scoped.at_ {ss list rest : List Stmt} {outer : Point} (whole : Stmt.Scoped ss)
    (here : At ss (⟨list, rest⟩ :: outer)) : Stmt.Scoped list :=
  here.inherits (fun around mem => (around.apart _ mem).block) whole rfl

theorem Stmt.InFrames.scoped {root ss : List Stmt} {tries : List TryFacts}
    (h : Stmt.InFrames root tries ss) (whole : Stmt.Scoped root) : Stmt.Scoped ss := by
  induction h with
  | root => exact whole
  | body inside here suspends ih =>
    exact ((ih.at_ here).apart _ (here.suffix.mem List.mem_cons_self)).inBody

theorem Stmt.mem_labels_of_body {id : TryId} {body : List Stmt} {catches : List Catch}
    {finally? : Option (List Stmt)} {l : LabelId} (hl : l ∈ Stmt.labelsAll body) :
    l ∈ (Stmt.tryCatch id body catches finally?).labels := by
  cases finally? with
  | none => exact List.mem_append_left _ hl
  | some cleanup => exact List.mem_append_left _ (List.mem_append_left _ hl)

/-- What a statement in a list defines, the list defines. -/
theorem At.mem_labelsAll {ss list rest : List Stmt} {outer : Point} {s : Stmt} {l : LabelId}
    (here : At ss (⟨list, s :: rest⟩ :: outer)) (hl : l ∈ s.labels) : l ∈ Stmt.labelsAll ss := by
  have inList : ∀ l ∈ Stmt.labelsAll list, l ∈ Stmt.labelsAll ss :=
    here.inherits (P := fun list => ∀ l ∈ Stmt.labelsAll list, l ∈ Stmt.labelsAll ss)
      (fun around mem l hl => around l (Stmt.mem_labelsAll_iff.mpr ⟨_, mem, hl⟩)) (fun _ hl => hl)
      rfl
  exact inList l (Stmt.mem_labelsAll_iff.mpr ⟨s, here.suffix.mem List.mem_cons_self, hl⟩)

/-- What a list in a body defines, the body defines. -/
theorem Stmt.InFrames.labels {root ss : List Stmt} {tries : List TryFacts}
    (h : Stmt.InFrames root tries ss) : ∀ l ∈ Stmt.labelsAll ss, l ∈ Stmt.labelsAll root := by
  induction h with
  | root => exact fun _ hl => hl
  | body inside here suspends ih =>
    exact fun l hl => ih l (here.mem_labelsAll (Stmt.mem_labels_of_body hl))

namespace Lowering

variable {plan : Plan} {site : Site}

theorem writtenAll_split {ss ts out : List Stmt} (h : WrittenAll plan site (ss ++ ts) out) :
    ∃ out₁ out₂, WrittenAll plan (site.followed (Stmt.yieldCount ts)) ss out₁ ∧
      WrittenAll plan site ts out₂ ∧ out = out₁ ++ out₂ := by
  induction ss generalizing out with
  | nil => exact ⟨[], out, writtenAll_nil .., h, rfl⟩
  | cons s ss ih =>
    rw [List.cons_append, WrittenAll] at h
    obtain ⟨first, rest, hs, hr, rfl⟩ := h
    obtain ⟨out₁, out₂, hss, hts, rfl⟩ := ih hr
    refine ⟨first ++ out₁, out₂, ?_, hts, (List.append_assoc ..).symm⟩
    rw [WrittenAll]
    refine ⟨first, out₁, ?_, hss, rfl⟩
    rwa [Site.followed_followed, ← Stmt.yieldCount_append]

/-- Each point in a written list has its counterpart. -/
theorem exists_aligned {head tail S L out : List Stmt} (hw : WrittenAll plan site S out)
    (hL : L = head ++ (out ++ tail)) {list rest : List Stmt} {outer : Point}
    (here : At S (⟨list, rest⟩ :: outer)) :
    ∃ p', Aligned plan site [] head tail S L (⟨list, rest⟩ :: outer) p' := by
  -- The statement that is a block stands before the point after it, so all points are needed.
  suffices all : ∀ {p : Point}, At S p → ∀ {list rest : List Stmt} {outer : Point},
      p = ⟨list, rest⟩ :: outer → ∀ later, later <:+ list →
        ∃ p', Aligned plan site [] head tail S L (⟨list, later⟩ :: outer) p' from
    all here rfl rest here.suffix
  intro p here
  induction here with
  | base _ =>
    rintro list rest outer ⟨⟩ later ⟨before, split⟩
    have whole := hw
    rw [← split] at whole
    obtain ⟨out₁, out₂, hb, hr, rfl⟩ := writtenAll_split whole
    exact ⟨_, .base hb hr rfl split.symm (by rw [hL, List.append_assoc])⟩
  | block ho hl hi ih =>
    rintro list rest outer ⟨⟩ later ⟨before, split⟩
    obtain ⟨p', aligned⟩ := ih rfl _ hl
    rcases aligned.next with ⟨none, -⟩ |
      ⟨stmt, s, s', around, t, t', out', around', due, hw', aligned', hs, ht, -⟩
    · cases none
    cases due
    rw [Written] at hw'
    obtain ⟨inner', hi', rfl⟩ := hw'
    rw [← split] at hi'
    obtain ⟨out₁, out₂, hb, hr, same⟩ := writtenAll_split hi'
    exact ⟨_, .block hb hr split.symm same aligned' hs ht⟩

variable {iterator : IteratorMethod} {machine : StateMachine} (a : Assembly iterator machine)

namespace Assembly

/-- The level of a list of the body that lies in try statements. -/
inductive Houses : List TryFacts → List Stmt → Level → Prop
  | root : Houses [] iterator.body.root a.outermost
  | frame {around : List TryFacts} {ss list rest body : List Stmt} {id : TryId}
    {catches : List Catch} {finally? : Option (List Stmt)} {outer : Point} {level : Level}
    (houses : Houses around ss level)
    (here : At ss (⟨list, .tryCatch id body catches finally? :: rest⟩ :: outer))
    (suspends : Stmt.anyYields body = true) (frame : level.Frame a.plan) (number : frame.id = id)
    (source : frame.body = Stmt.hoistAll iterator.body.params.length body)
    (after : frame.after = Point.hoist iterator.body.params.length (⟨list, rest⟩ :: outer)) :
    Houses (⟨id, true, (Stmt.tryCatch id body catches finally?).labels⟩ :: around) body frame.below

end Assembly

namespace Assembly.Houses

variable {a} {tries : List TryFacts} {ss : List Stmt} {level : Level}

theorem nests (h : a.Houses tries ss level) : a.Nests level := by
  induction h with
  | root => exact .root
  | frame houses here suspends frame number source after ih => exact .frame ih frame

theorem inFrames (h : a.Houses tries ss level) : Stmt.InFrames iterator.body.root tries ss := by
  induction h with
  | root => exact .root
  | frame houses here suspends frame number source after ih => exact .body ih here suspends

theorem source_eq (h : a.Houses tries ss level) :
    level.source = Stmt.hoistAll iterator.body.params.length ss := by
  cases h with
  | root => rfl
  | frame houses here suspends frame number source after => exact source

end Assembly.Houses

theorem Assembly.Nests.written {level : Level} (nests : a.Nests level) :
    ∃ out, WrittenAll a.plan level.site level.source out ∧
      level.code = level.head ++ (out ++ level.tail) := by
  cases nests with
  | root =>
    refine ⟨a.rewritten, a.written, ?_⟩
    change prologue _ _ ++ _ ++ _ ++ _ = prologue _ _ ++ (_ ++ (_ ++ _))
    rw [List.append_assoc, List.append_assoc]
  | frame around frame => exact ⟨frame.stmts, frame.written, rfl⟩

namespace Assembly

variable {a} {tries : List TryFacts} {ss list rest : List Stmt} {outer : Point}

theorem Houses.exists_aligned {level : Level} (houses : a.Houses tries ss level)
    (here : At ss (⟨list, rest⟩ :: outer)) :
    ∃ p', level.Aligns a.plan
      (Point.hoist iterator.body.params.length (⟨list, rest⟩ :: outer)) p' := by
  obtain ⟨out, written, code⟩ := houses.nests.written
  have there : At level.source _ := houses.source_eq ▸ here.hoist
  exact Lowering.exists_aligned written code there

/-- A try statement that suspends became a frame of the level that it stands in. -/
theorem Houses.exists_frame {level : Level} (houses : a.Houses tries ss level) {id : TryId}
    {body : List Stmt} {catches : List Catch} {finally? : Option (List Stmt)}
    (here : At ss (⟨list, .tryCatch id body catches finally? :: rest⟩ :: outer))
    (suspends : Stmt.anyYields body = true) :
    ∃ frame : level.Frame a.plan, frame.id = id ∧
      frame.body = Stmt.hoistAll iterator.body.params.length body ∧
      frame.after = Point.hoist iterator.body.params.length (⟨list, rest⟩ :: outer) := by
  obtain ⟨p', aligned⟩ := houses.exists_aligned here
  rcases aligned.next with ⟨none, -⟩ |
    ⟨stmt, s, s', after, t, t', out, after', due, written, aligned', hs, ht, -⟩
  · cases none
  cases due
  have yields : Stmt.anyYields (Stmt.hoistAll iterator.body.params.length body) = true := by
    rw [Stmt.anyYields_hoistAll, suspends]
  cases finally? with
  | none =>
    rw [Stmt.hoist, Written] at written
    exact absurd (written.1.symm.trans yields) nofun
  | some cleanup =>
    rw [Stmt.hoist, Written] at written
    rcases written with ⟨quiet, -⟩ |
      ⟨-, -, plain, inner, g, stmts, leave, clause, written, cleans, framed, rfl⟩
    · exact absurd (quiet.symm.trans yields) nofun
    rw [Stmt.hoist, plain] at hs
    let frame : level.Frame a.plan :=
      { inner, g, id, body := Stmt.hoistAll iterator.body.params.length body
        cleanup := Stmt.hoistAll iterator.body.params.length cleanup, stmts, leave, clause
        s := Stmt.hoistAll iterator.body.params.length list
        s' := Stmt.hoistAll iterator.body.params.length rest
        around := Point.hoist iterator.body.params.length outer, t, t', around' := after'
        written, cleans, framed, aligned := aligned', here := hs, here' := ht }
    exact ⟨frame, rfl, rfl, rfl⟩

/-- Each list that lies in try statements has its level. -/
theorem exists_houses (h : Stmt.InFrames iterator.body.root tries ss) :
    ∃ level, a.Houses tries ss level := by
  induction h with
  | root => exact ⟨_, .root⟩
  | body inside here suspends ih =>
    obtain ⟨level, houses⟩ := ih
    obtain ⟨frame, number, source, after⟩ := houses.exists_frame here suspends
    exact ⟨_, .frame houses here suspends frame number source after⟩

variable (a) in
/-- The step method is at `q` where the body is at `p`, in a list inside the try statements. -/
def Meets (tries : List TryFacts) (p q : Point) : Prop :=
  ∃ ss level p', a.Houses tries ss level ∧
    level.Aligns a.plan (p.hoist iterator.body.params.length) p' ∧ q = p' ++ level.outer

end Assembly

end Lowering

end ManagedCode
