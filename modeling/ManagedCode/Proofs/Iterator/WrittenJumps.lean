import ManagedCode.Proofs.Iterator.Counting
import ManagedCode.Proofs.Iterator.NativeRun

namespace ManagedCode

namespace Lowering

/-! Jumps in what was written. -/

variable {plan : Plan} {site : Site}

/-- The label that a jump names which does not stay in what was written at a site. -/
def Onward (plan : Plan) (site : Site) (targets : List LabelId) (l : LabelId) : Prop :=
  ∃ target, (target ∈ targets ∨
    target = plan.exit ∧ (site.native = true → site.result ≠ none)) ∧ site.Routed target l

theorem Onward.mono {targets more : List LabelId} {l : LabelId} (h : Onward plan site targets l)
    (less : targets ⊆ more) : Onward plan site more l :=
  let ⟨target, known, routed⟩ := h
  ⟨target, known.imp_left (less ·), routed⟩

theorem Onward.of_within {targets : List LabelId} {l : LabelId}
    (h : Onward plan site.within targets l) : Onward plan site targets l :=
  let ⟨target, known, routed⟩ := h
  ⟨target, known.imp_right fun ⟨same, answered⟩ => ⟨same, fun _ => answered rfl⟩, routed⟩

theorem Onward.of_mem {targets : List LabelId} {target l : LabelId} (routed : site.Routed target l)
    (mem : target ∈ targets) : Onward plan site targets l :=
  ⟨target, .inl mem, routed⟩

mutual

/-- The labels that a statement offers to jumps are offered still, and lie in its frame. -/
theorem Written.plain {site : Site} (s : Stmt) {out : List Stmt} (h : Written plan site s out) :
    ∀ l ∈ s.plainLabels, (site.path = [] ∨ l ∈ site.inside) ∧ l ∈ Stmt.plainLabelsAll out := by
  cases s with
  | label l =>
    rw [Written] at h
    obtain ⟨-, here, rfl⟩ := h
    intro l' hl
    cases List.mem_singleton.mp hl
    exact ⟨here, List.mem_singleton_self _⟩
  | block stmts =>
    rw [Written] at h
    obtain ⟨inner, hi, rfl⟩ := h
    rw [plainLabelsAll_singleton]
    exact WrittenAll.plain stmts hi
  | _ => exact fun l hl => absurd hl List.not_mem_nil

theorem WrittenAll.plain {site : Site} (ss : List Stmt) {out : List Stmt}
    (h : WrittenAll plan site ss out) :
    ∀ l ∈ Stmt.plainLabelsAll ss,
      (site.path = [] ∨ l ∈ site.inside) ∧ l ∈ Stmt.plainLabelsAll out := by
  cases ss with
  | nil => exact fun l hl => absurd hl List.not_mem_nil
  | cons s ss =>
    rw [WrittenAll] at h
    obtain ⟨first, rest, hs, hr, rfl⟩ := h
    intro l hl
    rw [Stmt.plainLabelsAll_append, List.mem_append]
    rcases List.mem_append.mp hl with here | later
    · exact (Written.plain s hs l here).imp_right .inl
    · exact (WrittenAll.plain ss hr l later).imp_right .inr

end

/-- A jump that leaves the written list leaves the list itself. -/
theorem Onward.leaves {ss out : List Stmt} (h : WrittenAll plan site ss out) {l : LabelId}
    (onward : Onward plan site (Stmt.targets ss) l) (away : l ∉ Stmt.plainLabelsAll out) :
    Onward plan site (Stmt.escapesAll ss) l := by
  obtain ⟨target, known, routed⟩ := onward
  refine ⟨target, known.imp_left fun mem => mem_unresolved.mpr ⟨mem, fun plain => away ?_⟩, routed⟩
  obtain ⟨inside, defined⟩ := WrittenAll.plain ss h target plain
  rcases routed with ⟨-, rfl⟩ | ⟨nested, outside, -⟩
  · exact defined
  · exact (inside.elim nested outside).elim

theorem Sections.targets {outer : Site} {g : Nat} {proxies : List (LabelId × LabelId)}
    {out : List Stmt} (h : Sections outer g proxies out) {l : LabelId} (hl : l ∈ Stmt.targets out) :
    ∃ pair ∈ proxies, outer.Routed pair.1 l := by
  induction proxies generalizing out with
  | nil =>
    cases h
    cases hl
  | cons pair rest ih =>
    obtain ⟨target, proxy⟩ := pair
    obtain ⟨next, tail, routed, more, rfl⟩ := h
    rcases List.mem_cons.mp hl with rfl | later
    · exact ⟨_, List.mem_cons_self, routed⟩
    · obtain ⟨pair, mem, routed⟩ := ih more later
      exact ⟨pair, List.mem_cons_of_mem _ mem, routed⟩

theorem Sections.plain {outer : Site} {g : Nat} {proxies : List (LabelId × LabelId)}
    {out : List Stmt} (h : Sections outer g proxies out) {pair : LabelId × LabelId}
    (mem : pair ∈ proxies) : pair.2 ∈ Stmt.plainLabelsAll out := by
  induction proxies generalizing out with
  | nil => cases mem
  | cons first rest ih =>
    obtain ⟨next, tail, -, more, rfl⟩ := h
    change pair.2 ∈ first.2 :: Stmt.plainLabelsAll tail
    rcases List.mem_cons.mp mem with rfl | later
    · exact List.mem_cons_self
    · exact List.mem_cons_of_mem _ (ih more later)

/-- The end of a frame offers all its proxies. -/
theorem Leaving.plain {outer : Site} {g : Nat} {proxies : List (LabelId × LabelId)} {out : List Stmt}
    (h : Leaving outer g proxies out) {pair : LabelId × LabelId} (mem : pair ∈ proxies) :
    pair.2 ∈ Stmt.plainLabelsAll out := by
  rcases h with ⟨rfl, -⟩ | ⟨drop, sections, more, rfl⟩
  · cases mem
  · change pair.2 ∈ Stmt.plainLabelsAll (sections ++ _)
    rw [Stmt.plainLabelsAll_append]
    exact List.mem_append_left _ (more.plain mem)

/-- The jumps at the end of a frame go on from its proxies, or stay there. -/
theorem Leaving.targets {outer : Site} {g : Nat} {proxies : List (LabelId × LabelId)}
    {out : List Stmt} (h : Leaving outer g proxies out) {l : LabelId} (hl : l ∈ Stmt.targets out)
    (away : l ∉ Stmt.plainLabelsAll out) : ∃ pair ∈ proxies, outer.Routed pair.1 l := by
  rcases h with ⟨-, rfl⟩ | ⟨drop, sections, more, rfl⟩
  · cases hl
  · change l ∉ Stmt.plainLabelsAll (sections ++ _) at away
    rw [Stmt.plainLabelsAll_append] at away
    rcases List.mem_cons.mp hl with rfl | later
    · exact absurd (List.mem_append_right _ List.mem_cons_self) away
    · change l ∈ Stmt.targets (sections ++ _) at later
      rw [Stmt.targets_append] at later
      rcases List.mem_append.mp later with inside | none
      · exact more.targets inside
      · cases none

/-- A jump that leaves the block of a frame leaves the try statement, from the site around it. -/
theorem Framed.jumps {outer inner : Site} {g : Nat} {id : TryId}
    {body stmts cleanup leave clause : List Stmt} (exit : plan.base ≤ plan.exit.index)
    (framed : Framed plan outer inner g id body cleanup leave clause) (native : outer.native = false)
    (written : WrittenAll plan inner body stmts)
    (onward : ∀ l ∈ Stmt.targets stmts, Onward plan inner (Stmt.targets body) l) {l : LabelId}
    (hl : l ∈ Stmt.targets (stmts ++ leave)) (away : l ∉ Stmt.plainLabelsAll (stmts ++ leave)) :
    Onward plan outer (Stmt.escapesAll body) l := by
  have allowed : plan.exit = plan.exit ∧ (outer.native = true → outer.result ≠ none) :=
    ⟨rfl, fun some => by rw [native] at some; cases some⟩
  rw [Stmt.plainLabelsAll_append, List.mem_append, not_or] at away
  rw [Stmt.targets_append] at hl
  rcases List.mem_append.mp hl with inBody | inLeave
  · obtain ⟨target, known, routed⟩ := (onward l inBody).leaves written away.1
    rcases routed with ⟨here, -⟩ | ⟨-, -, proxied⟩
    · rcases here with root | inside
      · rw [framed.path] at root
        cases root
      · rcases known with mem | ⟨rfl, -⟩
        · exact absurd inside (framed.out target mem)
        · exact absurd (framed.below _ inside) (Nat.not_lt.mpr exit)
    · exact absurd (framed.leaving.plain proxied) away.2
  · obtain ⟨pair, mem, routed⟩ := framed.leaving.targets inLeave away.2
    refine ⟨pair.1, ?_, routed⟩
    rcases framed.targets pair mem with escapes | same
    · exact .inl escapes
    · exact .inr (same ▸ allowed)

theorem targets_singleton (s : Stmt) : Stmt.targets [s] = s.escapes := List.append_nil _

theorem onward_cases {cases cases' : List (Int64 × LabelId)}
    (h : List.Forall₂ (fun x y => y.1 = x.1 ∧ site.Routed x.2 y.2) cases cases') :
    ∀ l ∈ cases'.map (·.2), Onward plan site (cases.map (·.2)) l := by
  induction h with
  | nil => exact fun l hl => absurd hl List.not_mem_nil
  | cons first rest ih =>
    intro l hl
    rcases List.mem_cons.mp hl with rfl | later
    · exact .of_mem first.2 List.mem_cons_self
    · exact (ih l later).mono (List.subset_cons_self _ _)

theorem onward_default {default? default' : Option LabelId}
    (h : Option.Rel site.Routed default? default') :
    ∀ l ∈ default'.toList, Onward plan site default?.toList l := by
  cases h with
  | none => exact fun l hl => absurd hl List.not_mem_nil
  | some routed =>
    intro l hl
    cases List.mem_singleton.mp hl
    exact .of_mem routed (List.mem_singleton_self _)

/-- A list in a statement that does not suspend. -/
theorem onward_within {ss out : List Stmt} (h : WrittenAll plan site.within ss out)
    (jumps : ∀ l ∈ Stmt.targets out, Onward plan site.within (Stmt.targets ss) l) :
    ∀ l ∈ Stmt.escapesAll out, Onward plan site (Stmt.escapesAll ss) l := fun l hl =>
  let ⟨target, away⟩ := mem_unresolved.mp hl
  ((jumps l target).leaves h away).of_within

mutual

/-- The jumps of a statement lead on as they should, once it was written. -/
theorem Written.jumps (exit : plan.base ≤ plan.exit.index) {site : Site} (s : Stmt) {out : List Stmt}
    (h : Written plan site s out) : ∀ l ∈ Stmt.targets out, Onward plan site s.escapes l := by
  cases s with
  | block stmts =>
    rw [Written] at h
    obtain ⟨inner, hi, rfl⟩ := h
    intro l hl
    rw [targets_singleton] at hl
    obtain ⟨target, away⟩ := mem_unresolved.mp hl
    exact (WrittenAll.jumps exit stmts hi l target).leaves hi away
  | expr | throw =>
    rw [Written] at h
    obtain ⟨-, rfl⟩ := h
    exact fun l hl => absurd hl List.not_mem_nil
  | assign | label =>
    rw [Written] at h
    obtain ⟨-, -, rfl⟩ := h
    exact fun l hl => absurd hl List.not_mem_nil
  | nop =>
    rw [Written] at h
    subst h
    exact fun l hl => absurd hl List.not_mem_nil
  | goto target =>
    rw [Written] at h
    obtain ⟨l, routed, rfl⟩ := h
    intro l' hl
    cases List.mem_singleton.mp hl
    exact .of_mem routed (List.mem_singleton_self _)
  | condGoto cond jumpIf target =>
    rw [Written] at h
    obtain ⟨-, l, routed, rfl⟩ := h
    intro l' hl
    cases List.mem_singleton.mp hl
    exact .of_mem routed (List.mem_singleton_self _)
  | switch scrutinee cases default? =>
    rw [Written] at h
    obtain ⟨-, cases', default', hc, hd, rfl⟩ := h
    intro l hl
    rw [targets_singleton] at hl
    rcases List.mem_append.mp hl with chosen | other
    · exact (onward_cases hc l chosen).mono (List.subset_append_left _ _)
    · exact (onward_default hd l other).mono (List.subset_append_right _ _)
  | ret value =>
    rw [Written] at h
    obtain ⟨-, ⟨-, result, l, made, routed, rfl⟩ | ⟨-, -, rfl⟩⟩ := h
    · intro l' hl
      cases List.mem_singleton.mp hl
      exact ⟨plan.exit, .inr ⟨rfl, fun _ => by rw [made]; exact nofun⟩, routed⟩
    · exact fun l hl => absurd hl List.not_mem_nil
  | yield value =>
    rw [Written] at h
    obtain ⟨-, -, k, resume, around, -, -, -, -, -, rfl⟩ := h
    exact fun l hl => absurd hl List.not_mem_nil
  | yieldBreak =>
    rw [Written] at h
    exact h.elim
  | tryCatch id body catches cleanup =>
    cases cleanup with
    | none =>
      rw [Written] at h
      obtain ⟨-, body', catches', hb, hc, rfl⟩ := h
      intro l hl
      rw [targets_singleton] at hl
      rcases List.mem_append.mp hl with inBody | inCatches
      · exact (onward_within hb (WrittenAll.jumps exit body hb) l inBody).mono
          (List.subset_append_left _ _)
      · exact (WrittenCatches.jumps exit catches hc l inCatches).of_within.mono
          (List.subset_append_right _ _)
    | some cleanup =>
      rw [Written] at h
      obtain ⟨-, body', catches', cleanup', hb, hc, hf, rfl⟩ |
        ⟨-, native, rfl, inner, g, stmts, leave, clause, hb, -, framed, rfl⟩ := h
      · intro l hl
        rw [targets_singleton] at hl
        rcases List.mem_append.mp hl with first | inCleanup
        · rcases List.mem_append.mp first with inBody | inCatches
          · exact (onward_within hb (WrittenAll.jumps exit body hb) l inBody).mono
              (List.Subset.trans (List.subset_append_left _ _) (List.subset_append_left _ _))
          · exact (WrittenCatches.jumps exit catches hc l inCatches).of_within.mono
              (List.Subset.trans (List.subset_append_right _ _) (List.subset_append_left _ _))
        · exact (onward_within hf (WrittenAll.jumps exit cleanup hf) l inCleanup).mono
            (List.subset_append_right _ _)
      · intro l hl
        rw [targets_singleton] at hl
        obtain ⟨target, away⟩ := mem_unresolved.mp hl
        exact (framed.jumps exit native hb (WrittenAll.jumps exit body hb) target away).mono
          (List.Subset.trans (List.subset_append_left _ _) (List.subset_append_left _ _))
  | tryFault body fault =>
    rw [Written] at h
    obtain ⟨body', fault', hb, hf, rfl⟩ := h
    intro l hl
    rw [targets_singleton] at hl
    rcases List.mem_append.mp hl with inBody | inFault
    · exact (onward_within hb (WrittenAll.jumps exit body hb) l inBody).mono
        (List.subset_append_left _ _)
    · exact (onward_within hf (WrittenAll.jumps exit fault hf) l inFault).mono
        (List.subset_append_right _ _)

theorem WrittenAll.jumps (exit : plan.base ≤ plan.exit.index) {site : Site} (ss : List Stmt)
    {out : List Stmt} (h : WrittenAll plan site ss out) :
    ∀ l ∈ Stmt.targets out, Onward plan site (Stmt.targets ss) l := by
  cases ss with
  | nil =>
    rw [WrittenAll] at h
    subst h
    exact fun l hl => absurd hl List.not_mem_nil
  | cons s ss =>
    rw [WrittenAll] at h
    obtain ⟨first, rest, hs, hr, rfl⟩ := h
    intro l hl
    rw [Stmt.targets_append] at hl
    rcases List.mem_append.mp hl with here | later
    · have onward : Onward plan site s.escapes l := Written.jumps exit s hs l here
      exact onward.mono (List.subset_append_left _ _)
    · exact (WrittenAll.jumps exit ss hr l later).mono (List.subset_append_right _ _)

theorem WrittenCatches.jumps (exit : plan.base ≤ plan.exit.index) {site : Site} (cs : List Catch)
    {out : List Catch} (h : WrittenCatches plan site cs out) :
    ∀ l ∈ Catch.escapesAll out, Onward plan site (Catch.escapesAll cs) l := by
  cases cs with
  | nil =>
    rw [WrittenCatches] at h
    subst h
    exact fun l hl => absurd hl List.not_mem_nil
  | cons c cs =>
    rw [WrittenCatches] at h
    obtain ⟨first, rest, hc, hr, rfl⟩ := h
    obtain ⟨exceptionTy, caught, body⟩ := c
    have later : ∀ l ∈ Catch.escapesAll rest,
        Onward plan site (Catch.escapesAll (.mk exceptionTy caught body :: cs)) l := fun l hl =>
      (WrittenCatches.jumps exit cs hr l hl).mono (List.subset_append_right _ _)
    cases caught with
    | none =>
      rw [WrittenCatch] at hc
      obtain ⟨body', hb, rfl⟩ := hc
      intro l hl
      rcases List.mem_append.mp hl with here | other
      · obtain ⟨target, away⟩ := mem_unresolved.mp here
        exact ((WrittenAll.jumps exit body hb l target).leaves hb away).mono
          (List.subset_append_left _ _)
      · exact later l other
    | some caught =>
      obtain ⟨place, rest', temp, body', same, hb, -, -, rfl⟩ := writtenCatch_some hc
      cases body with
      | nil => cases same
      | cons s body =>
      obtain ⟨rfl, rfl⟩ := List.cons.inj same
      intro l hl
      rcases List.mem_append.mp hl with here | other
      · obtain ⟨target, away⟩ := mem_unresolved.mp here
        exact ((WrittenAll.jumps exit body hb l target).leaves hb away).mono
          (List.subset_append_left _ _)
      · exact later l other

end

/-! The labels to go on from. -/

theorem Stmt.length_yieldSites_cons (s : Stmt) (ss : List Stmt) :
    Stmt.yieldCount (s :: ss) = (s.yieldSites []).length + Stmt.yieldCount ss :=
  List.length_append

mutual

/-- The label to go on from after each yield is offered to jumps. -/
theorem Written.resumes {site : Site} (s : Stmt) {out : List Stmt} (h : Written plan site s out)
    {k : Nat} (low : plan.yields.length ≤ k + site.left + (s.yieldSites []).length)
    (high : k + site.left < plan.yields.length) :
    ∃ resume ∈ Stmt.plainLabelsAll out, plan.resumeLabels[k + 1]? = some resume := by
  cases s with
  | block stmts =>
    rw [Written] at h
    obtain ⟨inner, hi, rfl⟩ := h
    rw [plainLabelsAll_singleton]
    exact WrittenAll.resumes stmts hi low high
  | yield value =>
    rw [Written] at h
    obtain ⟨-, -, k', resume, around, found, -, -, number, -, rfl⟩ := h
    have same : k' = k := by
      change plan.yields.length ≤ k + site.left + 1 at low
      omega
    subst same
    exact ⟨resume, List.mem_singleton_self _, found⟩
  | tryCatch id body catches cleanup =>
    have length : ((Stmt.tryCatch id body catches cleanup).yieldSites []).length =
        Stmt.yieldCount body := Stmt.length_yieldSitesAll body [id]
    have native : Stmt.anyYields body = false → ¬plan.yields.length ≤
        k + site.left + ((Stmt.tryCatch id body catches cleanup).yieldSites []).length := by
      intro none
      have empty : Stmt.yieldCount body = 0 := congrArg List.length (yieldSitesAll_eq_nil body none)
      omega
    cases cleanup with
    | none =>
      rw [Written] at h
      exact absurd low (native h.1)
    | some cleanup =>
      rw [Written] at h
      obtain ⟨none, -⟩ | ⟨-, -, -, inner, g, stmts, leave, clause, hb, -, framed, rfl⟩ := h
      · exact absurd low (native none)
      · rw [length, ← framed.left] at low
        rw [← framed.left] at high
        obtain ⟨resume, mem, found⟩ := WrittenAll.resumes body hb low high
        refine ⟨resume, ?_, found⟩
        rw [plainLabelsAll_singleton]
        change resume ∈ Stmt.plainLabelsAll (stmts ++ leave)
        rw [Stmt.plainLabelsAll_append]
        exact List.mem_append_left _ mem
  | _ => exact absurd low (Nat.not_le.mpr high)

theorem WrittenAll.resumes {site : Site} (ss : List Stmt) {out : List Stmt}
    (h : WrittenAll plan site ss out) {k : Nat}
    (low : plan.yields.length ≤ k + site.left + Stmt.yieldCount ss)
    (high : k + site.left < plan.yields.length) :
    ∃ resume ∈ Stmt.plainLabelsAll out, plan.resumeLabels[k + 1]? = some resume := by
  cases ss with
  | nil => exact absurd low (Nat.not_le.mpr high)
  | cons s ss =>
    rw [WrittenAll] at h
    obtain ⟨first, rest, hs, hr, rfl⟩ := h
    rw [Stmt.length_yieldSites_cons] at low
    have left : (site.followed (Stmt.yieldCount ss)).left = site.left + Stmt.yieldCount ss := rfl
    rw [Stmt.plainLabelsAll_append]
    by_cases here : k + site.left + Stmt.yieldCount ss < plan.yields.length
    · obtain ⟨resume, mem, found⟩ := Written.resumes s hs (k := k) (by omega) (by omega)
      exact ⟨resume, List.mem_append_left _ mem, found⟩
    · obtain ⟨resume, mem, found⟩ := WrittenAll.resumes ss hr (by omega) high
      exact ⟨resume, List.mem_append_right _ mem, found⟩

end

/-! The handlers. -/

/-- No jump leads out of the handler of a frame. -/
theorem Framed.handler_closed {outer inner : Site} {g : Nat} {id : TryId}
    {body cleanup leave clause : List Stmt} (exit : plan.base ≤ plan.exit.index)
    (framed : Framed plan outer inner g id body cleanup leave clause)
    (written : WrittenAll plan outer.cleaning cleanup clause) :
    Stmt.escapesAll (setState outer.state :: clause ++ [.ret none]) = [] := by
  refine List.eq_nil_iff_forall_not_mem.mpr fun l hl => ?_
  obtain ⟨target, away⟩ := mem_unresolved.mp hl
  change l ∈ Stmt.targets (clause ++ _) at target
  change l ∉ Stmt.plainLabelsAll (clause ++ _) at away
  rw [Stmt.targets_append] at target
  rw [Stmt.plainLabelsAll_append, List.mem_append, not_or] at away
  rcases List.mem_append.mp target with inClause | other
  · obtain ⟨target, known, -⟩ :=
      (WrittenAll.jumps exit cleanup written l inClause).leaves written away.1
    rw [framed.closed] at known
    rcases known with mem | ⟨-, answered⟩
    · cases mem
    · exact answered rfl rfl
  · cases other

mutual

/-- Nothing suspends where nothing may. -/
theorem Written.quiet {site : Site} (native : site.native = true) (s : Stmt) {out : List Stmt}
    (h : Written plan site s out) : s.yields = false := by
  cases s with
  | block stmts =>
    rw [Written] at h
    obtain ⟨inner, hi, rfl⟩ := h
    exact WrittenAll.quiet native stmts hi
  | yield value =>
    rw [Written] at h
    exact absurd (native.symm.trans h.1) nofun
  | tryCatch id body catches cleanup =>
    cases cleanup with
    | none =>
      rw [Written] at h
      obtain ⟨quiet, _, _, -, hc, -⟩ := h
      exact Bool.or_eq_false_iff.mpr ⟨quiet, WrittenCatches.quiet rfl catches hc⟩
    | some cleanup =>
      rw [Written] at h
      obtain ⟨quiet, _, _, _, -, hc, hf, -⟩ | ⟨-, suspends, -⟩ := h
      · exact Bool.or_eq_false_iff.mpr ⟨Bool.or_eq_false_iff.mpr
          ⟨quiet, WrittenCatches.quiet rfl catches hc⟩, WrittenAll.quiet rfl cleanup hf⟩
      · exact absurd (native.symm.trans suspends) nofun
  | tryFault body fault =>
    rw [Written] at h
    obtain ⟨_, _, hb, hf, -⟩ := h
    exact Bool.or_eq_false_iff.mpr ⟨WrittenAll.quiet rfl body hb, WrittenAll.quiet rfl fault hf⟩
  | _ => rfl

theorem WrittenAll.quiet {site : Site} (native : site.native = true) (ss : List Stmt)
    {out : List Stmt} (h : WrittenAll plan site ss out) : Stmt.anyYields ss = false := by
  cases ss with
  | nil => rfl
  | cons s ss =>
    rw [WrittenAll] at h
    obtain ⟨first, rest, hs, hr, rfl⟩ := h
    have here : (site.followed (Stmt.yieldCount ss)).native = true := native
    exact Bool.or_eq_false_iff.mpr ⟨Written.quiet here s hs, WrittenAll.quiet native ss hr⟩

theorem WrittenCatches.quiet {site : Site} (native : site.native = true) (cs : List Catch)
    {out : List Catch} (h : WrittenCatches plan site cs out) : Catch.anyYields cs = false := by
  cases cs with
  | nil => rfl
  | cons c cs =>
    rw [WrittenCatches] at h
    obtain ⟨first, rest, hc, hr, rfl⟩ := h
    obtain ⟨exceptionTy, caught, body⟩ := c
    refine Bool.or_eq_false_iff.mpr ⟨?_, WrittenCatches.quiet native cs hr⟩
    cases caught with
    | none =>
      rw [WrittenCatch] at hc
      obtain ⟨body', hb, rfl⟩ := hc
      exact WrittenAll.quiet native body hb
    | some caught =>
      obtain ⟨place, rest', temp, body', same, hb, -⟩ := writtenCatch_some hc
      cases body with
      | nil => cases same
      | cons s body =>
      obtain ⟨rfl, rfl⟩ := List.cons.inj same
      exact WrittenAll.quiet native body hb

end

/-- A frame whose handler no jump leads out of. -/
def Handled (plan : Plan) (id : TryId) : Prop :=
  ∃ (g : Nat) (code : List Stmt), plan.tries[g]? = some id ∧ plan.handlers[g]? = some code ∧
    Stmt.escapesAll code = []

mutual

theorem Written.handled (exit : plan.base ≤ plan.exit.index) {site : Site} (s : Stmt)
    {out : List Stmt} (h : Written plan site s out) : ∀ id ∈ frameIds s.tries, Handled plan id := by
  cases s with
  | block stmts =>
    rw [Written] at h
    obtain ⟨inner, hi, rfl⟩ := h
    exact WrittenAll.handled exit stmts hi
  | tryCatch id body catches cleanup =>
    cases cleanup with
    | none =>
      rw [Written] at h
      obtain ⟨quiet, _, _, hb, hc, -⟩ := h
      rw [frameIds_tryCatch (Bool.or_eq_false_iff.mpr ⟨quiet, WrittenCatches.quiet rfl catches hc⟩)]
      intro id' hid
      rcases List.mem_append.mp hid with inBody | inCatches
      · exact WrittenAll.handled exit body hb id' inBody
      · exact WrittenCatches.handled exit catches hc id' inCatches
    | some cleanup =>
      rw [Written] at h
      obtain ⟨quiet, _, _, _, hb, hc, hf, -⟩ |
        ⟨suspends, -, rfl, inner, g, stmts, leave, clause, hb, hf, framed, -⟩ := h
      · rw [frameIds_tryFinally (Bool.or_eq_false_iff.mpr ⟨Bool.or_eq_false_iff.mpr
          ⟨quiet, WrittenCatches.quiet rfl catches hc⟩, WrittenAll.quiet rfl cleanup hf⟩)]
        intro id' hid
        rcases List.mem_append.mp hid with first | inCleanup
        · rcases List.mem_append.mp first with inBody | inCatches
          · exact WrittenAll.handled exit body hb id' inBody
          · exact WrittenCatches.handled exit catches hc id' inCatches
        · exact WrittenAll.handled exit cleanup hf id' inCleanup
      · have yields : (Stmt.tryCatch id body [] (some cleanup)).yields = true := by
          change (Stmt.anyYields body || false || _) = true
          rw [suspends]
          rfl
        rw [frameIds_frame yields]
        intro id' hid
        rcases List.mem_cons.mp hid with rfl | rest
        · exact ⟨g, _, framed.number, framed.handler, framed.handler_closed exit hf⟩
        · rcases List.mem_append.mp rest with inBody | inCleanup
          · exact WrittenAll.handled exit body hb id' inBody
          · exact WrittenAll.handled exit cleanup hf id' inCleanup
  | tryFault body fault =>
    rw [Written] at h
    obtain ⟨_, _, hb, hf, -⟩ := h
    rw [Stmt.tries, frameIds_append]
    intro id' hid
    rcases List.mem_append.mp hid with inBody | inFault
    · exact WrittenAll.handled exit body hb id' inBody
    · exact WrittenAll.handled exit fault hf id' inFault
  | _ => exact fun id hid => absurd hid List.not_mem_nil

theorem WrittenAll.handled (exit : plan.base ≤ plan.exit.index) {site : Site} (ss : List Stmt)
    {out : List Stmt} (h : WrittenAll plan site ss out) :
    ∀ id ∈ frameIds (Stmt.triesAll ss), Handled plan id := by
  cases ss with
  | nil => exact fun id hid => absurd hid List.not_mem_nil
  | cons s ss =>
    rw [WrittenAll] at h
    obtain ⟨first, rest, hs, hr, rfl⟩ := h
    rw [Stmt.triesAll, frameIds_append]
    intro id hid
    rcases List.mem_append.mp hid with here | later
    · exact Written.handled exit s hs id here
    · exact WrittenAll.handled exit ss hr id later

theorem WrittenCatches.handled (exit : plan.base ≤ plan.exit.index) {site : Site} (cs : List Catch)
    {out : List Catch} (h : WrittenCatches plan site cs out) :
    ∀ id ∈ frameIds (Catch.triesAll cs), Handled plan id := by
  cases cs with
  | nil => exact fun id hid => absurd hid List.not_mem_nil
  | cons c cs =>
    rw [WrittenCatches] at h
    obtain ⟨first, rest, hc, hr, rfl⟩ := h
    obtain ⟨exceptionTy, caught, body⟩ := c
    rw [Catch.triesAll, frameIds_append]
    intro id hid
    rcases List.mem_append.mp hid with here | later
    · cases caught with
      | none =>
        rw [WrittenCatch] at hc
        obtain ⟨body', hb, rfl⟩ := hc
        exact WrittenAll.handled exit body hb id here
      | some caught =>
        obtain ⟨place, rest', temp, body', same, hb, -⟩ := writtenCatch_some hc
        cases body with
        | nil => cases same
        | cons s body =>
        obtain ⟨rfl, rfl⟩ := List.cons.inj same
        exact WrittenAll.handled exit body hb id here
    · exact WrittenCatches.handled exit cs hr id later

end

end Lowering

end ManagedCode
