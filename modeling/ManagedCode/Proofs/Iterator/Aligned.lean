import ManagedCode.Proofs.Iterator.Written

namespace ManagedCode

namespace Lowering

variable {plan : Plan} {site : Site}

theorem writtenAll_nil (plan : Plan) (site : Site) : WrittenAll plan site [] [] := by
  rw [WrittenAll]

theorem writtenAll_append {ss ts out out' : List Stmt}
    (h : WrittenAll plan (site.followed (Stmt.yieldCount ts)) ss out)
    (h' : WrittenAll plan site ts out') : WrittenAll plan site (ss ++ ts) (out ++ out') := by
  induction ss generalizing out with
  | nil =>
    rw [WrittenAll] at h
    subst h
    exact h'
  | cons s ss ih =>
    rw [WrittenAll] at h
    obtain ⟨first, rest, hs, hr, rfl⟩ := h
    rw [Site.followed_followed, ← Stmt.yieldCount_append] at hs
    rw [List.cons_append, WrittenAll]
    exact ⟨first, rest ++ out', hs, ih hr, List.append_assoc ..⟩

theorem writtenAll_singleton {s : Stmt} {out : List Stmt} (h : Written plan site s out) :
    WrittenAll plan site [s] out := by
  rw [WrittenAll]
  exact ⟨out, [], h, by rw [WrittenAll], (List.append_nil _).symm⟩

theorem writtenAll_concat {s : Stmt} {ss rest out one : List Stmt}
    (h : WrittenAll plan (site.followed (Stmt.yieldCount (s :: rest))) ss out)
    (hs : Written plan (site.followed (Stmt.yieldCount rest)) s one) :
    WrittenAll plan (site.followed (Stmt.yieldCount rest)) (ss ++ [s]) (out ++ one) := by
  rw [Stmt.yieldCount_cons, ← Site.followed_followed] at h
  exact writtenAll_append h (writtenAll_singleton hs)

/-- A point in the list `S` of a body and the point that corresponds to it in the list `L`, which
has the statements after `pre` written between `head` and `tail`. -/
inductive Aligned (plan : Plan) (site : Site) (pre head tail S L : List Stmt) :
    Point → Point → Prop
  | base {before rest out out' : List Stmt}
    (hb : WrittenAll plan (site.followed (Stmt.yieldCount rest)) before out)
    (hr : WrittenAll plan site rest out') (hp : Stmt.plainLabelsAll pre = [])
    (hS : S = pre ++ (before ++ rest)) (hL : L = head ++ (out ++ (out' ++ tail))) :
    Aligned plan site pre head tail S L [⟨S, rest⟩] [⟨L, out' ++ tail⟩]
  | block {before rest out out' inner inner' s t s' t' : List Stmt} {outer outer' : Point}
    (hb : WrittenAll plan ((site.followed (Point.yieldCount (⟨s, s'⟩ :: outer))).followed
      (Stmt.yieldCount rest)) before out)
    (hr : WrittenAll plan (site.followed (Point.yieldCount (⟨s, s'⟩ :: outer))) rest out')
    (hi : inner = before ++ rest) (hi' : inner' = out ++ out')
    (ho : Aligned plan site pre head tail S L (⟨s, s'⟩ :: outer) (⟨t, t'⟩ :: outer'))
    (hs : .block inner :: s' <:+ s) (ht : .block inner' :: t' <:+ t) :
    Aligned plan site pre head tail S L (⟨inner, rest⟩ :: ⟨s, s'⟩ :: outer)
      (⟨inner', out'⟩ :: ⟨t, t'⟩ :: outer')

namespace Aligned

variable {pre head tail S L : List Stmt} {p p' : Point}

/-- In a root list the corresponding point is at home. -/
theorem at_ {top : List Stmt} {outer : Point} (h : Aligned plan site pre head tail S L p p')
    (rooted : Rooted top L outer) : At top (p' ++ outer) := by
  induction h with
  | base hb hr hp hS hL =>
    rename_i out out'
    exact rooted _ ⟨head ++ out, by rw [hL, List.append_assoc]⟩
  | block hb hr hi hi' ho hs ht ih => exact .block ih ht ⟨_, hi'.symm⟩

/-- What is due at aligned points: either both lists are through, or the first statement, at
points that are aligned again once it is done. -/
theorem next (h : Aligned plan site pre head tail S L p p') :
    (p.next? = none ∧ ∀ outer, (p' ++ outer).next? = Point.next? (⟨L, tail⟩ :: outer)) ∨
    ∃ stmt s s' outer t t' out outer',
      p.next? = some (stmt, ⟨s, s'⟩ :: outer) ∧
      Written plan (site.followed (Point.yieldCount (⟨s, s'⟩ :: outer))) stmt out ∧
      Aligned plan site pre head tail S L (⟨s, s'⟩ :: outer) (⟨t, t'⟩ :: outer') ∧
      stmt :: s' <:+ s ∧ out ++ t' <:+ t ∧
      ∀ outer, (p' ++ outer).next? = Point.next? (⟨t, out ++ t'⟩ :: (outer' ++ outer)) := by
  induction h with
  | base hb hr hp hS hL =>
    rename_i before rest out out'
    cases rest with
    | nil =>
      rw [WrittenAll] at hr
      subst hr
      exact .inl ⟨rfl, fun _ => rfl⟩
    | cons stmt rest =>
      rw [WrittenAll] at hr
      obtain ⟨first, rest', hw, hr', rfl⟩ := hr
      refine .inr ⟨stmt, S, rest, [], L, rest' ++ tail, first, [], rfl, hw, ?_, ?_, ?_, ?_⟩
      · refine .base (writtenAll_concat hb hw) hr' hp ?_ ?_
        · rw [hS, List.append_assoc]
          rfl
        · rw [hL]
          simp only [List.append_assoc]
      · exact ⟨pre ++ before, by rw [hS, List.append_assoc]⟩
      · refine ⟨head ++ out, ?_⟩
        rw [hL]
        simp only [List.append_assoc]
      · intro outer
        rw [List.append_assoc]
        rfl
  | block hb hr hi hi' ho hs ht ih =>
    rename_i before rest out out' inner inner' s t s' t' outer outer'
    cases rest with
    | nil =>
      rw [WrittenAll] at hr
      subst hr
      exact ih
    | cons stmt rest =>
      rw [WrittenAll] at hr
      obtain ⟨one, rest', hw, hr', rfl⟩ := hr
      refine .inr ⟨stmt, inner, rest, ⟨s, s'⟩ :: outer, inner', rest', one, ⟨t, t'⟩ :: outer',
        rfl, ?_, ?_, ⟨before, hi.symm⟩, ⟨out, hi'.symm⟩, fun _ => rfl⟩
      · rwa [Site.followed_followed, ← Point.yieldCount_cons ⟨inner, rest⟩] at hw
      refine .block (writtenAll_concat hb hw) hr' ?_ ?_ ho hs ht
      · rw [hi, List.append_assoc]
        rfl
      · rw [hi', List.append_assoc]

/-- Aligned points in two lists are aligned around them where the lists are blocks. -/
theorem nest {inner inner' s s' t t' : List Stmt} {outer outer' : Point}
    (h : Aligned plan (site.followed (Point.yieldCount (⟨s, s'⟩ :: outer))) [] [] [] inner inner' p p')
    (ho : Aligned plan site pre head tail S L (⟨s, s'⟩ :: outer) (⟨t, t'⟩ :: outer'))
    (hs : .block inner :: s' <:+ s) (ht : .block inner' :: t' <:+ t) :
    Aligned plan site pre head tail S L (p ++ ⟨s, s'⟩ :: outer) (p' ++ ⟨t, t'⟩ :: outer') := by
  induction h with
  | base hb hr hp hS hL =>
    rw [List.append_nil] at hL ⊢
    exact .block hb hr hS hL ho hs ht
  | block hb hr hi hi' _ hs' ht' ih =>
    have deeper := fun p : Point =>
      (Site.followed_followed site (Point.yieldCount (⟨s, s'⟩ :: outer)) (Point.yieldCount p)).trans
        (congrArg site.followed (Point.yieldCount_append p _).symm)
    rw [deeper] at hb hr
    exact .block hb hr hi hi' ih hs' ht'

end Aligned

theorem plainLabelsAll_singleton (s : Stmt) : Stmt.plainLabelsAll [s] = s.plainLabels :=
  List.append_nil _

mutual

/-- Where nothing suspends, statements keep the labels that they offer to jumps. -/
theorem plainLabels_written {site : Site} (native : site.native = true) (s : Stmt) {out : List Stmt}
    (h : Written plan site s out) : Stmt.plainLabelsAll out = s.plainLabels := by
  cases s with
  | block inner =>
    rw [Written] at h
    obtain ⟨inner', hi, rfl⟩ := h
    rw [plainLabelsAll_singleton]
    exact plainLabels_writtenAll native inner hi
  | label l =>
    rw [Written] at h
    obtain ⟨-, -, rfl⟩ := h
    rfl
  | expr | throw =>
    rw [Written] at h
    obtain ⟨-, rfl⟩ := h
    rfl
  | assign =>
    rw [Written] at h
    obtain ⟨-, -, rfl⟩ := h
    rfl
  | goto =>
    rw [Written] at h
    obtain ⟨_, -, rfl⟩ := h
    rfl
  | condGoto =>
    rw [Written] at h
    obtain ⟨-, _, -, rfl⟩ := h
    rfl
  | switch =>
    rw [Written] at h
    obtain ⟨-, _, _, -, -, rfl⟩ := h
    rfl
  | ret =>
    rw [Written] at h
    obtain ⟨-, ⟨-, _, _, -, -, rfl⟩ | ⟨-, -, rfl⟩⟩ := h <;> rfl
  | yield =>
    rw [Written] at h
    exact absurd (native.symm.trans h.1) nofun
  | yieldBreak =>
    rw [Written] at h
    exact h.elim
  | tryCatch id body catches cleanup =>
    cases cleanup with
    | none =>
      rw [Written] at h
      obtain ⟨-, _, _, -, -, rfl⟩ := h
      rfl
    | some cleanup =>
      rw [Written] at h
      obtain ⟨-, _, _, _, -, -, -, rfl⟩ | ⟨-, suspends, -⟩ := h
      · rfl
      · exact absurd (native.symm.trans suspends) nofun
  | tryFault =>
    rw [Written] at h
    obtain ⟨_, _, -, -, rfl⟩ := h
    rfl
  | nop =>
    rw [Written] at h
    subst h
    rfl

theorem plainLabels_writtenAll {site : Site} (native : site.native = true) (ss : List Stmt)
    {out : List Stmt} (h : WrittenAll plan site ss out) :
    Stmt.plainLabelsAll out = Stmt.plainLabelsAll ss := by
  cases ss with
  | nil =>
    rw [WrittenAll] at h
    subst h
    rfl
  | cons s ss =>
    rw [WrittenAll] at h
    obtain ⟨first, rest, hs, hr, rfl⟩ := h
    have native' : (site.followed (Stmt.yieldCount ss)).native = true := native
    rw [Stmt.plainLabelsAll_append, Stmt.plainLabelsAll, plainLabels_written native' s hs,
      plainLabels_writtenAll native ss hr]

end

/-- A label is found in the written statements where it is found in the body. -/
theorem find?_written {site : Site} {label : LabelId} {S L before out out' : List Stmt}
    (pre head tail rest : List Stmt)
    (hb : WrittenAll plan (site.followed (Stmt.yieldCount rest)) before out)
    (hr : WrittenAll plan site rest out') (hp : Stmt.plainLabelsAll pre = [])
    (hS : S = pre ++ (before ++ rest)) (hL : L = head ++ (out ++ (out' ++ tail))) {q : Point}
    (found : Point.find? label S rest = some q) :
    ∃ t t' outer, Aligned plan site pre head tail S L q (⟨t, .label label :: t'⟩ :: outer) ∧
      label.index < plan.base ∧ (site.path = [] ∨ label ∈ site.inside) ∧
      (site.native = true →
        Point.find? label L (out' ++ tail) = some (⟨t, .label label :: t'⟩ :: outer)) := by
  cases rest with
  | nil => cases found
  | cons s rest =>
    have whole := hr
    rw [WrittenAll] at hr
    obtain ⟨one, rest', hs, hr', rfl⟩ := hr
    have hb' := writtenAll_concat hb hs
    have native' : site.native = true → (site.followed (Stmt.yieldCount rest)).native = true := id
    have hS' : S = pre ++ ((before ++ [s]) ++ rest) := by rw [hS, List.append_assoc]; rfl
    have hL' : L = head ++ ((out ++ one) ++ (rest' ++ tail)) := by
      rw [hL]; simp only [List.append_assoc]
    rw [Point.find?] at found
    cases here : Point.findIn? label S rest s with
    | none =>
      rw [here] at found
      obtain ⟨t, t', outer, aligned, below, inside, same⟩ :=
        find?_written pre head tail rest hb' hr' hp hS' hL' found
      refine ⟨t, t', outer, aligned, below, inside, fun native => ?_⟩
      have absent : label ∉ Stmt.plainLabelsAll one := by
        rw [plainLabels_written (native' native) s hs, ← Point.isSome_findIn? label S rest s, here]
        exact nofun
      rw [List.append_assoc, Point.find?_append absent]
      exact same native
    | some q' =>
      rw [here] at found
      cases found
      cases s with
      | label l =>
        rw [Point.findIn?] at here
        split at here
        next same =>
          subst same
          cases here
          rw [Written] at hs
          obtain ⟨below, inside, rfl⟩ := hs
          refine ⟨L, rest' ++ tail, [], .base hb whole hp hS hL, below, inside, fun _ => ?_⟩
          rw [List.append_assoc, List.singleton_append, Point.find?, Point.findIn?, if_pos rfl]
        next => cases here
      | block inner =>
        rw [Point.findIn?] at here
        obtain ⟨q₀, within, rfl⟩ := Option.map_eq_some_iff.mp here
        rw [Written] at hs
        obtain ⟨inner', hi, rfl⟩ := hs
        obtain ⟨t, t', outer, aligned, below, inside, same⟩ :=
          find?_written [] [] [] inner (writtenAll_nil ..) hi rfl (rfl : inner = _)
            (List.append_nil inner').symm within
        refine ⟨t, t', outer ++ [⟨L, rest' ++ tail⟩], ?_, below, inside, fun native => ?_⟩
        · refine aligned.nest (.base hb' hr' hp hS' hL') ?_ ?_
          · exact ⟨pre ++ before, by rw [hS, List.append_assoc]⟩
          · exact ⟨head ++ out, by rw [hL]; simp⟩
        · rw [List.append_nil] at same
          rw [List.append_assoc, List.singleton_append, Point.find?, Point.findIn?, same native]
          rfl
      | _ => cases here

namespace Aligned

variable {pre head tail S L : List Stmt} {p p' : Point} {label : LabelId}

/-- A jump in the body has its counterpart, which is the jump from the corresponding point where
nothing suspends. -/
theorem jump? (h : Aligned plan site pre head tail S L p p') {q : Point}
    (found : Point.jump? label p = some q) :
    ∃ t t' outer, Aligned plan site pre head tail S L q (⟨t, .label label :: t'⟩ :: outer) ∧
      label.index < plan.base ∧ (site.path = [] ∨ label ∈ site.inside) ∧
      (site.native = true → label ∉ Stmt.plainLabelsAll head →
        Point.jump? label p' = some (⟨t, .label label :: t'⟩ :: outer)) := by
  induction h with
  | base hb hr hp hS hL =>
    rename_i before rest out out'
    rw [Point.jump?] at found
    split at found
    next q₀ here =>
      cases found
      have skip' : Point.find? label S S = Point.find? label S (before ++ rest) := by
        have split : Point.find? label S S = Point.find? label S (pre ++ (before ++ rest)) := by
          rw [← hS]
        rw [split, Point.find?_append (by rw [hp]; exact List.not_mem_nil)]
      have hL' : L = head ++ ([] ++ ((out ++ out') ++ tail)) := by
        rw [hL]; simp only [List.nil_append, List.append_assoc]
      obtain ⟨t, t', outer, aligned, below, inside, same⟩ :=
        find?_written pre head tail (before ++ rest) (writtenAll_nil ..) (writtenAll_append hb hr) hp
          hS hL' (skip'.symm.trans here)
      rw [List.append_nil]
      refine ⟨t, t', outer, aligned, below, inside, fun native absent => ?_⟩
      have skip : Point.find? label L L = Point.find? label L ((out ++ out') ++ tail) := by
        have split : Point.find? label L L =
            Point.find? label L (head ++ ((out ++ out') ++ tail)) := by
          rw [List.append_assoc, ← hL]
        rw [split, Point.find?_append absent]
      rw [Point.jump?, skip, same native]
      exact congrArg some (List.append_nil _)
    next => cases found
  | block hb hr hi hi' ho hs ht ih =>
    rename_i before rest out out' inner inner' s t s' t' outer outer'
    have whole : WrittenAll plan (site.followed (Point.yieldCount (⟨s, s'⟩ :: outer))) inner inner' :=
      hi ▸ hi' ▸ writtenAll_append hb hr
    rw [Point.jump?] at found
    split at found
    next q₀ here =>
      cases found
      obtain ⟨u, u', inside', aligned, below, inside, same⟩ :=
        find?_written [] [] [] inner (writtenAll_nil ..) whole rfl (rfl : inner = _)
          (List.append_nil inner').symm here
      refine ⟨u, u', inside' ++ ⟨t, t'⟩ :: outer', aligned.nest ho hs ht, below, inside,
        fun native _ => ?_⟩
      rw [List.append_nil] at same
      rw [Point.jump?, same native]
      rfl
    next nowhere =>
      obtain ⟨u, u', inside', aligned, below, inside, same⟩ := ih found
      refine ⟨u, u', inside', aligned, below, inside, fun native absent => ?_⟩
      have missing : Point.find? label inner' inner' = none := by
        have native' : (site.followed (Point.yieldCount (⟨s, s'⟩ :: outer))).native = true := native
        rw [Point.find?_eq_none, plainLabels_writtenAll native' inner whole]
        exact Point.find?_eq_none.mp nowhere
      rw [Point.jump?, missing]
      exact same native absent

/-- Where nothing suspends, neither a label that the body does not offer nor a new one is
anywhere. -/
theorem jump?_eq_none (native : site.native = true) (h : Aligned plan site pre head tail S L p p')
    (hh : label ∉ Stmt.plainLabelsAll head) (ht : label ∉ Stmt.plainLabelsAll tail)
    (nowhere : plan.base ≤ label.index ∨ Point.jump? label p = none) :
    Point.jump? label p' = none := by
  have absent : ∀ {n ss out}, WrittenAll plan (site.followed n) ss out →
      plan.base ≤ label.index ∨ label ∉ Stmt.plainLabelsAll ss →
      label ∉ Stmt.plainLabelsAll out := by
    intro n ss out hw missing
    have native' : (site.followed n).native = true := native
    rw [plainLabels_writtenAll native' ss hw]
    rcases missing with new | missing
    · intro mem
      obtain ⟨q, found⟩ := Option.isSome_iff_exists.mp ((Point.isSome_find? label ss ss).mpr mem)
      obtain ⟨-, -, -, -, below, -⟩ :=
        find?_written [] [] [] ss (writtenAll_nil ..) hw rfl (rfl : ss = _)
          (List.append_nil out).symm found
      exact absurd below (by omega)
    · exact missing
  induction h with
  | base hb hr hp hS hL =>
    rename_i before rest out out'
    have missing : Point.find? label L L = none := by
      have here : plan.base ≤ label.index ∨ label ∉ Stmt.plainLabelsAll (before ++ rest) := by
        refine nowhere.imp_right fun nowhere => ?_
        rw [Point.jump?] at nowhere
        split at nowhere
        next => cases nowhere
        next here =>
          rw [Point.find?_eq_none, hS, Stmt.plainLabelsAll_append, hp] at here
          exact here
      rw [Point.find?_eq_none, hL, Stmt.plainLabelsAll_append, ← List.append_assoc out,
        Stmt.plainLabelsAll_append, List.mem_append, List.mem_append, not_or, not_or]
      have whole : WrittenAll plan (site.followed 0) (before ++ rest) (out ++ out') :=
        writtenAll_append hb hr
      exact ⟨hh, absent whole here, ht⟩
    rw [Point.jump?, missing]
    rfl
  | block hb hr hi hi' ho hs ht ih =>
    rename_i before rest out out' inner inner' s t s' t' outer outer'
    have whole : WrittenAll plan (site.followed (Point.yieldCount (⟨s, s'⟩ :: outer))) inner inner' :=
      hi ▸ hi' ▸ writtenAll_append hb hr
    have parts : plan.base ≤ label.index ∨ label ∉ Stmt.plainLabelsAll inner ∧
        Point.jump? label (⟨s, s'⟩ :: outer) = none := by
      refine nowhere.imp_right fun nowhere => ?_
      rw [Point.jump?] at nowhere
      split at nowhere
      next => cases nowhere
      next here => exact ⟨Point.find?_eq_none.mp here, nowhere⟩
    have missing : Point.find? label inner' inner' = none :=
      Point.find?_eq_none.mpr (absent whole (parts.imp_right (·.1)))
    rw [Point.jump?, missing]
    exact ih (parts.imp_right (·.2))

/-- In the list of the body the point is at home. -/
theorem home (h : Aligned plan site pre head tail S L p p') : At S p := by
  induction h with
  | base hb hr hp hS hL =>
    rename_i before rest out out'
    exact .base ⟨pre ++ before, by rw [hS, List.append_assoc]⟩
  | block hb hr hi hi' ho hs ht ih => exact .block ih hs ⟨_, hi.symm⟩

end Aligned

end Lowering

end ManagedCode
