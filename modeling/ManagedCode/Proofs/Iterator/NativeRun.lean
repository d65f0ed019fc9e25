import ManagedCode.Proofs.Iterator.NativeExec

namespace ManagedCode

namespace Lowering

variable {σ : Type} {plan : Plan} {site : Site} {E M : Environment σ} {n : Nat}
  {answered : Prop} {state current : Option Value} {a b : Config σ}

/-- The labels that were made for the machine lie past those of the body. -/
structure Fresh (plan : Plan) (site : Site) : Prop where
  exit : plan.base ≤ plan.exit.index
  proxies : ∀ pair ∈ site.proxies, plan.base ≤ pair.2.index

theorem Fresh.followed (h : Fresh plan site) (n : Nat) : Fresh plan (site.followed n) :=
  ⟨h.exit, h.proxies⟩

/-- What surrounds the written statements: no labels, and an end that runs to `fin`. -/
structure Surrounds (M : Environment σ) (head tail : List Stmt) (fin : Flow) : Prop where
  before : Stmt.plainLabelsAll head = []
  after : Stmt.plainLabelsAll tail = []
  ends : ∀ (L : List Stmt) (b : Config σ), ∃ k, (M.runs [⟨L, tail⟩]).Ends b k fin b

theorem surrounds_nil : Surrounds M [] [] .normal where
  before := rfl
  after := rfl
  ends := fun L b => ⟨0, by rw [Environment.runs_done rfl]; exact .refl _ _⟩

/-- Within `n` units of fuel, aligned points where nothing suspends run alike. -/
def RunsWell (plan : Plan) (E M : Environment σ) (n : Nat) : Prop :=
  ∀ (site : Site) {answered : Prop} {state current : Option Value} {a b : Config σ}
    {pre head tail S L : List Stmt} {fin : Flow} {p p' : Point},
    site.native = true → Fresh plan site → a.fuel ≤ n →
    Aligned plan site pre head tail S L p p' → Surrounds M head tail fin →
    Near site.result answered state current a b →
    Simulates (E.runs p) a (M.runs p') b (Near site.result answered state current)
      (Ended plan site fin (Stmt.escapesAll S) answered state current)

/-- A statement that is executed in the same way in a machine as in a body. -/
def Ordinary : Stmt → Prop
  | .block _ | .ret _ | .yield _ | .yieldBreak => False
  | .tryCatch _ body _ _ => Stmt.anyYields body = false
  | _ => True

/-- Sites that route jumps alike and hold the answer in one local. -/
theorem Follows.congr {site' : Site} {fin flow flow' : Flow} (h : Follows plan site' fin flow flow' b)
    (routed : ∀ l l', site'.Routed l l' → site.Routed l l') (same : site'.result = site.result) :
    Follows plan site fin flow flow' b := by
  cases h with
  | normal => exact .normal
  | goto h => exact .goto (routed _ _ h)
  | ret h some answers =>
    rw [same] at some answers
    exact .ret (routed _ _ h) some answers
  | throw value => exact .throw value

theorem Ended.of_within {fin flow flow' : Flow} {targets targets' : List LabelId}
    (h : Ended plan site.within fin targets answered state current flow a flow' b)
    (more : ∀ l ∈ targets, l ∈ targets') :
    Ended plan site fin targets' answered state current flow a flow' b :=
  ⟨h.near, h.follows.congr (fun _ _ h => h) rfl, fun l hl => more l (h.targets l hl)⟩

theorem Ended.of_followed {fin flow flow' : Flow} {targets : List LabelId} (k : Nat)
    (h : Ended plan (site.followed k) fin targets answered state current flow a flow' b) :
    Ended plan site fin targets answered state current flow a flow' b :=
  ⟨h.near, h.follows.congr (fun _ _ h => h) rfl, h.targets⟩

/-- A list in a try statement that does not suspend. -/
theorem RunsWell.runAll (runs : RunsWell plan E M n) (fresh : Fresh plan site)
    {ss out : List Stmt} (hw : WrittenAll plan site.within ss out) (less : a.fuel ≤ n)
    {targets : List LabelId} (more : ∀ l ∈ Stmt.escapesAll ss, l ∈ targets)
    (near : Near site.result answered state current a b) :
    Simulates (E.runAll ss) a (M.runAll out) b (Near site.result answered state current)
      (Ended plan site .normal targets answered state current) := by
  have start : Aligned plan site.within [] [] [] ss out [⟨ss, ss⟩] [⟨out, out ++ []⟩] :=
    .base (writtenAll_nil ..) hw rfl rfl (List.append_nil out).symm
  rw [List.append_nil] at start
  refine (runs site.within rfl ⟨fresh.exit, fresh.proxies⟩ less start surrounds_nil near).mono
    (fun _ _ h => h) fun _ _ _ _ h => h.of_within more

theorem Near.setLocal {result : Option LocalId} (h : Near result answered state current a b)
    (id temp : LocalId) (value : Value) (other : result ≠ some temp) :
    Near result answered state current
      { a with activation := a.activation.writeLocal id value }
      { b with activation := b.activation.writeLocal temp value } := by
  refine ⟨h.alike, fun ha r hr => ?_⟩
  have before := h.answers ha r hr
  have distinct : r ≠ temp := fun same => other (hr.trans (congrArg some same))
  exact (Activation.lookup_writeLocal_of_ne _ value distinct).trans before

theorem writtenCatch_some {exceptionTy : Option Ty} {caught : LocalId} {body : List Stmt}
    {out : Catch} (h : WrittenCatch plan site (.mk exceptionTy (some caught) body) out) :
    ∃ place rest temp rest', body = .assign place (.local caught) :: rest ∧
      WrittenAll plan site rest rest' ∧ place.InFields ∧ site.result ≠ some temp ∧
      out = .mk exceptionTy (some temp) (.assign place (.local temp) :: rest') := by
  unfold WrittenCatch at h
  split at h
  next heq => cases heq
  next heq =>
    cases heq
    obtain ⟨temp, rest', hr, own, rfl, other, rfl⟩ := h
    exact ⟨_, _, temp, rest', rfl, hr, own, other, rfl⟩
  next => exact h.elim

/-- A caught exception goes through a local of each method into the same field. -/
theorem RunsWell.catching (hosted : Hosted E M) (runs : RunsWell plan E M n)
    (fresh : Fresh plan site) {place : Place} {caught temp : LocalId} {body out : List Stmt}
    (hw : WrittenAll plan site.within body out) (own : place.InFields) (less : a.fuel ≤ n)
    {targets : List LabelId}
    (more : ∀ l ∈ Stmt.escapesAll (.assign place (.local caught) :: body), l ∈ targets)
    {value : Value} (near : Near site.result answered state current a b)
    (hc : a.activation.locals.lookup caught = some value)
    (ht : b.activation.locals.lookup temp = some value) :
    Simulates (E.runAll (.assign place (.local caught) :: body)) a
      (M.runAll (.assign place (.local temp) :: out)) b (Near site.result answered state current)
      (Ended plan site .normal targets answered state current) := by
  let mid : Flow → Config σ → Flow → Config σ → Prop := fun flow a' flow' b' =>
    (flow = .normal ∧ flow' = .normal ∨ ∃ v, flow = .throw v ∧ flow' = .throw v) ∧
      Near site.result answered state current a' b'
  refine simulates_step mid rfl rfl nofun nofun (hosted.still _) (hosted.quiet _ ⟨rfl, rfl⟩) ?_ ?_
  · intro m _
    have reads : Simulates (E.eval E.runAll (.local caught)) (a.withFuel m)
        (M.eval M.runAll (.local temp)) b (Near site.result answered state current)
        (fun v a' w b' => v = w ∧ Near site.result answered state current a' b') := by
      have left : a.activation.readLocal caught = .ok value := by
        unfold Activation.readLocal
        rw [hc]
      have right : b.activation.readLocal temp = .ok value := by
        unfold Activation.readLocal
        rw [ht]
      have step : Mirrors (Alike state current) (ofExcept (a.activation.readLocal caught))
          (a.withFuel m).world (ofExcept (b.activation.readLocal temp)) b.world := by
        rw [left, right]
        exact .outcome _ (near.withFuel m b.fuel).alike
      refine .onWorld step ?_ ?_
      · exact fun u w alike => ⟨alike, near.answers⟩
      · exact fun v u w alike => ⟨rfl, alike, near.answers⟩
    refine Simulates.unwinding (reads.bind fun v a' w b' _ step => ?_) ?_
    · obtain ⟨rfl, near'⟩ := step
      refine (near'.write hosted own v E.runAll M.runAll).bind fun _ a' _ b' _ near' => ?_
      exact .pure ⟨.inl ⟨rfl, rfl⟩, near'⟩
    · exact fun v a' b' near' => ⟨.inr ⟨v, rfl, rfl⟩, near'⟩
  · rintro flow a' flow' b' fuel ⟨⟨rfl, rfl⟩ | ⟨v, rfl, rfl⟩, near'⟩
    case inr => exact .pure ⟨near', .throw v, nofun⟩
    have start : Aligned plan site.within [.assign place (.local caught)]
        [.assign place (.local temp)] [] (.assign place (.local caught) :: body)
        (.assign place (.local temp) :: out) [⟨.assign place (.local caught) :: body, body⟩]
        [⟨.assign place (.local temp) :: out, out ++ []⟩] :=
      .base (writtenAll_nil ..) hw rfl rfl (by simp)
    rw [List.append_nil] at start
    have around : Surrounds M [.assign place (.local temp)] [] .normal :=
      { surrounds_nil with before := rfl }
    refine (runs site.within rfl ⟨fresh.exit, fresh.proxies⟩ (by omega) start around near').mono
      (fun _ _ h => h) fun _ _ _ _ h => h.of_within more

/-- A clause that handles an exception handles it in both. -/
theorem RunsWell.handle (hosted : Hosted E M) (runs : RunsWell plan E M n)
    (fresh : Fresh plan site) {catches catches' : List Catch}
    (hw : WrittenCatches plan site.within catches catches') (less : a.fuel ≤ n)
    {targets : List LabelId} (more : ∀ l ∈ Catch.escapesAll catches, l ∈ targets)
    {flow flow' : Flow} (h : Ended plan site .normal targets answered state current flow a flow' b) :
    Simulates (Environment.handle E.runAll catches flow) a
      (Environment.handle M.runAll catches' flow') b (Near site.result answered state current)
      (Ended plan site .normal targets answered state current) := by
  obtain ⟨near, follows, jumps⟩ := h
  cases follows with
  | normal => exact .pure ⟨near, .normal, jumps⟩
  | goto h => exact .pure ⟨near, .goto h, jumps⟩
  | ret h some answers => exact .pure ⟨near, .ret h some answers, jumps⟩
  | throw value =>
    cases catches with
    | nil =>
      rw [WrittenCatches] at hw
      subst hw
      exact .pure ⟨near, .throw value, jumps⟩
    | cons clause rest =>
      rw [WrittenCatches] at hw
      obtain ⟨clause', rest', hc, -, rfl⟩ := hw
      obtain ⟨exceptionTy, caught, body⟩ := clause
      have inner : ∀ l ∈ Stmt.escapesAll body, l ∈ targets := fun l hl =>
        more l (List.mem_append_left _ hl)
      cases caught with
      | none =>
        rw [WrittenCatch] at hc
        obtain ⟨body', hb, rfl⟩ := hc
        exact runs.runAll fresh hb less inner near
      | some caught =>
        obtain ⟨place, body, temp, body', rfl, hb, own, other, rfl⟩ := writtenCatch_some hc
        let kept : PUnit → Config σ → PUnit → Config σ → Prop := fun _ a' _ b' =>
          Near site.result answered state current a' b' ∧ a'.fuel = a.fuel ∧
            a'.activation.locals.lookup caught = some value ∧
            b'.activation.locals.lookup temp = some value
        have stored : Simulates (Exec.setLocal caught value) a (Exec.setLocal temp value) b
            (Near site.result answered state current) kept :=
          .update rfl (fun _ => rfl) ⟨near.setLocal caught temp value other, rfl,
            Activation.lookup_writeLocal_self _ _ _, Activation.lookup_writeLocal_self _ _ _⟩
        refine stored.bind ?_
        rintro _ a' _ b' - ⟨near', fuel, hc', ht'⟩
        exact runs.catching hosted fresh hb own (by omega) inner near' hc' ht'

/-- A cleanup that ends normally lets its statement end as it did. -/
theorem RunsWell.cleanUp (runs : RunsWell plan E M n) (fresh : Fresh plan site)
    {ss out : List Stmt} (hw : WrittenAll plan site.within ss out) (less : a.fuel ≤ n)
    {targets : List LabelId} (more : ∀ l ∈ Stmt.escapesAll ss, l ∈ targets)
    {flow flow' : Flow} (h : Ended plan site .normal targets answered state current flow a flow' b) :
    Simulates (Environment.cleanUp E.runAll ss flow) a
      (Environment.cleanUp M.runAll out flow') b (Near site.result answered state current)
      (Ended plan site .normal targets answered state current) := by
  obtain ⟨near, follows, jumps⟩ := h
  -- An answer that is there before the cleanup is there after it.
  have kept : Near site.result (answered ∨ Answers site.result b) state current a b :=
    ⟨near.alike, fun h => h.elim near.answers id⟩
  have back : ∀ {a' b' : Config σ}, Near site.result (answered ∨ Answers site.result b) state
      current a' b' → Near site.result answered state current a' b' :=
    fun near => ⟨near.alike, fun h => near.answers (.inl h)⟩
  have clause := (runs.runAll fresh hw less more kept).mono
    (fun _ _ near => back near) fun _ _ _ _ h => h
  refine clause.bind fun ended a' ended' b' _ h => ?_
  obtain ⟨near', follows', jumps'⟩ := h
  cases follows' with
  | normal =>
    refine .pure ⟨back near', ?_, jumps⟩
    cases follows with
    | normal => exact .normal
    | goto h => exact .goto h
    | ret h some answers => exact .ret h some (near'.answers (.inr answers))
    | throw value => exact .throw value
  | goto h => exact .pure ⟨back near', .goto h, jumps'⟩
  | ret h some answers => exact .pure ⟨back near', .ret h some answers, jumps'⟩
  | throw value => exact .pure ⟨back near', .throw value, jumps'⟩

theorem handled?_of_inFields {e : Expr} (own : e.InFields) : (Stmt.expr e).handled? = none := by
  cases e with
  | call callee receiver args =>
    cases callee with
    | method member => rfl
    | synthesized method => cases receiver <;> exact own.elim
  | _ => rfl

/-- The targets of a switch go the way of the jumps that they stand for. -/
theorem routed_lookup {cases cases' : List (Int64 × LabelId)}
    (h : List.Forall₂ (fun x y => y.1 = x.1 ∧ site.Routed x.2 y.2) cases cases') (value : Int64) :
    Option.Rel site.Routed (cases.lookup value) (cases'.lookup value) := by
  induction h with
  | nil => exact .none
  | cons hx _ ih =>
    rename_i x y xs ys _
    obtain ⟨key, target⟩ := x
    obtain ⟨key', label⟩ := y
    obtain ⟨rfl, routed⟩ := hx
    rw [List.lookup_cons, List.lookup_cons]
    cases value == key' with
    | true => exact .some routed
    | false => exact ih

theorem Near.evalBool {result : Option LocalId} (hosted : Hosted E M) {e : Expr} (own : e.InFields)
    (h : Near result answered state current a b) (run run' : List Stmt → Exec σ Flow) :
    Simulates (E.evalBool run e) a (M.evalBool run' e) b (Near result answered state current)
      (fun v a' w b' => v = w ∧ Near result answered state current a' b') := by
  refine (h.eval hosted own run run').bind fun v a' w b' _ step => ?_
  obtain ⟨rfl, near⟩ := step
  cases v with
  | bool v => exact .pure ⟨rfl, near⟩
  | _ => exact .fails near

theorem Near.evalInt {result : Option LocalId} (hosted : Hosted E M) {e : Expr} (own : e.InFields)
    (h : Near result answered state current a b) (run run' : List Stmt → Exec σ Flow) :
    Simulates (E.evalInt run e) a (M.evalInt run' e) b (Near result answered state current)
      (fun v a' w b' => v = w ∧ Near result answered state current a' b') := by
  refine (h.eval hosted own run run').bind fun v a' w b' _ step => ?_
  obtain ⟨rfl, near⟩ := step
  cases v with
  | int v => exact .pure ⟨rfl, near⟩
  | _ => exact .fails near

/-- What a machine does for a statement, as far as lists run alike. -/
def Executes (plan : Plan) (site : Site) (E M : Environment σ) (s s' : Stmt) : Prop :=
  ∀ {n : Nat} {answered : Prop} {state current : Option Value} {a b : Config σ},
    RunsWell plan E M n → a.fuel ≤ n → Near site.result answered state current a b →
    Simulates (E.execStmt E.runAll s) a (M.execStmt M.runAll s') b
      (Near site.result answered state current)
      (Ended plan site .normal s.escapes answered state current)

/-- A statement that is no block and does not suspend is written as one statement, which the
machine executes in the same way. -/
theorem exec_written (hosted : Hosted E M) (fresh : Fresh plan site) {s : Stmt} {out : List Stmt}
    (hw : Written plan site s out) (ordinary : Ordinary s) :
    ∃ s', out = [s'] ∧ s'.Quiet ∧ (∀ stmts, s' ≠ .block stmts) ∧ Executes plan site E M s s' := by
  cases s with
  | block | ret | yield | yieldBreak => exact ordinary.elim
  | expr value =>
    rw [Written] at hw
    obtain ⟨own, rfl⟩ := hw
    refine ⟨_, rfl, ⟨rfl, handled?_of_inFields own⟩, nofun, ?_⟩
    intro n answered state current a b runs less near
    refine (near.eval hosted own E.runAll M.runAll).bind fun _ _ _ _ _ step => ?_
    exact .pure ⟨step.2, .normal, nofun⟩
  | assign place value =>
    rw [Written] at hw
    obtain ⟨ownPlace, ownValue, rfl⟩ := hw
    refine ⟨_, rfl, ⟨rfl, rfl⟩, nofun, ?_⟩
    intro n answered state current a b runs less near
    refine (near.eval hosted ownValue E.runAll M.runAll).bind fun v a' w b' _ step => ?_
    obtain ⟨rfl, near'⟩ := step
    refine (near'.write hosted ownPlace v E.runAll M.runAll).bind fun _ _ _ _ _ near' => ?_
    exact .pure ⟨near', .normal, nofun⟩
  | label l =>
    rw [Written] at hw
    obtain ⟨-, -, rfl⟩ := hw
    exact ⟨_, rfl, ⟨rfl, rfl⟩, nofun, fun _ _ near => .pure ⟨near, .normal, nofun⟩⟩
  | nop =>
    rw [Written] at hw
    subst hw
    exact ⟨_, rfl, ⟨rfl, rfl⟩, nofun, fun _ _ near => .pure ⟨near, .normal, nofun⟩⟩
  | goto target =>
    rw [Written] at hw
    obtain ⟨l, routed, rfl⟩ := hw
    refine ⟨_, rfl, ⟨rfl, rfl⟩, nofun, fun _ _ near => .pure ⟨near, .goto routed, ?_⟩⟩
    rintro _ ⟨⟩
    exact List.mem_singleton_self target
  | condGoto cond jumpIf target =>
    rw [Written] at hw
    obtain ⟨own, l, routed, rfl⟩ := hw
    refine ⟨_, rfl, ⟨rfl, rfl⟩, nofun, ?_⟩
    intro n answered state current a b runs less near
    refine (near.evalBool hosted own E.runAll M.runAll).bind fun v a' w b' _ step => ?_
    obtain ⟨rfl, near'⟩ := step
    by_cases taken : v = jumpIf
    · simp only [taken, if_true]
      refine .pure ⟨near', .goto routed, ?_⟩
      rintro _ ⟨⟩
      exact List.mem_singleton_self target
    · simp only [taken, if_false]
      exact .pure ⟨near', .normal, nofun⟩
  | switch scrutinee cases default? =>
    rw [Written] at hw
    obtain ⟨own, cases', default', hc, hd, rfl⟩ := hw
    refine ⟨_, rfl, ⟨rfl, rfl⟩, nofun, ?_⟩
    intro n answered state current a b runs less near
    refine (near.evalInt hosted own E.runAll M.runAll).bind fun v a' w b' _ step => ?_
    obtain ⟨rfl, near'⟩ := step
    have chosen := routed_lookup hc v
    cases found : cases.lookup v with
    | some target =>
      rw [found] at chosen
      cases found' : cases'.lookup v with
      | none =>
        rw [found'] at chosen
        cases chosen
      | some l =>
        rw [found'] at chosen
        cases chosen with
        | some routed =>
          refine .pure ⟨near', .goto routed, ?_⟩
          rintro _ ⟨⟩
          obtain ⟨before, after, hc, -⟩ := List.lookup_eq_some_iff.mp found
          have mem : (v, target) ∈ cases := by
            rw [hc]
            exact List.mem_append_right _ List.mem_cons_self
          exact List.mem_append_left _ (List.mem_map_of_mem mem)
    | none =>
      rw [found] at chosen
      cases found' : cases'.lookup v with
      | some l =>
        rw [found'] at chosen
        cases chosen
      | none =>
        cases hd with
        | none => exact .pure ⟨near', .normal, nofun⟩
        | some routed =>
          refine .pure ⟨near', .goto routed, ?_⟩
          rintro _ ⟨⟩
          exact List.mem_append_right _ (List.mem_singleton_self _)
  | tryCatch id body catches cleanup =>
    have targets : ∀ l ∈ Stmt.escapesAll body, l ∈ (Stmt.tryCatch id body catches cleanup).escapes := by
      intro l hl
      cases cleanup with
      | none => exact List.mem_append_left _ hl
      | some cleanup => exact List.mem_append_left _ (List.mem_append_left _ hl)
    have targets' : ∀ l ∈ Catch.escapesAll catches,
        l ∈ (Stmt.tryCatch id body catches cleanup).escapes := by
      intro l hl
      cases cleanup with
      | none => exact List.mem_append_right _ hl
      | some cleanup => exact List.mem_append_left _ (List.mem_append_right _ hl)
    cases cleanup with
    | none =>
      rw [Written] at hw
      obtain ⟨-, body', catches', hb, hc, rfl⟩ := hw
      refine ⟨_, rfl, ⟨rfl, rfl⟩, nofun, ?_⟩
      intro n answered state current a b runs less near
      refine (runs.runAll fresh hb less targets near).bind fun flow a' flow' b' fuel ended => ?_
      refine (runs.handle hosted fresh hc (by omega) targets' ended).bind
        fun flow a' flow' b' _ ended => .pure ended
    | some cleanup =>
      rw [Written] at hw
      obtain ⟨-, body', catches', cleanup', hb, hc, hf, rfl⟩ | ⟨suspends, -⟩ := hw
      · refine ⟨_, rfl, ⟨rfl, rfl⟩, nofun, ?_⟩
        intro n answered state current a b runs less near
        refine (runs.runAll fresh hb less targets near).bind fun flow a' flow' b' fuel ended => ?_
        refine (runs.handle hosted fresh hc (by omega) targets' ended).bind
          fun flow a'' flow' b'' fuel' ended => ?_
        exact runs.cleanUp fresh hf (by omega) (fun l hl => List.mem_append_right _ hl) ended
      · exact absurd (ordinary.symm.trans suspends) nofun
  | tryFault body fault =>
    rw [Written] at hw
    obtain ⟨body', fault', hb, hf, rfl⟩ := hw
    refine ⟨_, rfl, ⟨rfl, rfl⟩, nofun, ?_⟩
    intro n answered state current a b runs less near
    have targets : ∀ l ∈ Stmt.escapesAll body, l ∈ (Stmt.tryFault body fault).escapes :=
      fun l hl => List.mem_append_left _ hl
    refine (runs.runAll fresh hb less targets near).bind fun flow a' flow' b' fuel ended => ?_
    have follows := ended.follows
    cases follows with
    | normal => exact .pure ended
    | goto h => exact .pure ended
    | ret => exact .pure ended
    | throw value =>
      exact runs.cleanUp fresh hf (by omega) (fun l hl => List.mem_append_right _ hl) ended
  | throw value =>
    rw [Written] at hw
    obtain ⟨own, rfl⟩ := hw
    refine ⟨_, rfl, ⟨rfl, rfl⟩, nofun, ?_⟩
    intro n answered state current a b runs less near
    refine (near.eval hosted own E.runAll M.runAll).bind fun v a' w b' _ step => ?_
    obtain ⟨rfl, near'⟩ := step
    exact .pure ⟨near', .throw v, nofun⟩

/-- Statements are written as at least one statement, and as the first of a block it does not enter
a frame. -/
theorem written_head {s : Stmt} {out : List Stmt} (hw : Written plan site s out) :
    ∃ first rest, out = first :: rest ∧ ∀ more, (Stmt.block (first :: more)).Quiet := by
  have assigns : ∀ {slot : FieldSlot} {value : Expr}, slot ≠ stateField → ∀ more,
      (Stmt.block (.assign (.machineField slot) value :: more)).Quiet := by
    intro slot value other more
    refine ⟨?_, rfl⟩
    unfold Stmt.entered?
    split
    next heq =>
      cases heq
      exact if_neg fun h => other h.1
    next => rfl
  cases s with
  | block inner =>
    rw [Written] at hw
    obtain ⟨inner', -, rfl⟩ := hw
    exact ⟨_, _, rfl, fun _ => ⟨rfl, rfl⟩⟩
  | expr | throw =>
    rw [Written] at hw
    obtain ⟨-, rfl⟩ := hw
    exact ⟨_, _, rfl, fun _ => ⟨rfl, rfl⟩⟩
  | assign place value =>
    rw [Written] at hw
    obtain ⟨own, -, rfl⟩ := hw
    refine ⟨_, _, rfl, ?_⟩
    cases place with
    | machineField slot =>
      have own : 2 ≤ slot.index := own
      refine assigns fun same => ?_
      subst same
      exact absurd own (by decide)
    | _ => exact fun _ => ⟨rfl, rfl⟩
  | label l =>
    rw [Written] at hw
    obtain ⟨-, -, rfl⟩ := hw
    exact ⟨_, _, rfl, fun _ => ⟨rfl, rfl⟩⟩
  | goto =>
    rw [Written] at hw
    obtain ⟨_, -, rfl⟩ := hw
    exact ⟨_, _, rfl, fun _ => ⟨rfl, rfl⟩⟩
  | condGoto =>
    rw [Written] at hw
    obtain ⟨-, _, -, rfl⟩ := hw
    exact ⟨_, _, rfl, fun _ => ⟨rfl, rfl⟩⟩
  | switch =>
    rw [Written] at hw
    obtain ⟨-, _, _, -, -, rfl⟩ := hw
    exact ⟨_, _, rfl, fun _ => ⟨rfl, rfl⟩⟩
  | ret =>
    rw [Written] at hw
    obtain ⟨-, ⟨-, _, _, -, -, rfl⟩ | ⟨-, -, rfl⟩⟩ := hw
    · exact ⟨_, _, rfl, fun _ => ⟨rfl, rfl⟩⟩
    · exact ⟨_, _, rfl, fun _ => ⟨rfl, rfl⟩⟩
  | yield =>
    rw [Written] at hw
    obtain ⟨-, -, _, _, _, -, -, -, -, -, rfl⟩ := hw
    exact ⟨_, _, rfl, assigns (by decide)⟩
  | yieldBreak =>
    rw [Written] at hw
    exact hw.elim
  | tryCatch id body catches cleanup =>
    cases cleanup with
    | none =>
      rw [Written] at hw
      obtain ⟨-, _, _, -, -, rfl⟩ := hw
      exact ⟨_, _, rfl, fun _ => ⟨rfl, rfl⟩⟩
    | some cleanup =>
      rw [Written] at hw
      obtain ⟨-, _, _, _, -, -, -, rfl⟩ | ⟨-, -, -, _, _, _, _, _, -, -, -, rfl⟩ := hw
      · exact ⟨_, _, rfl, fun _ => ⟨rfl, rfl⟩⟩
      · exact ⟨_, _, rfl, fun _ => ⟨rfl, rfl⟩⟩
  | tryFault =>
    rw [Written] at hw
    obtain ⟨_, _, -, -, rfl⟩ := hw
    exact ⟨_, _, rfl, fun _ => ⟨rfl, rfl⟩⟩
  | nop =>
    rw [Written] at hw
    subst hw
    exact ⟨_, _, rfl, fun _ => ⟨rfl, rfl⟩⟩

/-- A block of written statements enters no frame. -/
theorem quiet_block {ss out : List Stmt} (hw : WrittenAll plan site ss out) :
    (Stmt.block out).Quiet := by
  cases ss with
  | nil =>
    rw [WrittenAll] at hw
    subst hw
    exact ⟨rfl, rfl⟩
  | cons s ss =>
    rw [WrittenAll] at hw
    obtain ⟨one, rest, hs, -, rfl⟩ := hw
    obtain ⟨first, more, rfl, quiet⟩ := written_head hs
    exact quiet _

/-- What is written for a jump within the list of labels is the jump itself. -/
theorem Site.Routed.eq_of_inside {l l' : LabelId} (h : site.Routed l l')
    (inside : site.path = [] ∨ l ∈ site.inside) : l' = l := by
  rcases h with ⟨-, same⟩ | ⟨nested, outside, -⟩
  · exact same
  · exact absurd inside (not_or.mpr ⟨nested, outside⟩)

/-- What is written for another jump is a label that was made for the machine. -/
theorem Site.Routed.eq_or_fresh {l l' : LabelId} (fresh : Fresh plan site) (h : site.Routed l l') :
    l' = l ∨ plan.base ≤ l'.index := by
  rcases h with ⟨-, same⟩ | ⟨-, -, proxy⟩
  · exact .inl same
  · exact .inr (fresh.proxies _ proxy)

theorem Site.Routed.exit_fresh {l : LabelId} (fresh : Fresh plan site)
    (h : site.Routed plan.exit l) : plan.base ≤ l.index := by
  rcases h.eq_or_fresh fresh with rfl | new
  · exact fresh.exit
  · exact new

section

variable {pre head tail S L : List Stmt} {fin : Flow}

/-- After a statement that ended alike in both, both go on alike. -/
theorem RunsWell.follow (runs : RunsWell plan E M n) (native : site.native = true)
    (fresh : Fresh plan site) (around : Surrounds M head tail fin) (less : a.fuel ≤ n)
    {after after' : Point} (aligned : Aligned plan site pre head tail S L after after')
    {targets : List LabelId}
    (escapes : ∀ l ∈ targets, Point.jump? l after = none → l ∈ Stmt.escapesAll S)
    {flow flow' : Flow} (ended : Ended plan site .normal targets answered state current flow a flow' b) :
    Simulates (Environment.follow E.runs after flow) a (Environment.follow M.runs after' flow') b
      (Near site.result answered state current)
      (Ended plan site fin (Stmt.escapesAll S) answered state current) := by
  obtain ⟨near, follows, jumps⟩ := ended
  have nowhere : ∀ {l' : LabelId}, plan.base ≤ l'.index ∨ Point.jump? l' after = none →
      Point.jump? l' after' = none := fun missing =>
    aligned.jump?_eq_none native (by rw [around.before]; exact List.not_mem_nil)
      (by rw [around.after]; exact List.not_mem_nil) missing
  cases follows with
  | normal => exact runs site native fresh less aligned around near
  | goto routed =>
    rename_i l l'
    cases found : Point.jump? l after with
    | some q =>
      obtain ⟨t, t', outer, aligned', -, inside, same⟩ := aligned.jump? found
      cases routed.eq_of_inside inside
      have found' := same native (by rw [around.before]; exact List.not_mem_nil)
      simp only [Environment.follow, found, found']
      exact runs site native fresh less aligned' around near
    | none =>
      have missing : Point.jump? l' after' = none := by
        rcases routed.eq_or_fresh fresh with rfl | new
        · exact nowhere (.inr found)
        · exact nowhere (.inl new)
      simp only [Environment.follow, found, missing]
      refine .pure ⟨near, .goto routed, ?_⟩
      rintro _ ⟨⟩
      exact escapes l (jumps l rfl) found
  | ret routed some answers =>
    rename_i l
    have missing : Point.jump? l after' = none := nowhere (.inl (routed.exit_fresh fresh))
    simp only [Environment.follow, missing]
    exact .pure ⟨near, .ret routed some answers, (by simp)⟩
  | throw value => exact .pure ⟨near, .throw value, (by simp)⟩

end

theorem ordinary_of_native (native : site.native = true) {s : Stmt} {out : List Stmt}
    (hw : Written plan site s out) (plain : ∀ stmts, s ≠ .block stmts)
    (stays : ∀ value, s ≠ .ret value) : Ordinary s := by
  cases s with
  | block stmts => exact absurd rfl (plain stmts)
  | ret value => exact absurd rfl (stays value)
  | yield =>
    rw [Written] at hw
    exact absurd (native.symm.trans hw.1) (by simp)
  | yieldBreak =>
    rw [Written] at hw
    exact hw.elim
  | tryCatch id body catches cleanup =>
    cases cleanup with
    | none =>
      rw [Written] at hw
      exact hw.1
    | some cleanup =>
      rw [Written] at hw
      obtain ⟨quiet, -⟩ | ⟨-, suspends, -⟩ := hw
      · exact quiet
      · exact absurd (native.symm.trans suspends) (by simp)
  | _ => trivial

/-- Within any amount of fuel, aligned points where nothing suspends run alike. -/
theorem runsWell (hosted : Hosted E M) (n : Nat) : RunsWell plan E M n := by
  induction n using Nat.strongRecOn with
  | ind n ih =>
  intro site answered state current a b pre head tail S L fin p p' native fresh less aligned around
    near
  -- Whatever runs after a unit of fuel runs with less than `n`.
  have shorter : ∀ {m : Nat}, a.fuel = m + 1 → RunsWell plan E M m := fun h => ih _ (by omega)
  rcases aligned.next with ⟨done, done'⟩ |
    ⟨stmt, s, s', outer, t, t', out, outer', due, hw, aligned', hs, ht, due'⟩
  · have finish : M.runs p' = M.runs [⟨L, tail⟩] := runs_congr (by simpa using done' [])
    obtain ⟨k, ends⟩ := around.ends L b
    rw [Environment.runs_done done, finish]
    exact .ahead ends (.pure ⟨near, .normal, (by simp)⟩)
  have due' : p'.next? = Point.next? (⟨t, out ++ t'⟩ :: outer') := by simpa using due' []
  by_cases isBlock : ∃ inner, stmt = .block inner
  · obtain ⟨inner, rfl⟩ := isBlock
    rw [Written] at hw
    obtain ⟨inner', hi, rfl⟩ := hw
    have enter : E.runs p = Exec.tick >>= fun _ => E.runs (⟨inner, inner⟩ :: ⟨s, s'⟩ :: outer) := by
      rw [Environment.runs_eq due]
      exact congrArg (Exec.tick >>= ·) (funext fun _ => advance_block (hosted.still _))
    have enter' : M.runs p' =
        Exec.tick >>= fun _ => M.runs (⟨inner', inner'⟩ :: ⟨t, t'⟩ :: outer') := by
      rw [Environment.runs_eq (due'.trans rfl)]
      exact congrArg (Exec.tick >>= ·)
        (funext fun _ => advance_block (hosted.quiet _ (quiet_block hi)))
    rw [enter, enter']
    refine Simulates.tick (k := 0) (Exec.Reaches.tick _ b) fun m hm => ?_
    have start : Aligned plan site pre head tail S L (⟨inner, inner⟩ :: ⟨s, s'⟩ :: outer)
        (⟨inner', inner'⟩ :: ⟨t, t'⟩ :: outer') := .block (writtenAll_nil ..) hi rfl rfl aligned' hs ht
    exact shorter hm site native fresh (Nat.le_refl m) start around (near.withFuel m b.fuel)
  by_cases isRet : ∃ value, stmt = .ret value
  · obtain ⟨value, rfl⟩ := isRet
    rw [Written] at hw
    obtain ⟨rfl, ⟨-, result, l, hr, routed, rfl⟩ | ⟨-, suspends, -⟩⟩ := hw
    case inr => exact absurd (native.symm.trans suspends) (by simp)
    have label : plan.base ≤ l.index := routed.exit_fresh fresh
    have missing : Point.jump? l (⟨t, t'⟩ :: outer') = none := by
      refine aligned'.jump?_eq_none native ?_ ?_ (.inl label)
      · rw [around.before]
        exact List.not_mem_nil
      · rw [around.after]
        exact List.not_mem_nil
    have leave : E.runs p = Exec.tick >>= fun _ => pure (.ret .unit) := by
      rw [Environment.runs_eq due]
      exact congrArg (Exec.tick >>= ·) (funext fun _ => Environment.advance_eq (hosted.still _) (by simp))
    have answer := runs_reaches (due'.trans rfl) (fun _ => by simp) (hosted.quiet _ ⟨rfl, rfl⟩)
      (ends_assignLocal M result (.bool false) b)
    have jump (c : Config σ) :
        (M.runs (⟨t, .goto l :: t'⟩ :: outer')).Reaches c (1 + 0)
          (Environment.follow M.runs (⟨t, t'⟩ :: outer') (.goto l)) c :=
      runs_reaches (s := .goto l) rfl (by simp) (hosted.quiet _ ⟨rfl, rfl⟩) (.refl _ c)
    have reaches := answer.trans (jump _)
    simp only [Environment.follow, missing] at reaches
    rw [leave]
    let b' : Config σ := { b with activation := b.activation.writeLocal result (.bool false) }
    have answers : Answers site.result b' := by
      intro r hr'
      cases hr.symm.trans hr'
      exact Activation.lookup_writeLocal_self _ _ _
    refine Simulates.tick reaches fun m hm => Simulates.pure (w := Flow.goto l) (b := b') ?_
    exact ⟨⟨(near.withFuel m b.fuel).alike, fun _ => answers⟩,
      .ret routed (Option.isSome_of_eq_some hr) answers, (by simp)⟩
  have plain : ∀ inner, stmt ≠ .block inner := fun inner h => isBlock ⟨inner, h⟩
  have stays : ∀ value, stmt ≠ .ret value := fun value h => isRet ⟨value, h⟩
  have native' : (site.followed (Point.yieldCount (⟨s, s'⟩ :: outer))).native = true := native
  obtain ⟨one, rfl, quiet, plain', exec⟩ :=
    exec_written hosted (fresh.followed _) hw (ordinary_of_native native' hw plain stays)
  refine simulates_step (Ended plan site .normal stmt.escapes answered state current)
    due (due'.trans rfl) plain plain' (hosted.still _) (hosted.quiet _ quiet) ?_ ?_
  · intro m hm
    have step := exec (a := a.withFuel m) (shorter hm) (Nat.le_refl m) (near.withFuel m b.fuel)
    refine (step.mono (fun _ _ h => h) fun _ _ _ _ => Ended.of_followed _).unwinding ?_
    exact fun v a' b' near => ⟨near, .throw v, (by simp)⟩
  · intro flow a' flow' b' fuel ended
    refine (ih (a.fuel - 1) (by omega)).follow native fresh around (by omega) aligned' ?_ ended
    exact fun l hl => aligned'.home.mem_escapesAll rfl (hs.mem List.mem_cons_self) hl

end Lowering

end ManagedCode
