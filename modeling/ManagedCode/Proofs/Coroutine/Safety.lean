import ManagedCode.Proofs.Coroutine.Live
import ManagedCode.Proofs.Run.Safety

namespace ManagedCode

/-! What a coroutine keeps, and why its calls may fail. -/

mutual

/-- A statement of a body, in a vocabulary but for the yields. -/
def Stmt.Drives (v : Vocabulary) : Stmt → Prop
  | .block stmts => Stmt.DrivesAll v stmts
  | .yield value => value.Uses v
  | .tryCatch id body catches none =>
    (Stmt.anyYields body = true → Stmt.DrivesAll v body ∧ Catch.UsesAll v catches) ∧
      (Stmt.anyYields body = false → (Stmt.tryCatch id body catches none).Uses v)
  | .tryCatch id body catches (some cleanup) =>
    (Stmt.anyYields body = true →
      Stmt.DrivesAll v body ∧ Catch.UsesAll v catches ∧ Stmt.UsesAll v cleanup) ∧
      (Stmt.anyYields body = false → (Stmt.tryCatch id body catches (some cleanup)).Uses v)
  | s => s.Uses v

def Stmt.DrivesAll (v : Vocabulary) : List Stmt → Prop
  | [] => True
  | s :: ss => s.Drives v ∧ Stmt.DrivesAll v ss

end

mutual

theorem Stmt.drives_any (s : Stmt) : s.Drives .any := by
  cases s with
  | block stmts => exact Stmt.drivesAll_any stmts
  | yield value => exact Expr.uses_any value
  | tryCatch id body catches cleanup =>
    cases cleanup with
    | none =>
      exact ⟨fun _ => ⟨Stmt.drivesAll_any body, Catch.usesAll_any catches⟩,
        fun _ => Stmt.uses_any _⟩
    | some cleanup =>
      exact ⟨fun _ => ⟨Stmt.drivesAll_any body, Catch.usesAll_any catches,
        Stmt.usesAll_any cleanup⟩, fun _ => Stmt.uses_any _⟩
  | _ => exact Stmt.uses_any _

theorem Stmt.drivesAll_any (ss : List Stmt) : Stmt.DrivesAll .any ss := by
  cases ss with
  | nil => trivial
  | cons s ss => exact ⟨Stmt.drives_any s, Stmt.drivesAll_any ss⟩

end

theorem Stmt.DrivesAll.mem {v : Vocabulary} {ss : List Stmt} (h : Stmt.DrivesAll v ss) {s : Stmt}
    (hs : s ∈ ss) : s.Drives v := by
  induction ss with
  | nil => cases hs
  | cons t ss ih =>
    rcases List.mem_cons.mp hs with rfl | hs
    · exact h.1
    · exact ih h.2 hs

namespace Coroutine

variable {σ : Type} {v : Vocabulary} {env : Environment σ} {observer : Observer σ}
  {acts : Activation → Prop} {hosts : List TryId → σ → Prop} {may : RunError → Prop}
  {root list : List Stmt} {opened : List OpenTry} {p : Point}

/-- What is known of the host depends on the try statements that are open. -/
structure Guarded (v : Vocabulary) (env : Environment σ) (observer : Observer σ)
    (acts : Activation → Prop) (hosts : List TryId → σ → Prop) (may : RunError → Prop) : Prop where
  safe : ∀ ids, Safe v env acts (hosts ids) may
  entered : ∀ {id ids host}, hosts ids host → hosts (id :: ids) (observer.entered id host)
  leaving : ∀ {id ids host}, hosts (id :: ids) host → hosts ids (observer.leaving id host)

/-- A list of a body inside the try statements that are open around it. -/
inductive Inside (root : List Stmt) : List Stmt → List OpenTry → Prop
  | root : Inside root root []
  | inTry {list s s' body : List Stmt} {opened : List OpenTry} {id : TryId} {catches : List Catch}
    {finally? : Option (List Stmt)} {outer : Point} (around : Inside root list opened)
    (later : At list (⟨s, s'⟩ :: outer)) (here : .tryCatch id body catches finally? :: s' <:+ s)
    (suspends : Stmt.anyYields body = true) :
    Inside root body (⟨id, catches, finally?, ⟨s, s'⟩ :: outer⟩ :: opened)

/-- The statements of a list at a point are statements of the body. -/
theorem drives_at (drives : Stmt.DrivesAll v list) (h : At list p) {s : Stmt} {ss rest : List Stmt}
    {outer : Point} (hp : p = ⟨ss, rest⟩ :: outer) (hs : s ∈ ss) : s.Drives v :=
  (h.inherits (P := Stmt.DrivesAll v) (fun drives mem => drives.mem mem) drives hp).mem hs

theorem Inside.drives (h : Inside root list opened) (drives : Stmt.DrivesAll v root) :
    Stmt.DrivesAll v list := by
  induction h with
  | root => exact drives
  | @inTry _ s s' body _ id catches finally? outer around later here suspends ih =>
    have statement := drives_at ih later rfl (here.mem List.mem_cons_self)
    cases finally? with
    | none => exact (statement.1 suspends).1
    | some cleanup => exact (statement.1 suspends).1

/-- What is known when a body has been run up to its next yield. -/
inductive Outcome.Keeps (root : List Stmt) (acts : Activation → Prop)
    (hosts : List TryId → σ → Prop) : Outcome → Config σ → Prop
  | paused {value : Value} {point : Point} {list : List Stmt} {opened : List OpenTry} {c : Config σ}
    (known : Safe.Known acts (hosts (opened.map (·.id))) c) (inside : Inside root list opened)
    (here : At list point) : Keeps root acts hosts (.paused value point opened) c
  | ended {flow : Flow} {c : Config σ} (known : Safe.Known acts (hosts []) c)
    (leads : flow.Leads (Stmt.escapesAll root)) : Keeps root acts hosts (.ended flow) c

/-- An execution inside open try statements that goes on up to the next yield. -/
abbrev Goes (root : List Stmt) (acts : Activation → Prop) (hosts : List TryId → σ → Prop)
    (may : RunError → Prop) (opened : List OpenTry) (x : Exec σ Outcome) : Prop :=
  Ensures (Safe.Known acts (hosts (opened.map (·.id)))) x (Outcome.Keeps root acts hosts)
    fun e _ => may e

variable {go : Point → List OpenTry → Exec σ Outcome}

/-- What fails while something is known fails anyway. -/
theorem failing {α : Type} {x : Exec σ α} {known : Config σ → Prop} {post : α → Config σ → Prop}
    {held : Config σ → Prop} (h : Ensures known x post fun e c => may e ∧ held c) :
    Ensures known x post fun e _ => may e :=
  h.mono (fun _ h => h) (fun _ _ h => h) fun _ _ h => h.1

theorem leaves_try (guarded : Guarded v env observer acts hosts may) {id : TryId} {ids : List TryId}
    {body : List Stmt} {catches : List Catch} {finally? : Option (List Stmt)} {after : Point}
    (drives : (Stmt.tryCatch id body catches finally?).Drives v)
    (suspends : Stmt.anyYields body = true) {flow : Flow} (leads : flow.Leads (Stmt.escapesAll body)) :
    Ensures (Safe.Known acts (hosts (id :: ids)))
      (leaveTry env observer ⟨id, catches, finally?, after⟩ flow)
      (fun flow c => Safe.Known acts (hosts ids) c ∧
        flow.Leads (Stmt.tryCatch id body catches finally?).escapes) fun e _ => may e := by
  have safe := guarded.safe ids
  have told : Ensures (Safe.Known acts (hosts (id :: ids))) (Exec.onHost (observer.leaving id))
      (fun _ => Safe.Known acts (hosts ids)) fun e _ => may e :=
    .update fun _ h => ⟨h.1, guarded.leaving h.2⟩
  refine told.bind fun _ => ?_
  cases finally? with
  | none =>
    refine (failing (safe.handle safe.runAll (drives.1 suspends).2 leads)).bind fun flow => ?_
    exact .pure fun _ h => h
  | some cleanup =>
    obtain ⟨-, clauses, last⟩ := drives.1 suspends
    refine (failing (safe.handle safe.runAll clauses leads)).bind fun flow => .given fun leads => ?_
    exact failing (Safe.cleanUp safe.runAll last leads)

/-- Where a flow leads to, the execution goes on. -/
theorem lands {leave : Flow → Exec σ Outcome}
    (goes : ∀ {p}, At list p → Goes root acts hosts may opened (go p opened))
    (leaves : ∀ {flow}, flow.Leads (Stmt.escapesAll list) → Goes root acts hosts may opened (leave flow))
    {ss rest : List Stmt} {outer : Point} (later : At list (⟨ss, rest⟩ :: outer)) {s : Stmt}
    (mem : s ∈ ss) {flow : Flow} (leads : flow.Leads s.escapes) :
    Goes root acts hosts may opened (land go leave (⟨ss, rest⟩ :: outer) opened flow) := by
  cases flow with
  | normal => exact goes later
  | goto l =>
    cases found : Point.jump? l (⟨ss, rest⟩ :: outer) with
    | some target =>
      simp only [land, found]
      exact goes (later.jump found)
    | none =>
      simp only [land, found]
      refine leaves fun l' same => ?_
      cases same
      exact later.mem_escapesAll rfl mem (leads l rfl) found
  | _ => exact leaves fun _ same => by cases same

section

variable (guarded : Guarded v env observer acts hosts may) (driven : Stmt.DrivesAll v root)

include guarded driven

theorem leaves (goes : ∀ {list p opened}, Inside root list opened → At list p →
      Goes root acts hosts may opened (go p opened))
    (inside : Inside root list opened) {flow : Flow} (leads : flow.Leads (Stmt.escapesAll list)) :
    Goes root acts hosts may opened (leave env observer go opened flow) := by
  induction inside generalizing flow with
  | root => exact .pure fun _ h => .ended h leads
  | inTry around later here suspends ih =>
    have mem := here.mem List.mem_cons_self
    have statement := drives_at (around.drives driven) later rfl mem
    refine (leaves_try guarded statement suspends leads).bind fun flow => .given fun leads => ?_
    exact lands (goes around) ih later mem leads

theorem advances (goes : ∀ {list p opened}, Inside root list opened → At list p →
      Goes root acts hosts may opened (go p opened))
    (inside : Inside root list opened) {s : Stmt} {ss rest : List Stmt} {outer : Point}
    (here : At list (⟨ss, s :: rest⟩ :: outer)) :
    Goes root acts hosts may opened (advance env observer go s (⟨ss, rest⟩ :: outer) opened) := by
  have mem : s ∈ ss := here.suffix.mem List.mem_cons_self
  have later : At list (⟨ss, rest⟩ :: outer) := here.later (List.suffix_cons s rest)
  have own := drives_at (inside.drives driven) here rfl mem
  have safe := guarded.safe (opened.map (·.id))
  have ordinary : s.Uses v → Goes root acts hosts may opened
      ((env.execStmt env.runAll s).unwinding >>=
        land go (leave env observer go opened) (⟨ss, rest⟩ :: outer) opened) := fun uses =>
    (failing (Safe.unwinding (safe.execStmt safe.runAll uses))).bind fun flow =>
      .given fun leads => lands (goes inside) (leaves guarded driven goes inside) later mem leads
  cases s with
  | block stmts => exact goes inside (here.rooted stmts List.suffix_rfl)
  | yield value =>
    have evaluated : Safe.Keeping acts (hosts (opened.map (·.id))) may
        (Exec.unwinding (do return Flow.ret (← env.eval env.runAll value))) (Flow.Leads []) :=
      Safe.unwinding ((safe.eval own).bind fun value =>
        .pure fun _ h => ⟨h.1, fun _ same => by cases same⟩)
    refine (failing evaluated).bind fun flow => .given fun leads => ?_
    cases flow with
    | ret value => exact .pure fun _ h => .paused h inside later
    | _ =>
      refine leaves guarded driven goes inside fun l same => ?_
      exact absurd (leads l same) List.not_mem_nil
  | tryCatch id body catches finally? =>
    cases suspends : Stmt.anyYields body with
    | true =>
      simp only [advance, suspends, if_true]
      have told : Ensures (Safe.Known acts (hosts (opened.map (·.id))))
          (Exec.onHost (observer.entered id))
          (fun _ => Safe.Known acts (hosts (id :: opened.map (·.id)))) fun e _ => may e :=
        .update fun _ h => ⟨h.1, guarded.entered h.2⟩
      refine told.bind fun _ => ?_
      exact goes (.inTry inside later here.suffix suspends) (.base List.suffix_rfl)
    | false =>
      have uses : (Stmt.tryCatch id body catches finally?).Uses v := by
        cases finally? with
        | none => exact own.2 suspends
        | some cleanup => exact own.2 suspends
      simp only [advance, suspends]
      exact ordinary uses
  | _ => exact ordinary own

/-- A body keeps what is known while it is run up to its next yield. -/
theorem goes_drive (n : Nat) (inside : Inside root list opened) (here : At list p) :
    Goes root acts hosts may opened (drive env observer n p opened) := by
  have limit : ∀ {opened}, Goes root acts hosts may opened (throw .stepLimit) := fun {_} =>
    .throws fun _ _ => (guarded.safe []).ordinary _ id
  have ends : ∀ {n p}, Point.next? p = none →
      Goes root acts hosts may [] (drive env observer n p []) := by
    intro n p due
    rw [drive_done due]
    exact .pure fun _ h => .ended h fun _ same => by cases same
  have ticks : ∀ {opened} {x : Exec σ Outcome}, Goes root acts hosts may opened x →
      Goes root acts hosts may opened (Exec.tick >>= fun _ => x) := fun h =>
    (failing (guarded.safe _).tick).bind fun _ => .given fun _ => h
  induction n generalizing list p opened with
  | zero =>
    cases due : p.next? with
    | none =>
      cases opened with
      | nil => exact ends due
      | cons try_ outer =>
        rw [drive_zero (.inr rfl)]
        exact limit
    | some next =>
      rw [drive_zero (.inl (by rw [due]; rfl))]
      exact limit
  | succ n ih =>
    cases due : p.next? with
    | none =>
      cases opened with
      | nil => exact ends due
      | cons try_ outer =>
        rw [drive_leave due]
        exact ticks (leaves guarded driven ih inside fun _ same => by cases same)
    | some next =>
      obtain ⟨s, after⟩ := next
      obtain ⟨ss, rest, outer, rfl, at_⟩ := here.next due
      rw [drive_succ due]
      exact ticks (advances guarded driven ih inside at_)

theorem goes_drives (inside : Inside root list opened) (here : At list p) :
    Goes root acts hosts may opened (drives env observer p opened) := fun c h =>
  goes_drive guarded driven c.fuel inside here c h

/-- What is known of a coroutine between two calls. -/
inductive Live.Keeps (root : List Stmt) (acts : Activation → Prop) (hosts : List TryId → σ → Prop) :
    Live σ → Prop
  | fresh {live : Live σ} (status : live.status = .fresh) (act : acts live.activation)
    (host : hosts [] live.host) : Keeps root acts hosts live
  | paused {live : Live σ} {point : Point} {list : List Stmt} {opened : List OpenTry}
    (status : live.status = .paused point opened) (act : acts live.activation)
    (host : hosts (opened.map (·.id)) live.host) (inside : Inside root list opened)
    (here : At list point) : Keeps root acts hosts live
  | done {live : Live σ} (status : live.status = .done) (act : acts live.activation)
    (host : hosts [] live.host) : Keeps root acts hosts live

omit guarded driven in
/-- What goes on up to the next yield answers a call so that what is known is kept. If it has no answer
it fails as it may, or with a jump that leads out of the body. -/
theorem keeps_resume (ordinary : ∀ e, ¬RunError.OfForm e → may e) {next : Exec σ Outcome}
    (goes : Goes root acts hosts may opened next) (contained : next.Contained) {live live' : Live σ} (act : acts live.activation)
    (host : hosts (opened.map (·.id)) live.host) {fuel : Nat} {r : Except RunError (Option Value)}
    (h : resume next fuel live = reached r live') :
    ((∃ answer : Answer, r = answer.result) → live'.Keeps root acts hosts) ∧
      ∀ e, r = .error e → may e ∨ ∃ l ∈ Stmt.escapesAll root, e = .undefinedLabel l := by
  obtain ⟨good, bad⟩ := goes (live.config fuel) ⟨act, host⟩
  cases hn : next (live.config fuel) with
  | error error c =>
    have failed : resume next fuel live = reached (.error error) _ := resume_error hn
    obtain ⟨rfl, rfl⟩ := reached_inj (h.symm.trans failed)
    refine ⟨fun ⟨answer, same⟩ => ?_, fun e same => ?_⟩
    · cases answer with
      | ok element => cases same
      | error value =>
        cases same
        exact absurd hn (contained _ _ value)
    · cases same
      exact .inl (bad _ _ hn)
  | ok outcome c =>
    have kept := good outcome c hn
    cases kept with
    | paused known inside here =>
      have paused : resume next fuel live = reached (.ok (some _)) _ := resume_paused hn
      obtain ⟨rfl, rfl⟩ := reached_inj (h.symm.trans paused)
      exact ⟨fun _ => .paused rfl known.1 known.2 inside here, fun e same => by cases same⟩
    | @ended flow _ known leads =>
      obtain ⟨rfl, rfl⟩ := reached_inj (h.symm.trans (resume_ended hn))
      refine ⟨fun _ => .done rfl known.1 known.2, fun e same => ?_⟩
      cases flow with
      | goto l =>
        cases same
        exact .inr ⟨l, leads l rfl, rfl⟩
      | throw value =>
        cases same
        exact .inl (ordinary _ id)
      | _ => cases same

/-- So does every call. -/
theorem keeps_perform {live live' : Live σ} (h : live.Keeps root acts hosts) {fuel : Nat} {call : Call}
    {r : Except RunError (Option Value)}
    (performed : perform env observer root fuel call live = reached r live') :
    ((∃ answer : Answer, r = answer.result) → live'.Keeps root acts hosts) ∧
      ∀ e, r = .error e → may e ∨ ∃ l ∈ Stmt.escapesAll root, e = .undefinedLabel l := by
  have nothing : acts live.activation → hosts [] live.host →
      perform env observer root fuel call live = .ok none { live with status := .done } →
      ((∃ answer : Answer, r = answer.result) → live'.Keeps root acts hosts) ∧
        ∀ e, r = .error e → may e ∨ ∃ l ∈ Stmt.escapesAll root, e = .undefinedLabel l := by
    intro act host same
    have ended : reached r live' = reached (.ok none) { live with status := .done } :=
      performed.symm.trans same
    obtain ⟨rfl, rfl⟩ := reached_inj ended
    exact ⟨fun _ => .done rfl act host, fun e same => by cases same⟩
  have goes : ∀ {list p opened}, Inside root list opened → At list p →
      Goes root acts hosts may opened (drives env observer p opened) := goes_drives guarded driven
  have ordinary := (guarded.safe []).ordinary
  cases h with
  | fresh status act host =>
    unfold perform at performed nothing
    rw [status] at performed nothing
    cases call with
    | moveNext =>
      exact keeps_resume ordinary (goes .root (.base List.suffix_rfl)) (contained_drives _ _) act host
        performed
    | dispose => exact nothing act host rfl
  | paused status act host inside here =>
    unfold perform at performed
    rw [status] at performed
    cases call with
    | moveNext =>
      exact keeps_resume ordinary (goes inside here) (contained_drives _ _) act host performed
    | dispose =>
      exact keeps_resume ordinary (leaves guarded driven goes inside fun _ same => by cases same)
        (contained_leave contained_drives _ _) act host performed
  | done status act host => exact nothing act host (perform_done status)

/-- What is known of a new coroutine is known after every call. -/
theorem keeps_of_dialogue {start live : Live σ} (h : start.Keeps root acts hosts)
    {log : List (Call × Answer)} (dialogue : Dialogue (perform env observer root) start log live) :
    live.Keeps root acts hosts := by
  induction dialogue with
  | start => exact h
  | call before performed ih => exact (keeps_perform guarded driven ih performed).1 ⟨_, rfl⟩

end

end Coroutine

end ManagedCode
