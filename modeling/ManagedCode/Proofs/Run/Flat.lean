import ManagedCode.Proofs.Run.DoneBy
import ManagedCode.Proofs.Run.LabelPath
import ManagedCode.Proofs.Run.Recorded

namespace ManagedCode

/-! Bodies without plain blocks. -/

mutual

/-- What stands in a list for a statement when plain blocks are spliced into the lists they are in,
in whatever region. -/
def Stmt.flat : Stmt → List Stmt
  | .block stmts => Stmt.flatAll stmts
  | .tryCatch id body catches none =>
    [.tryCatch id (Stmt.flatAll body) (Catch.flatAll catches) none]
  | .tryCatch id body catches (some cleanup) =>
    [.tryCatch id (Stmt.flatAll body) (Catch.flatAll catches) (some (Stmt.flatAll cleanup))]
  | .tryFault body fault => [.tryFault (Stmt.flatAll body) (Stmt.flatAll fault)]
  | s => [s]

def Stmt.flatAll : List Stmt → List Stmt
  | [] => []
  | s :: ss => s.flat ++ Stmt.flatAll ss

def Catch.flatAll : List Catch → List Catch
  | [] => []
  | .mk ty caught code :: cs => .mk ty caught (Stmt.flatAll code) :: Catch.flatAll cs

end

def Body.flat (body : Body) : Body := { body with root := Stmt.flatAll body.root }

theorem Catch.flatAll_eq_map (cs : List Catch) :
    Catch.flatAll cs = cs.map (Catch.mapCode Stmt.flatAll) := by
  induction cs with
  | nil => rfl
  | cons c cs ih =>
    obtain ⟨ty, caught, code⟩ := c
    rw [Catch.flatAll, ih]
    rfl

theorem Stmt.flat_of_plain {s : Stmt} (plain : ∀ stmts, s ≠ .block stmts) :
    s.flat = [s.mapParts Stmt.flatAll] := by
  cases s with
  | block stmts => exact absurd rfl (plain stmts)
  | tryCatch id body catches finally? =>
    cases finally? <;> rw [Stmt.flat, Catch.flatAll_eq_map] <;> rfl
  | _ => rfl

/-- No statement inside one is a block. -/
def Stmt.Blockless (t : Stmt) : Prop :=
  ∀ (n : Stmt) regions, n.Inside regions t → ∀ stmts, n ≠ .block stmts

theorem Stmt.blockless_of_parts {t : Stmt} (plain : ∀ stmts, t ≠ .block stmts)
    (parts : ∀ region ss, t.Part region ss → ∀ s ∈ ss, s.Blockless) : t.Blockless := by
  intro n regions inside
  cases inside with
  | self => exact plain
  | part part among inner => exact parts _ _ part _ among _ _ inner

mutual

/-- No block is left, at any depth. -/
theorem Stmt.blockless_flat (s : Stmt) : ∀ t ∈ s.flat, t.Blockless := by
  cases s with
  | block inner => exact Stmt.blockless_flatAll inner
  | tryCatch id body catches finally? =>
    have inBody := Stmt.blockless_flatAll body
    have inCatches := Catch.blockless_flatAll catches
    cases finally? with
    | none =>
      refine List.forall_mem_singleton.mpr (Stmt.blockless_of_parts nofun fun region ss part => ?_)
      cases part with
      | body => exact inBody
      | catch_ clause => exact inCatches _ clause
    | some cleanup =>
      have inCleanup := Stmt.blockless_flatAll cleanup
      refine List.forall_mem_singleton.mpr (Stmt.blockless_of_parts nofun fun region ss part => ?_)
      cases part with
      | body => exact inBody
      | catch_ clause => exact inCatches _ clause
      | finally_ => exact inCleanup
  | tryFault body fault =>
    have inBody := Stmt.blockless_flatAll body
    have inFault := Stmt.blockless_flatAll fault
    refine List.forall_mem_singleton.mpr (Stmt.blockless_of_parts nofun fun region ss part => ?_)
    cases part with
    | faultBody => exact inBody
    | fault => exact inFault
  | _ => exact List.forall_mem_singleton.mpr (Stmt.blockless_of_parts nofun nofun)

theorem Stmt.blockless_flatAll (ss : List Stmt) : ∀ t ∈ Stmt.flatAll ss, t.Blockless := by
  cases ss with
  | nil => exact fun _ among => nomatch among
  | cons s ss =>
    exact List.forall_mem_append.mpr ⟨Stmt.blockless_flat s, Stmt.blockless_flatAll ss⟩

theorem Catch.blockless_flatAll (cs : List Catch) :
    ∀ c ∈ Catch.flatAll cs, ∀ t ∈ c.code, t.Blockless := by
  cases cs with
  | nil => exact fun _ among => nomatch among
  | cons c cs =>
    obtain ⟨ty, caught, code⟩ := c
    exact List.forall_mem_cons.mpr ⟨Stmt.blockless_flatAll code, Catch.blockless_flatAll cs⟩

end

namespace Point

/-- What is left to do at a point, without blocks. -/
def flatRest (p : Point) : List Stmt := p.flatMap fun scope => Stmt.flatAll scope.rest

theorem flatRest_cons (stmts rest : List Stmt) (outer : Point) :
    flatRest (⟨stmts, rest⟩ :: outer) = Stmt.flatAll rest ++ outer.flatRest :=
  List.flatMap_cons

theorem flatRest_append (p q : Point) : flatRest (p ++ q) = p.flatRest ++ q.flatRest :=
  List.flatMap_append

/-- The place in a flat list at which as much is left to do as at a point. -/
def flat (top : List Stmt) (p : Point) : Point := [⟨Stmt.flatAll top, p.flatRest⟩]

theorem flat_start (stmts : List Stmt) : (start stmts).flat stmts = start (Stmt.flatAll stmts) := by
  rw [flat, start, flatRest_cons, flatRest, List.flatMap_nil, List.append_nil]
  rfl

mutual

/-- A label is found in the flat list where it is found in the list. -/
theorem find?_flatAll (label : LabelId) (whole list tail : List Stmt) (rest : List Stmt) :
    find? label whole (Stmt.flatAll rest ++ tail) =
      match find? label list rest with
      | some q => some [⟨whole, q.flatRest ++ tail⟩]
      | none => find? label whole tail := by
  cases rest with
  | nil => rfl
  | cons s rest =>
    have later := find?_flatAll label whole list tail rest
    rw [Stmt.flatAll, List.append_assoc, findIn?_flat label whole list tail rest s, later, find?]
    cases findIn? label list rest s <;> rfl

theorem findIn?_flat (label : LabelId) (whole list tail rest : List Stmt) (s : Stmt) :
    find? label whole (s.flat ++ (Stmt.flatAll rest ++ tail)) =
      match findIn? label list rest s with
      | some q => some [⟨whole, q.flatRest ++ tail⟩]
      | none => find? label whole (Stmt.flatAll rest ++ tail) := by
  have skip : ∀ t : Stmt, s.flat = [t] → (∀ whole after, findIn? label whole after t = none) →
      findIn? label list rest s = none →
      find? label whole (s.flat ++ (Stmt.flatAll rest ++ tail)) =
        match findIn? label list rest s with
        | some q => some [⟨whole, q.flatRest ++ tail⟩]
        | none => find? label whole (Stmt.flatAll rest ++ tail) := by
    intro t alone nowhere nowhere'
    rw [alone, nowhere', List.singleton_append, find?, nowhere]
  cases s with
  | label l =>
    have left : flatRest [⟨list, .label l :: rest⟩] = .label l :: Stmt.flatAll rest :=
      List.append_nil _
    have alone : (Stmt.label l).flat = [.label l] := rfl
    rw [alone, List.singleton_append, find?, findIn?, findIn?]
    by_cases here : l = label
    · simp only [if_pos here, left, List.cons_append]
    · simp only [if_neg here]
  | block inner =>
    have within := find?_flatAll label whole inner (Stmt.flatAll rest ++ tail) inner
    rw [Stmt.flat, within, findIn?]
    cases find? label inner inner with
    | none => rfl
    | some q =>
      simp only [Option.map_some, flatRest_append, flatRest_cons, List.append_assoc]
      rfl
  | tryCatch id body catches finally? =>
    cases finally? <;> exact skip _ rfl (fun _ _ => rfl) rfl
  | _ => exact skip _ rfl (fun _ _ => rfl) rfl

end

/-- A jump in the flat list goes to what a jump in the list goes to. -/
theorem jump?_flat {label : LabelId} {top : List Stmt} {p : Point}
    (unique : (Stmt.plainLabelsAll top).Nodup)
    (home : At top p) : jump? label (p.flat top) = (jump? label p).map (flat top) := by
  have found := find?_flatAll label (Stmt.flatAll top) top [] top
  rw [List.append_nil] at found
  rw [home.jump?_eq unique, flat, jump?, found]
  cases find? label top top with
  | none => rfl
  | some q => simp only [Option.map_some, flat, List.append_nil]

end Point

/-! Runs. -/

variable {σ : Type} {env : Environment σ}

/-- From a point on, one gets without doing anything to where nothing is left, or to a statement that
is no block, and what is left in the flat list stays the same. -/
def Settles (env : Environment σ) (top : List Stmt) (p : Point) : Prop :=
  (p.flatRest = [] ∧ ∀ c, ∃ k, (env.runs p).Ends c k .normal c) ∨
    ∃ s q after, (∀ stmts, s ≠ .block stmts) ∧ q.next? = some (s, after) ∧ At top q ∧
      p.flatRest = s.mapParts Stmt.flatAll :: after.flatRest ∧
      ∀ c, ∃ k, (env.runs p).Reaches c k (env.runs q) c

namespace Settles

variable {top : List Stmt} {p q : Point}

/-- So it is if something is done before, none of which is in the flat list. -/
theorem ahead (h : Settles env top q) (rest : p.flatRest = q.flatRest)
    (reaches : ∀ c, ∃ k, (env.runs p).Reaches c k (env.runs q) c) : Settles env top p := by
  rcases h with ⟨nothing, ends⟩ | ⟨s, q', after, plain, due, home, left, goes⟩
  · refine .inl ⟨rest.trans nothing, fun c => ?_⟩
    obtain ⟨k, first⟩ := reaches c
    obtain ⟨m, last⟩ := ends c
    exact ⟨k + m, first.trans last⟩
  · refine .inr ⟨s, q', after, plain, due, home, rest.trans left, fun c => ?_⟩
    obtain ⟨k, first⟩ := reaches c
    obtain ⟨m, last⟩ := goes c
    exact ⟨k + m, first.trans last⟩

/-- A point in a list, where the blocks around it settle. -/
theorem of_rest (still : ∀ s h, env.watch s h = h) (list rest : List Stmt) {outer : Point}
    (rooted : Rooted top list outer) (suffix : rest <:+ list) (around : Settles env top outer) :
    Settles env top (⟨list, rest⟩ :: outer) := by
  cases rest with
  | nil =>
    refine around.ahead (Point.flatRest_cons _ _ _) fun c => ⟨0, ?_⟩
    rw [runs_congr (show Point.next? (⟨list, []⟩ :: outer) = outer.next? from rfl)]
    exact .refl _ c
  | cons s rest =>
    have home : At top (⟨list, s :: rest⟩ :: outer) := rooted _ suffix
    by_cases isBlock : ∃ inner, s = .block inner
    · obtain ⟨inner, rfl⟩ := isBlock
      have later := of_rest still list rest rooted ((List.suffix_cons _ _).trans suffix) around
      have within := of_rest still inner inner home.rooted List.suffix_rfl later
      refine within.ahead ?_ fun c => ⟨1, ?_⟩
      · simp only [Point.flatRest_cons, Stmt.flatAll, Stmt.flat, List.append_assoc]
      · have enter : env.runs (⟨list, .block inner :: rest⟩ :: outer) =
            Exec.tick >>= fun _ => env.runs (⟨inner, inner⟩ :: ⟨list, rest⟩ :: outer) := by
          rw [Environment.runs_eq rfl]
          exact congrArg (Exec.tick >>= ·) (funext fun _ => advance_block (still _))
        rw [enter]
        exact .tick _ c
    · have plain : ∀ stmts, s ≠ .block stmts := fun stmts h => isBlock ⟨stmts, h⟩
      refine .inr ⟨s, _, ⟨list, rest⟩ :: outer, plain, rfl, home, ?_, fun c => ⟨0, .refl _ c⟩⟩
      rw [Point.flatRest_cons, Point.flatRest_cons, Stmt.flatAll, Stmt.flat_of_plain plain]
      rfl
termination_by sizeOf rest

theorem of_at (still : ∀ s h, env.watch s h = h) (h : At top p) : Settles env top p := by
  induction h with
  | base suffix =>
    have done : Settles env top [] := .inl ⟨rfl, fun c => ⟨0, by
      rw [Environment.runs_done rfl]
      exact .refl _ c⟩⟩
    exact of_rest still _ _ (fun _ le => .base le) suffix done
  | block ho hl hi ih => exact of_rest still _ _ (fun _ le => .block ho hl le) hi ih

end Settles

/-- The labels of a part of a statement are labels of the statement. -/
theorem Stmt.labelsAll_sublist_of_part {s : Stmt} {region : Option Stmt.RegionOf} {ss : List Stmt}
    (part : s.Part region ss) : (Stmt.labelsAll ss).Sublist s.labels := by
  cases part with
  | block => exact .refl _
  | body =>
    rename_i id catches finally?
    cases finally? with
    | none => exact List.sublist_append_left _ _
    | some cleanup =>
      exact (List.sublist_append_left _ _).trans (List.sublist_append_left _ _)
  | @catch_ id body catches finally? clause among =>
    obtain ⟨ty, caught, code⟩ := clause
    have inCatches := (Catch.mem_parts among).1
    cases finally? with
    | none => exact inCatches.trans (List.sublist_append_right _ _)
    | some cleanup =>
      exact inCatches.trans
        ((List.sublist_append_right _ _).trans (List.sublist_append_left _ _))
  | finally_ => exact List.sublist_append_right _ _
  | faultBody => exact List.sublist_append_left _ _
  | fault => exact List.sublist_append_right _ _

theorem Stmt.labels_sublist_of_mem {s : Stmt} {ss : List Stmt} (mem : s ∈ ss) :
    s.labels.Sublist (Stmt.labelsAll ss) := by
  induction ss with
  | nil => cases mem
  | cons t ss ih =>
    rcases List.mem_cons.mp mem with rfl | mem
    · exact List.sublist_append_left _ _
    · exact (ih mem).trans (List.sublist_append_right _ _)

/-- Without its blocks, a list does the same, and needs no more fuel. -/
theorem flat_done (still : ∀ s h, env.watch s h = h) (n : Nat) {top : List Stmt} {p : Point}
    (unique : (Stmt.labelsAll top).Nodup) (home : At top p) :
    Exec.DoneBy n (env.runs (p.flat top)) (env.runs p) := by
  induction n using Nat.strongRecOn generalizing top p with
  | ind n ih =>
  intro a bound
  rcases Settles.of_at still home with
    ⟨nothing, ends⟩ | ⟨s, q, after, plain, due, inside, left, goes⟩
  · obtain ⟨k, ended⟩ := ends a
    have done : (p.flat top).next? = none := by
      rw [Point.flat, nothing]
      rfl
    rw [Environment.runs_done done]
    exact .ahead ended (.pure ⟨rfl, rfl⟩)
  · obtain ⟨k, reached⟩ := goes a
    obtain ⟨list, rest, outer, rfl, here⟩ := inside.next due
    have later : At top (⟨list, rest⟩ :: outer) := here.later (List.suffix_cons _ _)
    have due' : (p.flat top).next? =
        some (s.mapParts Stmt.flatAll, Point.flat top (⟨list, rest⟩ :: outer)) := by
      rw [Point.flat, left]
      rfl
    have inList : (Stmt.labelsAll list).Nodup :=
      here.inherits (P := fun list => (Stmt.labelsAll list).Nodup)
        (fun distinct mem => distinct.sublist (Stmt.labels_sublist_of_mem mem)) unique rfl
    have own : s.labels.Nodup :=
      inList.sublist (Stmt.labels_sublist_of_mem (here.suffix.mem List.mem_cons_self))
    let alike : Flow → Config σ → Flow → Config σ → Prop := fun v a' w b' => v = w ∧ a' = b'
    refine .ahead reached (simulates_step alike due' due (Stmt.mapParts_ne_block plain) plain (still _)
      (still _) (fun m hm => ?_) ?_)
    · have exec : Exec.DoneBy m (env.execStmt env.runAll (s.mapParts Stmt.flatAll))
          (env.execStmt env.runAll s) := by
        refine Environment.done_execStmt (fun _ _ => Environment.done_runs m _)
          fun region ss part => ?_
        have distinct := own.sublist (Stmt.labelsAll_sublist_of_part part)
        have whole := ih m (by omega) distinct (.base List.suffix_rfl)
        rwa [← Point.start, Point.flat_start] at whole
      exact exec.unwinding (a.withFuel m) (Nat.le_refl m)
    · rintro flow a' _ _ fewer ⟨rfl, rfl⟩
      have less : a'.fuel < n := by omega
      refine Environment.done_follow (ih _ less unique later) (fun l => ?_) flow a' (Nat.le_refl _)
      rw [Point.jump?_flat (unique.sublist (Stmt.plainLabelsAll_sublist top)) later]
      cases found : Point.jump? l (⟨list, rest⟩ :: outer) with
      | none => exact .inl ⟨rfl, rfl⟩
      | some target => exact .inr ⟨_, _, rfl, rfl, ih _ less unique (later.jump found)⟩

/-- A body is executed as the body without its blocks is. -/
theorem flat_execute_done (still : ∀ s h, env.watch s h = h) (n : Nat) {body : Body}
    (unique : (Stmt.labelsAll body.root).Nodup) (args : List Value) :
    Exec.DoneBy n (Exec.onWorld fun _ => env.execute body.flat args)
      (Exec.onWorld fun _ => env.execute body args) := by
  have root : Exec.DoneBy n (env.runAll body.flat.root) (env.runAll body.root) := by
    have whole := flat_done still n unique (.base List.suffix_rfl)
    rwa [← Point.start, Point.flat_start] at whole
  exact Environment.done_callBody root args

/-- A body whose labels are unique and the same body without its plain blocks end alike if they have
fuel enough: with the same result or error, the same fields and the same requests to the host. The
latter has enough whenever the former has. No search for a label leads through anything but plain
blocks. -/
theorem execute_flat (host : Host σ) (methods : List SynthesizedMethod) (body : Body)
    (unique : (Stmt.labelsAll body.root).Nodup) (args fields : List Value) (start : σ) :
    let env : Environment (Recorded σ) := { host := host.recorded, methods }
    let nested fuel := env.execute body args ⟨fields, fuel, { host := start }⟩
    let flat fuel := env.execute body.flat args ⟨fields, fuel, { host := start }⟩
    (∀ f g r r' w w', nested f = reached r w → flat g = reached r' w' → r ≠ .error .stepLimit →
      r' ≠ .error .stepLimit → r = r' ∧ w.fields = w'.fields ∧ w.host = w'.host) ∧
    (∀ f r w, nested f = reached r w → r ≠ .error .stepLimit →
      ∃ r' w', flat f = reached r' w' ∧ r' ≠ .error .stepLimit) ∧
    ∀ stmts label path, Point.locate label stmts = some path →
      ∃ p, Point.enter stmts path = some p ∧ Point.find? label stmts stmts = some p := by
  intro env nested flat
  have done : ∀ n, Exec.DoneBy n (Exec.onWorld fun _ => env.execute body.flat args)
      (Exec.onWorld fun _ => env.execute body args) := fun n =>
    flat_execute_done (fun _ _ => rfl) n unique args
  let c : Config (Recorded σ) := ⟨{ args }, ⟨fields, 0, { host := start }⟩⟩
  have left : ∀ {f r w}, flat f = reached r w →
      Exec.onWorld (fun _ => env.execute body.flat args) (c.withFuel f) =
        reached r ⟨c.activation, w⟩ := fun {f} _ _ h => Exec.onWorld_eq (c := c.withFuel f) h
  have right : ∀ {f r w}, nested f = reached r w →
      Exec.onWorld (fun _ => env.execute body args) (c.withFuel f) =
        reached r ⟨c.activation, w⟩ := fun {f} _ _ h => Exec.onWorld_eq (c := c.withFuel f) h
  refine ⟨fun f g r r' w w' hn hf through through' => ?_, fun f r w hn through => ?_,
    fun stmts label path found => Point.exists_enter_of_locate found⟩
  · obtain ⟨rfl, same⟩ := Exec.DoneBy.agree done (left hf) (right hn) through' through
    have fields := congrArg (fun c : Config (Recorded σ) => c.world.fields) same
    have host := congrArg (fun c : Config (Recorded σ) => c.world.host) same
    exact ⟨rfl, fields.symm, host.symm⟩
  · obtain ⟨r', c', hf, through'⟩ := (done f).exists_through (right hn) through
    obtain ⟨r, w, hw⟩ := exists_reached (flat f)
    obtain ⟨rfl, -⟩ := reached_inj (hf.symm.trans (left hw))
    exact ⟨r', w, hw, through'⟩

/-- A body that jumps into a block, and out of one inside it. -/
def blockJumps : Body where
  root :=
    [.goto ⟨0⟩, .ret (some (.int 1)),
      .block [.ret (some (.int 2)), .label ⟨0⟩, .block [.goto ⟨1⟩], .ret (some (.int 3))],
      .label ⟨1⟩, .expr (.call (.method default) none [.int 4]), .ret (some (.int 5))]
  labelCount := 2

theorem execute_flat_blockJumps :
    let env : Environment (Recorded Script) := { host := Script.host.recorded }
    ∃ w w', env.execute blockJumps [] ⟨[], 20, { host := {} }⟩ = reached (.ok (.int 5)) w ∧
      env.execute blockJumps.flat [] ⟨[], 20, { host := {} }⟩ = reached (.ok (.int 5)) w' ∧
      w.fields = w'.fields ∧ w.host = w'.host := by
  intro env
  obtain ⟨agree, enough, -⟩ := execute_flat Script.host [] blockJumps (by decide) [] [] {}
  obtain ⟨w, nested⟩ : ∃ w, env.execute blockJumps [] ⟨[], 20, { host := {} }⟩ =
      reached (.ok (.int 5)) w := ⟨_, rfl⟩
  obtain ⟨r', w', flat, through⟩ := enough 20 _ w nested nofun
  obtain ⟨rfl, fields, host⟩ := agree 20 20 _ r' w w' nested flat nofun through
  exact ⟨w, w', nested, flat, fields, host⟩

end ManagedCode
