import ManagedCode.Proofs.Iterator.Rewrites

namespace ManagedCode

namespace Lowering

/-! What lowering may rely on in each part of a body. -/

variable {source : Source} {base : Nat}

structure Readable (source : Source) (base : Nat) (s : Stmt) : Prop where
  suspendable : s.Suspendable
  described : ∀ t ∈ s.tries, source.facts.Describe t
  apart : s.Apart
  contained : s.Contained
  uses : s.Uses (.iterator (fun _ => True) fun _ => True)
  labels : ∀ l ∈ s.labels, l.index < base

structure ReadableAll (source : Source) (base : Nat) (ss : List Stmt) : Prop where
  suspendable : Stmt.SuspendableAll ss
  described : ∀ t ∈ Stmt.triesAll ss, source.facts.Describe t
  apart : ∀ s ∈ ss, s.Apart
  contained : Stmt.ContainedAll ss
  uses : Stmt.UsesAll (.iterator (fun _ => True) fun _ => True) ss
  labels : ∀ l ∈ Stmt.labelsAll ss, l.index < base

structure ReadableCatches (source : Source) (base : Nat) (cs : List Catch) : Prop where
  suspendable : Catch.SuspendableAll cs
  described : ∀ t ∈ Catch.triesAll cs, source.facts.Describe t
  apart : ∀ ty caught ss, .mk ty caught ss ∈ cs → Stmt.Scoped ss
  contained : Catch.ContainedAll cs
  uses : Catch.UsesAll (.iterator (fun _ => True) fun _ => True) cs
  labels : ∀ l ∈ Catch.labelsAll cs, l.index < base

theorem readable_body {body : Body} {facts : YieldFacts} (regular : body.Regular)
    (h : YieldFacts.ofBody body = .ok facts) :
    ReadableAll (.of body facts) body.labelCount body.root where
  suspendable := YieldFacts.suspendable_ofBody h
  described := YieldFacts.describe_ofBody regular.tries h
  apart := regular.isScoped.apart
  contained := regular.contained
  uses := regular.uses
  labels := regular.labelCount

theorem ReadableAll.head {s : Stmt} {ss : List Stmt} (h : ReadableAll source base (s :: ss)) :
    Readable source base s where
  suspendable := h.suspendable.1
  described t ht := h.described t (List.mem_append_left _ ht)
  apart := h.apart s List.mem_cons_self
  contained := h.contained.1
  uses := h.uses.1
  labels l hl := h.labels l (List.mem_append_left _ hl)

theorem ReadableAll.tail {s : Stmt} {ss : List Stmt} (h : ReadableAll source base (s :: ss)) :
    ReadableAll source base ss where
  suspendable := h.suspendable.2
  described t ht := h.described t (List.mem_append_right _ ht)
  apart s hs := h.apart s (List.mem_cons_of_mem _ hs)
  contained := h.contained.2
  uses := h.uses.2
  labels l hl := h.labels l (List.mem_append_right _ hl)

theorem ReadableCatches.head {ty : Option Ty} {caught : Option LocalId} {body : List Stmt}
    {cs : List Catch} (h : ReadableCatches source base (.mk ty caught body :: cs)) :
    ReadableAll source base body where
  suspendable := h.suspendable.1
  described t ht := h.described t (List.mem_append_left _ ht)
  apart := (h.apart ty caught body List.mem_cons_self).apart
  contained := h.contained.1
  uses := h.uses.2.1
  labels l hl := h.labels l (List.mem_append_left _ hl)

theorem ReadableCatches.tail {c : Catch} {cs : List Catch}
    (h : ReadableCatches source base (c :: cs)) : ReadableCatches source base cs := by
  obtain ⟨ty, caught, body⟩ := c
  exact
    { suspendable := h.suspendable.2
      described := fun t ht => h.described t (List.mem_append_right _ ht)
      apart := fun ty caught ss hc => h.apart ty caught ss (List.mem_cons_of_mem _ hc)
      contained := h.contained.2
      uses := h.uses.2.2
      labels := fun l hl => h.labels l (List.mem_append_right _ hl) }

namespace Readable

theorem block {ss : List Stmt} (h : Readable source base (.block ss)) :
    ReadableAll source base ss where
  suspendable := h.suspendable
  described := h.described
  apart := h.apart.block.apart
  contained := h.contained
  uses := h.uses
  labels := h.labels

variable {id : TryId} {body cleanup fault : List Stmt} {catches : List Catch}
  {finally? : Option (List Stmt)}

theorem inBody (h : Readable source base (.tryCatch id body catches finally?)) :
    ReadableAll source base body := by
  cases finally? with
  | none =>
    exact
      { suspendable := h.suspendable.2.2.1
        described := fun t ht =>
          h.described t (List.mem_cons_of_mem _ (List.mem_append_left _ ht))
        apart := h.apart.inBody.apart
        contained := h.contained.1
        uses := h.uses.1
        labels := fun l hl => h.labels l (List.mem_append_left _ hl) }
  | some cleanup =>
    exact
      { suspendable := h.suspendable.2.2.2.2.1
        described := fun t ht => h.described t
          (List.mem_cons_of_mem _ (List.mem_append_left _ (List.mem_append_left _ ht)))
        apart := h.apart.inBody.apart
        contained := h.contained.1
        uses := h.uses.1
        labels := fun l hl => h.labels l (List.mem_append_left _ (List.mem_append_left _ hl)) }

theorem inCatches (h : Readable source base (.tryCatch id body catches finally?)) :
    ReadableCatches source base catches := by
  cases finally? with
  | none =>
    exact
      { suspendable := h.suspendable.2.2.2
        described := fun t ht =>
          h.described t (List.mem_cons_of_mem _ (List.mem_append_right _ ht))
        apart := fun _ _ _ hc => h.apart.inCatch hc
        contained := h.contained.2
        uses := h.uses.2
        labels := fun l hl => h.labels l (List.mem_append_right _ hl) }
  | some cleanup =>
    exact
      { suspendable := h.suspendable.2.2.2.2.2.1
        described := fun t ht => h.described t
          (List.mem_cons_of_mem _ (List.mem_append_left _ (List.mem_append_right _ ht)))
        apart := fun _ _ _ hc => h.apart.inCatch hc
        contained := h.contained.2.1
        uses := h.uses.2.1
        labels := fun l hl => h.labels l (List.mem_append_left _ (List.mem_append_right _ hl)) }

theorem inCleanup (h : Readable source base (.tryCatch id body catches (some cleanup))) :
    ReadableAll source base cleanup where
  suspendable := h.suspendable.2.2.2.2.2.2
  described t ht := h.described t (List.mem_cons_of_mem _ (List.mem_append_right _ ht))
  apart := h.apart.inCleanup.apart
  contained := h.contained.2.2.1
  uses := h.uses.2.2
  labels l hl := h.labels l (List.mem_append_right _ hl)

theorem inFaultBody (h : Readable source base (.tryFault body fault)) :
    ReadableAll source base body where
  suspendable := h.suspendable.2.2.1
  described t ht := h.described t (List.mem_append_left _ ht)
  apart := h.apart.inFaultBody.apart
  contained := h.contained.1
  uses := h.uses.1
  labels l hl := h.labels l (List.mem_append_left _ hl)

theorem inFault (h : Readable source base (.tryFault body fault)) :
    ReadableAll source base fault where
  suspendable := h.suspendable.2.2.2
  described t ht := h.described t (List.mem_append_right _ ht)
  apart := h.apart.inFault.apart
  contained := h.contained.2
  uses := h.uses.2
  labels l hl := h.labels l (List.mem_append_right _ hl)

/-- A try statement with a cleanup is known to suspend if it does. -/
theorem containsYield (h : Readable source base (.tryCatch id body catches (some cleanup))) :
    source.facts.containsYield id = Stmt.anyYields body := by
  obtain ⟨-, none, none', -⟩ := h.suspendable
  refine (h.described _ List.mem_cons_self).yields.trans ?_
  change (Stmt.anyYields body || Catch.anyYields catches || Stmt.anyYields cleanup) = _
  rw [none, none', Bool.or_false, Bool.or_false]

theorem mem_labels (h : Readable source base (.tryCatch id body catches (some cleanup)))
    {l : LabelId} : l ∈ source.facts.labels id ↔
      l ∈ (Stmt.tryCatch id body catches (some cleanup)).labels :=
  (h.described _ List.mem_cons_self).labels l

end Readable

end Lowering

end ManagedCode
