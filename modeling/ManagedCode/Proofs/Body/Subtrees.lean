import Mathlib.Data.List.Lex
import ManagedCode.Body.Tree

namespace ManagedCode

/-- The hooks of a visitor. -/
inductive Hook where
  | stmt
  | tryCatch
  | catch_
  | expr
  | place
  deriving DecidableEq

/-- A node of a statement tree with all that lies under it. A try statement is a statement and a
node of its own. -/
inductive Subtree where
  | stmt (stmt : Stmt)
  | tryCatch (tryStmt : TryStmt)
  | catch_ (clause : Catch)
  | expr (expr : Expr)
  | place (place : Place)

namespace Subtree

/-- The hook that is called for a node. -/
def hook : Subtree → Hook
  | .stmt _ => .stmt
  | .tryCatch _ => .tryCatch
  | .catch_ _ => .catch_
  | .expr _ => .expr
  | .place _ => .place

/-- What lies directly under a node, in the order of the source. -/
def children : Subtree → List Subtree
  | .stmt (.block stmts) => stmts.map .stmt
  | .stmt (.expr e) | .stmt (.yield e) | .stmt (.throw e) => [.expr e]
  | .stmt (.assign p value) => [.place p, .expr value]
  | .stmt (.condGoto cond _ _) => [.expr cond]
  | .stmt (.switch scrutinee _ _) => [.expr scrutinee]
  | .stmt (.ret value?) => value?.toList.map .expr
  | .stmt (.tryCatch id body catches finally?) => [.tryCatch ⟨id, body, catches, finally?⟩]
  | .stmt (.tryFault body fault) => body.map .stmt ++ fault.map .stmt
  | .stmt (.label _) | .stmt (.goto _) | .stmt .yieldBreak | .stmt .nop => []
  | .tryCatch ⟨_, body, catches, finally?⟩ =>
    body.map .stmt ++ catches.map .catch_ ++ (finally?.getD []).map .stmt
  | .catch_ (.mk _ _ code) => code.map .stmt
  | .expr (.field receiver? _) => receiver?.toList.map .expr
  | .expr (.call _ receiver? args) => receiver?.toList.map .expr ++ args.map .expr
  | .expr (.binary _ lhs rhs) => [.expr lhs, .expr rhs]
  | .expr (.unary _ operand) => [.expr operand]
  | .expr (.element array _ indices) => .expr array :: indices.map .expr
  | .expr (.addressOf p) => [.place p]
  | .expr (.newArray _ lengths) => lengths.map .expr
  | .expr (.const _) | .expr (.local _) | .expr (.param _) | .expr (.machineField _)
  | .expr (.typeToken _) => []
  | .place (.field receiver? _) => receiver?.toList.map .expr
  | .place (.element array _ indices) => .expr array :: indices.map .expr
  | .place (.local _) | .place (.param _) | .place (.machineField _) => []

/-! A position is the list of the places that the nodes on the way to it have among those beside
them. -/

def at? (t : Subtree) : List Nat → Option Subtree
  | [] => some t
  | i :: path => t.children[i]?.bind (·.at? path)

/-- The subtree at a position below a list of subtrees. -/
def below? (ts : List Subtree) : List Nat → Option Subtree
  | [] => none
  | i :: path => ts[i]?.bind (·.at? path)

/-- A position lies properly under a node with one of some hooks. -/
def LiesUnder (hooks : Hook → Bool) (ts : List Subtree) (path : List Nat) : Prop :=
  ∃ n < path.length, ∃ t ∈ below? ts (path.take n), hooks t.hook

instance (hooks : Hook → Bool) (ts : List Subtree) (path : List Nat) :
    Decidable (LiesUnder hooks ts path) :=
  inferInstanceAs (Decidable (∃ n < path.length, ∃ t ∈ below? ts (path.take n), hooks t.hook))

/-- The positions below some subtrees, in the order in which they are met in the source: each once,
with the subtree that is there. -/
structure Lists (ts : List Subtree) (sites : List (List Nat × Subtree)) : Prop where
  sorted : sites.Pairwise (·.1 < ·.1)
  mem_iff : ∀ {path t}, (path, t) ∈ sites ↔ below? ts path = some t

variable {hooks : Hook → Bool} {t : Subtree} {ts : List Subtree} {path : List Nat}
  {inner rest : List (List Nat × Subtree)}

theorem Lists.nonempty (h : Lists ts inner) {site : List Nat × Subtree} (among : site ∈ inner) :
    ∃ i tail, site.1 = i :: tail := by
  obtain ⟨path, t⟩ := site
  cases path with
  | nil => cases h.mem_iff.mp among
  | cons i tail => exact ⟨i, tail, rfl⟩

/-! The positions below the first of some subtrees begin with 0, and those below the others with
one more than they do without it. -/

def intoFirst (site : List Nat × Subtree) : List Nat × Subtree := (0 :: site.1, site.2)

def pastFirst (site : List Nat × Subtree) : List Nat × Subtree :=
  (site.1.modifyHead (· + 1), site.2)

theorem below?_intoFirst (i : Nat) (tail : List Nat) :
    below? (t :: ts) (0 :: i :: tail) = below? t.children (i :: tail) := rfl

theorem below?_pastFirst (path : List Nat) :
    below? (t :: ts) (path.modifyHead (· + 1)) = below? ts path := by
  cases path <;> rfl

theorem Lists.nil : Lists [] [] where
  sorted := .nil
  mem_iff {path t} := by cases path <;> simp [below?]

theorem mem_map_intoFirst {u : Subtree} :
    (path, u) ∈ inner.map intoFirst ↔ ∃ tail, path = 0 :: tail ∧ (tail, u) ∈ inner := by
  simp only [List.mem_map, intoFirst, Prod.mk.injEq, Prod.exists]
  grind

theorem Lists.mem_map_pastFirst (h : Lists ts rest) {u : Subtree} :
    (path, u) ∈ rest.map pastFirst ↔
      ∃ i tail, path = (i + 1) :: tail ∧ (i :: tail, u) ∈ rest := by
  constructor
  · intro among
    obtain ⟨⟨old, _⟩, hf, same⟩ := List.mem_map.mp among
    obtain ⟨i, tail, rfl⟩ := h.nonempty hf
    cases same
    exact ⟨i, tail, rfl, hf⟩
  · rintro ⟨i, tail, rfl, hf⟩
    exact List.mem_map_of_mem hf

/-- A subtree comes before what lies under it, and that before the subtrees beside it. -/
theorem Lists.cons (h : Lists t.children inner) (h' : Lists ts rest) :
    Lists (t :: ts) (([0], t) :: (inner.map intoFirst ++ rest.map pastFirst)) where
  sorted := by
    refine List.pairwise_cons.mpr ⟨fun site among => ?_, List.pairwise_append.mpr ⟨?_, ?_, ?_⟩⟩
    · obtain ⟨path, u⟩ := site
      rcases List.mem_append.mp among with among | among
      · obtain ⟨tail, rfl, hf⟩ := mem_map_intoFirst.mp among
        obtain ⟨i, tail, rfl⟩ := h.nonempty hf
        exact .cons .nil
      · obtain ⟨i, tail, rfl, -⟩ := h'.mem_map_pastFirst.mp among
        exact .rel (Nat.succ_pos i)
    · exact List.pairwise_map.mpr (h.sorted.imp fun less => .cons less)
    · refine List.pairwise_map.mpr (h'.sorted.imp_of_mem fun {site site'} ha hb less => ?_)
      obtain ⟨i, tail, same⟩ := h'.nonempty ha
      obtain ⟨j, tail', same'⟩ := h'.nonempty hb
      rw [same, same', List.cons_lt_cons_iff] at less
      rw [pastFirst, pastFirst, same, same']
      exact List.cons_lt_cons_iff.mpr (less.imp Nat.succ_lt_succ (.imp_left (congrArg (· + 1))))
    · rintro ⟨path, u⟩ among ⟨path', u'⟩ among'
      obtain ⟨tail, rfl, -⟩ := mem_map_intoFirst.mp among
      obtain ⟨i, tail', rfl, -⟩ := h'.mem_map_pastFirst.mp among'
      exact .rel (Nat.succ_pos i)
  mem_iff {path u} := by
    rw [List.mem_cons, List.mem_append, mem_map_intoFirst, h'.mem_map_pastFirst]
    match path with
    | [] => simp [below?]
    | [0] =>
      have none : ([], u) ∉ inner := fun among => by cases h.mem_iff.mp among
      simp [below?, at?, none, eq_comm]
    | 0 :: i :: tail => simp [below?_intoFirst, h.mem_iff]
    | (i + 1) :: tail => simp [h'.mem_iff, below?]

/-! What lies under a node among the first of some subtrees, or among the others. -/

theorem not_liesUnder_first : ¬LiesUnder hooks (t :: ts) [0] := by
  rintro ⟨n, short, u, hu, -⟩
  obtain rfl : n = 0 := Nat.lt_one_iff.mp short
  cases hu

theorem liesUnder_intoFirst {i : Nat} {tail : List Nat} :
    LiesUnder hooks (t :: ts) (0 :: i :: tail) ↔
      hooks t.hook ∨ LiesUnder hooks t.children (i :: tail) := by
  constructor
  · rintro ⟨n, short, u, hu, stops⟩
    match n with
    | 0 => cases hu
    | 1 =>
      cases hu
      exact .inl stops
    | n + 2 => exact .inr ⟨n + 1, Nat.lt_of_succ_lt_succ short, u, hu, stops⟩
  · rintro (stops | ⟨n, short, u, hu, stops⟩)
    · exact ⟨1, Nat.succ_lt_succ (Nat.succ_pos _), t, rfl, stops⟩
    · match n with
      | 0 => cases hu
      | n + 1 => exact ⟨n + 2, Nat.succ_lt_succ short, u, hu, stops⟩

theorem liesUnder_pastFirst (path : List Nat) :
    LiesUnder hooks (t :: ts) (path.modifyHead (· + 1)) ↔ LiesUnder hooks ts path := by
  have same (n : Nat) : below? (t :: ts) ((path.modifyHead (· + 1)).take n) =
      below? ts (path.take n) := by
    rw [← below?_pastFirst (t := t)]
    cases path <;> cases n <;> rfl
  simp only [LiesUnder, List.length_modifyHead, same]

/-- Holds of no subtrees, and of some if it holds of what lies under the first and of the others. -/
structure Hereditary (P : List Subtree → Prop) : Prop where
  nil : P []
  cons : ∀ {t ts}, P t.children → P ts → P (t :: ts)

namespace Hereditary

variable {P : List Subtree → Prop}

mutual

theorem expr (h : Hereditary P) (e : Expr) {ts : List Subtree} (rest : P ts) :
    P (.expr e :: ts) := by
  refine h.cons ?_ rest
  cases e with
  | const | «local» | param | machineField | typeToken => exact h.nil
  | field receiver? member =>
    cases receiver? with
    | none => exact h.nil
    | some receiver => exact h.expr receiver h.nil
  | call callee receiver? args =>
    cases receiver? with
    | none => exact h.exprs args
    | some receiver => exact h.expr receiver (h.exprs args)
  | binary op lhs rhs => exact h.expr lhs (h.expr rhs h.nil)
  | unary op operand => exact h.expr operand h.nil
  | element array ty indices => exact h.expr array (h.exprs indices)
  | addressOf p => exact h.place p h.nil
  | newArray ty lengths => exact h.exprs lengths

theorem exprs (h : Hereditary P) (es : List Expr) : P (es.map .expr) := by
  cases es with
  | nil => exact h.nil
  | cons e es => exact h.expr e (h.exprs es)

theorem place (h : Hereditary P) (p : Place) {ts : List Subtree} (rest : P ts) :
    P (.place p :: ts) := by
  refine h.cons ?_ rest
  cases p with
  | «local» | param | machineField => exact h.nil
  | field receiver? member =>
    cases receiver? with
    | none => exact h.nil
    | some receiver => exact h.expr receiver h.nil
  | element array ty indices => exact h.expr array (h.exprs indices)

end

mutual

theorem stmt (h : Hereditary P) (s : Stmt) {ts : List Subtree} (rest : P ts) :
    P (.stmt s :: ts) := by
  refine h.cons ?_ rest
  cases s with
  | block stmts => exact h.allStmts stmts
  | expr e | yield e | throw e => exact h.expr e h.nil
  | assign p value => exact h.place p (h.expr value h.nil)
  | condGoto cond => exact h.expr cond h.nil
  | switch scrutinee => exact h.expr scrutinee h.nil
  | ret value? =>
    cases value? with
    | none => exact h.nil
    | some value => exact h.expr value h.nil
  | tryCatch id body catches finally? =>
    refine h.cons ?_ h.nil
    have last : P ((finally?.getD []).map .stmt) := by
      cases finally? with
      | none => exact h.nil
      | some cleanup => exact h.allStmts cleanup
    have whole := h.stmts body (h.catches_ catches last)
    rwa [← List.append_assoc] at whole
  | tryFault body fault => exact h.stmts body (h.allStmts fault)
  | label | goto | yieldBreak | nop => exact h.nil

theorem stmts (h : Hereditary P) (ss : List Stmt) {ts : List Subtree} (rest : P ts) :
    P (ss.map .stmt ++ ts) := by
  cases ss with
  | nil => exact rest
  | cons s ss => exact h.stmt s (h.stmts ss rest)

theorem allStmts (h : Hereditary P) (ss : List Stmt) : P (ss.map .stmt) := by
  cases ss with
  | nil => exact h.nil
  | cons s ss => exact h.stmt s (h.allStmts ss)

theorem catches_ (h : Hereditary P) (cs : List Catch) {ts : List Subtree} (rest : P ts) :
    P (cs.map .catch_ ++ ts) := by
  cases cs with
  | nil => exact rest
  | cons c cs =>
    cases c with
    | mk exceptionTy caught code => exact h.cons (h.allStmts code) (h.catches_ cs rest)

end

end Hereditary

end Subtree

end ManagedCode
