import Mathlib.Data.List.Forall2
import ManagedCode.Iterator.Step
import ManagedCode.Proofs.Body.WellFormed
import ManagedCode.Proofs.Iterator.FramePaths

namespace ManagedCode

/-! What becomes of the statements of a body, read off the finished machine. -/

mutual

/-- An expression that reads the hoisted fields only, and calls no method of the machine. -/
def Expr.InFields : Expr → Prop
  | .local _ | .param _ => False
  | .machineField slot => 2 ≤ slot.index
  | .field (some receiver) _ => receiver.InFields
  | .call (.synthesized _) _ _ => False
  | .call (.method _) none args => Expr.AllInFields args
  | .call (.method _) (some receiver) args => receiver.InFields ∧ Expr.AllInFields args
  | .binary _ lhs rhs => lhs.InFields ∧ rhs.InFields
  | .unary _ operand => operand.InFields
  | _ => True

def Expr.AllInFields : List Expr → Prop
  | [] => True
  | e :: es => e.InFields ∧ Expr.AllInFields es

end

def Place.InFields : Place → Prop
  | .local _ | .param _ => False
  | .machineField slot => 2 ≤ slot.index
  | .field (some receiver) _ => receiver.InFields
  | _ => True

namespace Lowering

/-- What the finished machine has for its whole body. -/
structure Plan where
  /-- The labels of the body lie below this. -/
  base : Nat
  exit : LabelId
  resumeLabels : List LabelId
  /-- The code of each frame's handler. -/
  handlers : List (List Stmt)
  frames : FrameTree
  /-- The try statement that each frame stands for. -/
  tries : List TryId
  /-- The yields of the body, with the try statements around them, innermost first. State 1 is the
  state after the first. -/
  yields : List (Expr × List TryId)

/-- Where a statement lies. -/
structure Site where
  /-- The frames around, the innermost first. -/
  path : List Nat := []
  inTry : Bool := false
  /-- Nothing here suspends. -/
  native : Bool := false
  /-- The labels defined inside the innermost frame, and its proxies for other targets. -/
  inside : List LabelId := []
  proxies : List (LabelId × LabelId) := []
  /-- The local that holds the answer of a step. -/
  result : Option LocalId := none
  /-- The number of yields of the body that come after the statements. -/
  left : Nat := 0

/-- The finalize state of a frame. -/
def frameState (g : Nat) : Int := firstFinalizeState - g

def handlerMethod (g : Nat) : SynthMethodId := ⟨2 + g⟩

/-- The state of a machine while it runs directly in these frames. -/
def stateOf (path : List Nat) : Int := path.head?.elim runningState frameState

namespace Site

def state (site : Site) : Int := stateOf site.path

/-- A jump to `target` from here names `label`. -/
def Routed (site : Site) (target label : LabelId) : Prop :=
  (site.path = [] ∨ target ∈ site.inside) ∧ label = target ∨
    site.path ≠ [] ∧ target ∉ site.inside ∧ (target, label) ∈ site.proxies

/-- Inside a try statement that does not suspend. -/
def within (site : Site) : Site := { site with inTry := true, native := true }

/-- Where `n` more yields follow. -/
def followed (site : Site) (n : Nat) : Site := { site with left := site.left + n }

theorem followed_followed (site : Site) (m n : Nat) :
    (site.followed m).followed n = site.followed (n + m) := by
  unfold followed
  rw [Nat.add_assoc, Nat.add_comm m]

/-- In the cleanup of a frame that lies here. -/
def cleaning (site : Site) : Site := { site with native := true, result := none }

end Site

/-- Each proxy calls the handler of frame `g` and goes on from the site around it. -/
def Sections (outer : Site) (g : Nat) : List (LabelId × LabelId) → List Stmt → Prop
  | [], out => out = []
  | (target, proxy) :: rest, out => ∃ next tail, outer.Routed target next ∧
      Sections outer g rest tail ∧
      out = .label proxy :: .expr (.callSynthesized (handlerMethod g)) :: .goto next :: tail

/-- The end of frame `g`. -/
def Leaving (outer : Site) (g : Nat) (proxies : List (LabelId × LabelId)) (out : List Stmt) : Prop :=
  proxies = [] ∧ out = [.expr (.callSynthesized (handlerMethod g))] ∨
    ∃ drop sections, Sections outer g proxies sections ∧
      out = .goto drop :: sections ++
        [.label drop, .expr (.callSynthesized (handlerMethod g))]

/-- A try statement that lies at `outer` became frame `g`, with `inner` for its body. -/
structure Framed (plan : Plan) (outer inner : Site) (g : Nat) (id : TryId)
    (body cleanup leave clause : List Stmt) : Prop where
  path : inner.path = g :: outer.path
  inTry : inner.inTry = true
  native : inner.native = false
  result : inner.result = outer.result
  left : inner.left = outer.left
  below : ∀ l ∈ inner.inside, l.index < plan.base
  fresh : ∀ pair ∈ inner.proxies, plan.base ≤ pair.2.index
  /-- Its proxies are for jumps that lead out of the body, and to the end of the step method. -/
  targets : ∀ pair ∈ inner.proxies, pair.1 ∈ Stmt.escapesAll body ∨ pair.1 = plan.exit
  leaving : Leaving outer g inner.proxies leave
  handler : plan.handlers[g]? = some (setState outer.state :: clause ++ [.ret none])
  number : plan.tries[g]? = some id
  covers : plan.frames.Covers (frameState g) inner.path
  /-- A jump out of the body goes to no label of the try statement. -/
  out : ∀ l ∈ Stmt.escapesAll body, l ∉ inner.inside
  closed : Stmt.escapesAll cleanup = []

mutual

/-- What a statement at a site is written as. -/
def Written (plan : Plan) (site : Site) : Stmt → List Stmt → Prop
  | .block stmts, out => ∃ inner, WrittenAll plan site stmts inner ∧ out = [.block inner]
  | .expr value, out => value.InFields ∧ out = [.expr value]
  | .assign place value, out => place.InFields ∧ value.InFields ∧ out = [.assign place value]
  | .label l, out =>
    l.index < plan.base ∧ (site.path = [] ∨ l ∈ site.inside) ∧ out = [.label l]
  | .goto target, out => ∃ l, site.Routed target l ∧ out = [.goto l]
  | .condGoto cond jumpIf target, out =>
    cond.InFields ∧ ∃ l, site.Routed target l ∧ out = [.condGoto cond jumpIf l]
  | .switch scrutinee cases default?, out =>
    scrutinee.InFields ∧ ∃ cases' default',
      List.Forall₂ (fun x y => y.1 = x.1 ∧ site.Routed x.2 y.2) cases cases' ∧
      Option.Rel site.Routed default? default' ∧ out = [.switch scrutinee cases' default']
  | .ret value, out => value = none ∧
    (site.inTry = true ∧ (∃ result l, site.result = some result ∧ site.Routed plan.exit l ∧
        out = [.assign (.local result) (.bool false), .goto l]) ∨
      site.inTry = false ∧ site.native = false ∧
        out = [setState finishedState, .ret (some (.bool false))])
  | .yield value, out => site.native = false ∧ value.InFields ∧
    ∃ (k : Nat) (resume : LabelId) (around : List TryId),
      plan.resumeLabels[k + 1]? = some resume ∧ plan.frames.Covers (k + 1 : Nat) site.path ∧
      plan.yields[k]? = some (value, around) ∧ k + 1 + site.left = plan.yields.length ∧
      site.path.map (plan.tries[·]?) = around.map some ∧
      out = [.assign (.machineField currentField) value, setState (k + 1 : Nat),
        .ret (some (.bool true)), .label resume, setState site.state]
  | .yieldBreak, _ => False
  | .tryCatch id body catches none, out =>
    Stmt.anyYields body = false ∧
      ∃ body' catches', WrittenAll plan site.within body body' ∧
        WrittenCatches plan site.within catches catches' ∧ out = [.tryCatch id body' catches' none]
  | .tryCatch id body catches (some cleanup), out =>
    (Stmt.anyYields body = false ∧
      ∃ body' catches' cleanup', WrittenAll plan site.within body body' ∧
        WrittenCatches plan site.within catches catches' ∧
        WrittenAll plan site.within cleanup cleanup' ∧
        out = [.tryCatch id body' catches' (some cleanup')]) ∨
    (Stmt.anyYields body = true ∧ site.native = false ∧ catches = [] ∧
      ∃ inner g stmts leave clause, WrittenAll plan inner body stmts ∧
        WrittenAll plan site.cleaning cleanup clause ∧
        Framed plan site inner g id body cleanup leave clause ∧
        out = [.block (setState inner.state :: stmts ++ leave)])
  | .tryFault body fault, out =>
    ∃ body' fault', WrittenAll plan site.within body body' ∧
      WrittenAll plan site.within fault fault' ∧ out = [.tryFault body' fault']
  | .throw value, out => value.InFields ∧ out = [.throw value]
  | .nop, out => out = [.nop]

def WrittenAll (plan : Plan) (site : Site) : List Stmt → List Stmt → Prop
  | [], out => out = []
  | s :: ss, out => ∃ first rest, Written plan (site.followed (Stmt.yieldCount ss)) s first ∧
      WrittenAll plan site ss rest ∧ out = first ++ rest

/-- A caught exception goes through a local of the method, which is not the one that holds the
answer of a step. -/
def WrittenCatch (plan : Plan) (site : Site) : Catch → Catch → Prop
  | .mk exceptionTy none body, out =>
    ∃ body', WrittenAll plan site body body' ∧ out = .mk exceptionTy none body'
  | .mk exceptionTy (some caught) (.assign place (.local read) :: body), out =>
    ∃ temp body', WrittenAll plan site body body' ∧ place.InFields ∧ read = caught ∧
      site.result ≠ some temp ∧
      out = .mk exceptionTy (some temp) (.assign place (.local temp) :: body')
  | .mk _ (some _) _, _ => False

def WrittenCatches (plan : Plan) (site : Site) : List Catch → List Catch → Prop
  | [], out => out = []
  | c :: cs, out => ∃ first rest, WrittenCatch plan site c first ∧ WrittenCatches plan site cs rest ∧
      out = first :: rest

end

end Lowering

end ManagedCode
