import Mathlib.Algebra.Order.Group.Multiset
import ManagedCode.Iterator.Step
import ManagedCode.Proofs.Body.Nodes
import ManagedCode.Proofs.Iterator.HoistBody

namespace ManagedCode

/-! The code in a body: which of its nodes compute or store something, and what lowering adds. -/

namespace Node

/-- Expressions, places, catch clauses, and statements that are made of expressions and places
only. The other statements say in which order these are run. -/
def isCode : Node → Bool
  | .expr _ | .place _ | .catch_ _ => true
  | .stmt (.expr _) | .stmt (.assign _ _) | .stmt (.throw _) => true
  | _ => false

/-- A node over the fields of a machine. -/
def hoist (n : Nat) : Node → Node
  | .stmt s => .stmt (s.hoist n)
  | .tryCatch id => .tryCatch id
  | .catch_ exceptionTy => .catch_ exceptionTy
  | .expr e => .expr (e.hoist n)
  | .place p => .place (p.hoist n)

@[simp] theorem isCode_hoist (n : Nat) (node : Node) : (node.hoist n).isCode = node.isCode := by
  cases node with
  | stmt s =>
    cases s with
    | tryCatch id body catches finally? => cases finally? <;> rfl
    | _ => rfl
  | _ => rfl

/-- The code among some nodes, each node as often as it occurs. -/
def code (nodes : List Node) : Multiset Node := ↑(nodes.filter isCode)

@[simp] theorem code_nil : code [] = 0 := rfl

@[simp] theorem code_append (nodes nodes' : List Node) :
    code (nodes ++ nodes') = code nodes + code nodes' := by
  rw [code, List.filter_append]
  rfl

theorem code_cons (node : Node) (nodes : List Node) :
    code (node :: nodes) = code [node] + code nodes :=
  code_append [node] nodes

/-- What says in which order code is run is no code. -/
theorem code_of_order {node : Node} (order : node.isCode = false) (nodes : List Node) :
    code (node :: nodes) = code nodes := by
  rw [code, List.filter_cons_of_neg (Bool.eq_false_iff.mp order)]
  rfl

theorem code_flatMap {α : Type} (f : α → List Node) (l : List α) :
    code (l.flatMap f) = (l.map fun a => code (f a)).sum := by
  induction l with
  | nil => rfl
  | cons a l ih => rw [List.flatMap_cons, code_append, ih, List.map_cons, List.sum_cons]

@[simp] theorem code_map_hoist (n : Nat) (nodes : List Node) :
    code (nodes.map (hoist n)) = (code nodes).map (hoist n) := by
  rw [code, code, List.filter_map, Multiset.map_coe]
  congr 2
  exact List.filter_congr fun node _ => isCode_hoist n node

theorem mem_code {node : Node} {nodes : List Node} :
    node ∈ code nodes ↔ node ∈ nodes ∧ node.isCode = true :=
  Multiset.mem_coe.trans List.mem_filter

end Node

mutual

/-- Hoisting an expression hoists all its nodes. -/
theorem Expr.nodes_hoist (n : Nat) (e : Expr) :
    (e.hoist n).nodes = e.nodes.map (Node.hoist n) := by
  cases e with
  | field receiver f =>
    cases receiver with
    | none => rfl
    | some receiver => exact congrArg _ (Expr.nodes_hoist n receiver)
  | call callee receiver args =>
    cases receiver with
    | none => exact congrArg _ (Expr.nodesAll_hoistAll n args)
    | some receiver =>
      rw [Expr.hoist, Expr.nodes, Expr.nodes, Expr.nodes_hoist n receiver,
        Expr.nodesAll_hoistAll n args, List.map_cons, List.map_append]
      rfl
  | binary op lhs rhs =>
    rw [Expr.hoist, Expr.nodes, Expr.nodes, Expr.nodes_hoist n lhs, Expr.nodes_hoist n rhs,
      List.map_cons, List.map_append]
    rfl
  | unary op operand => exact congrArg _ (Expr.nodes_hoist n operand)
  | element array ty indices =>
    rw [Expr.hoist, Expr.nodes, Expr.nodes, Expr.nodes_hoist n array,
      Expr.nodesAll_hoistAll n indices, List.map_cons, List.map_append]
    rfl
  | addressOf place => exact congrArg _ (Place.nodes_hoist n place)
  | newArray ty lengths => exact congrArg _ (Expr.nodesAll_hoistAll n lengths)
  | _ => rfl

theorem Expr.nodesAll_hoistAll (n : Nat) (es : List Expr) :
    Expr.nodesAll (Expr.hoistAll n es) = (Expr.nodesAll es).map (Node.hoist n) := by
  cases es with
  | nil => rfl
  | cons e es =>
    rw [Expr.hoistAll, Expr.nodesAll, Expr.nodesAll, Expr.nodes_hoist n e,
      Expr.nodesAll_hoistAll n es, List.map_append]

theorem Place.nodes_hoist (n : Nat) (p : Place) :
    (p.hoist n).nodes = p.nodes.map (Node.hoist n) := by
  cases p with
  | field receiver f =>
    cases receiver with
    | none => rfl
    | some receiver => exact congrArg _ (Expr.nodes_hoist n receiver)
  | element array ty indices =>
    rw [Place.hoist, Place.nodes, Place.nodes, Expr.nodes_hoist n array,
      Expr.nodesAll_hoistAll n indices, List.map_cons, List.map_append]
    rfl
  | _ => rfl

end

theorem Stmt.nodesAll_append (ss ts : List Stmt) :
    Stmt.nodesAll (ss ++ ts) = Stmt.nodesAll ss ++ Stmt.nodesAll ts := by
  induction ss with
  | nil => rfl
  | cons s ss ih => rw [List.cons_append, nodesAll, nodesAll, ih, List.append_assoc]

namespace Stmt

variable (id : TryId) (body cleanup fault : List Stmt) (catches : List Catch)

theorem code_block : Node.code (Stmt.block body).nodes = Node.code (nodesAll body) :=
  Node.code_of_order rfl _

theorem code_tryCatch : Node.code (Stmt.tryCatch id body catches none).nodes =
    Node.code (nodesAll body) + Node.code (Catch.nodesAll catches) :=
  (Node.code_of_order rfl _).trans ((Node.code_of_order rfl _).trans (Node.code_append ..))

theorem code_tryFinally : Node.code (Stmt.tryCatch id body catches (some cleanup)).nodes =
    Node.code (nodesAll body) +
      (Node.code (Catch.nodesAll catches) + Node.code (nodesAll cleanup)) :=
  (Node.code_of_order rfl _).trans ((Node.code_of_order rfl _).trans
    ((Node.code_append ..).trans (congrArg _ (Node.code_append ..))))

theorem code_tryFault : Node.code (Stmt.tryFault body fault).nodes =
    Node.code (nodesAll body) + Node.code (nodesAll fault) :=
  (Node.code_of_order rfl _).trans (Node.code_append ..)

end Stmt

theorem Catch.code_cons (ty : Option Ty) (caught : Option LocalId) (body : List Stmt)
    (cs : List Catch) : Node.code (nodesAll (.mk ty caught body :: cs)) =
      Node.code [.catch_ ty] + (Node.code (Stmt.nodesAll body) + Node.code (nodesAll cs)) :=
  (Node.code_cons ..).trans (congrArg _ (Node.code_append ..))

/-! What lowering writes that is not in the source. -/

/-- Numbers of states, answers, the locals of a method, the state, and calls of the other methods
of the machine. -/
def Expr.IsBookkeeping : Expr → Prop
  | .const (.int _) | .const (.bool _) | .local _ | .call (.synthesized _) none [] => True
  | .machineField slot => slot = stateField
  | _ => False

/-- Besides such expressions, the places and assignments that they are stored by, and the
assignment to the current element. -/
def Node.IsBookkeeping : Node → Prop
  | .expr e | .stmt (.expr e) => e.IsBookkeeping
  | .place (.local _) | .place (.machineField _) => True
  | .stmt (.assign (.local _) value) => value.IsBookkeeping
  | .stmt (.assign (.machineField slot) value) => slot = currentField ∨ value.IsBookkeeping
  | _ => False

/-- No code but bookkeeping. -/
def Bookkeeping (nodes : List Node) : Prop :=
  ∀ node ∈ nodes, node.isCode = true → node.IsBookkeeping

@[simp] theorem bookkeeping_nil : Bookkeeping [] := nofun

@[simp] theorem bookkeeping_cons {node : Node} {nodes : List Node} :
    Bookkeeping (node :: nodes) ↔
      (node.isCode = true → node.IsBookkeeping) ∧ Bookkeeping nodes :=
  List.forall_mem_cons

@[simp] theorem bookkeeping_append {nodes nodes' : List Node} :
    Bookkeeping (nodes ++ nodes') ↔ Bookkeeping nodes ∧ Bookkeeping nodes' :=
  List.forall_mem_append

/-- An expression that is made of nothing else. -/
theorem bookkeeping_single {node : Node} (own : node.isCode = true → node.IsBookkeeping) :
    Bookkeeping [node] :=
  bookkeeping_cons.mpr ⟨own, bookkeeping_nil⟩

@[simp] theorem bookkeeping_int (value : Int64) : Bookkeeping (Expr.int value).nodes :=
  bookkeeping_single fun _ => trivial

@[simp] theorem bookkeeping_bool (value : Bool) : Bookkeeping (Expr.bool value).nodes :=
  bookkeeping_single fun _ => trivial

@[simp] theorem bookkeeping_local (id : LocalId) : Bookkeeping (Expr.local id).nodes :=
  bookkeeping_single fun _ => trivial

@[simp] theorem bookkeeping_state : Bookkeeping (Expr.machineField stateField).nodes :=
  bookkeeping_single fun _ => rfl

@[simp] theorem bookkeeping_callSynthesized (method : SynthMethodId) :
    Bookkeeping (Expr.callSynthesized method).nodes :=
  bookkeeping_single fun _ => trivial

@[simp] theorem bookkeeping_label (l : LabelId) : Bookkeeping (Stmt.label l).nodes :=
  bookkeeping_single nofun

@[simp] theorem bookkeeping_goto (l : LabelId) : Bookkeeping (Stmt.goto l).nodes :=
  bookkeeping_single nofun

@[simp] theorem bookkeeping_ret : Bookkeeping (Stmt.ret none).nodes :=
  bookkeeping_single nofun

@[simp] theorem bookkeeping_ret_some {value : Expr} :
    Bookkeeping (Stmt.ret (some value)).nodes ↔ Bookkeeping value.nodes :=
  bookkeeping_cons.trans (and_iff_right nofun)

@[simp] theorem bookkeeping_call (method : SynthMethodId) :
    Bookkeeping (Stmt.expr (.callSynthesized method)).nodes :=
  bookkeeping_cons.mpr ⟨fun _ => trivial, bookkeeping_callSynthesized method⟩

/-- What is kept in a local of the method. -/
theorem bookkeeping_setLocal (id : LocalId) {value : Expr} (own : value.IsBookkeeping)
    (rest : Bookkeeping value.nodes) : Bookkeeping (Stmt.assign (.local id) value).nodes :=
  bookkeeping_cons.mpr ⟨fun _ => own, bookkeeping_cons.mpr ⟨fun _ => trivial, rest⟩⟩

theorem bookkeeping_setField (slot : FieldSlot) {value : Expr} (own : value.IsBookkeeping)
    (rest : Bookkeeping value.nodes) : Bookkeeping (Stmt.assign (.machineField slot) value).nodes :=
  bookkeeping_cons.mpr ⟨fun _ => .inr own, bookkeeping_cons.mpr ⟨fun _ => trivial, rest⟩⟩

@[simp] theorem bookkeeping_setState (state : Int) : Bookkeeping (setState state).nodes :=
  bookkeeping_setField _ trivial (bookkeeping_int _)

@[simp] theorem bookkeeping_setBool (id : LocalId) (value : Bool) :
    Bookkeeping (Stmt.assign (.local id) (.bool value)).nodes :=
  bookkeeping_setLocal id trivial (bookkeeping_bool value)

/-- The new nodes have the code of the old ones, hoisted, and nothing but bookkeeping besides. -/
def Node.Keeps (n : Nat) (old new : List Node) : Prop :=
  ∃ extra : Multiset Node, (∀ node ∈ extra, node.IsBookkeeping) ∧
    Node.code new = (Node.code old).map (Node.hoist n) + extra

namespace Node.Keeps

variable {n : Nat} {old old' new new' : List Node} {node : Node}

theorem hoisted (nodes : List Node) : Keeps n nodes (nodes.map (Node.hoist n)) :=
  ⟨0, nofun, by rw [Node.code_map_hoist, add_zero]⟩

theorem own (h : Bookkeeping new) : Keeps n [] new :=
  ⟨Node.code new, fun node mem => h node (Node.mem_code.mp mem).1 (Node.mem_code.mp mem).2, by
    rw [Node.code_nil, Multiset.map_zero, zero_add]⟩

theorem append (h : Keeps n old new) (h' : Keeps n old' new') :
    Keeps n (old ++ old') (new ++ new') := by
  obtain ⟨extra, own, same⟩ := h
  obtain ⟨extra', own', same'⟩ := h'
  refine ⟨extra + extra', fun node mem => (Multiset.mem_add.mp mem).elim (own node) (own' node), ?_⟩
  rw [Node.code_append, Node.code_append, Multiset.map_add, same, same', add_add_add_comm]

theorem expr (e : Expr) : Keeps n e.nodes (e.hoist n).nodes := e.nodes_hoist n ▸ hoisted _

theorem place (p : Place) : Keeps n p.nodes (p.hoist n).nodes := p.nodes_hoist n ▸ hoisted _

theorem cons (node : Node) (h : Keeps n old new) : Keeps n (node :: old) (node.hoist n :: new) :=
  (hoisted [node]).append h

/-- The order in which code is run is written anew. -/
theorem skip (order : node.isCode = false) (h : Keeps n old new) : Keeps n (node :: old) new := by
  obtain ⟨extra, own, same⟩ := h
  exact ⟨extra, own, (Node.code_of_order order old).symm ▸ same⟩

theorem lead (own : node.isCode = true → node.IsBookkeeping) (h : Keeps n old new) :
    Keeps n old (node :: new) := by
  have first : Keeps n [] [node] := Keeps.own (bookkeeping_cons.mpr ⟨own, bookkeeping_nil⟩)
  exact first.append h

theorem followed (h : Keeps n old new) (own : Bookkeeping new') : Keeps n old (new ++ new') :=
  List.append_nil old ▸ h.append (.own own)

end Node.Keeps

/-! What code mentions. -/

inductive MemoryAccess where
  | read
  | write
  | address

/-- Something of the program that a node names, with how many operands the node has besides a
receiver, and whether it has one. -/
inductive Mention where
  | call (callee : MemberRef) (receiver : Bool) (args : Nat)
  | field (access : MemoryAccess) (field : MemberRef) (receiver : Bool)
  | typeToken (ty : Ty)
  | newArray (arrayTy : Ty) (lengths : Nat)
  | element (access : MemoryAccess) (arrayTy : Ty) (indices : Nat)
  | catch_ (exceptionTy : Ty)

def Place.mention? (access : MemoryAccess) : Place → Option Mention
  | .field receiver member => some (.field access member receiver.isSome)
  | .element _ arrayTy indices => some (.element access arrayTy indices.length)
  | _ => none

/-- A place is mentioned by what is done to it. -/
def Node.mention? : Node → Option Mention
  | .expr (.call (.method callee) receiver args) =>
    some (.call callee receiver.isSome args.length)
  | .expr (.field receiver member) => some (.field .read member receiver.isSome)
  | .expr (.typeToken ty) => some (.typeToken ty)
  | .expr (.newArray arrayTy lengths) => some (.newArray arrayTy lengths.length)
  | .expr (.element _ arrayTy indices) => some (.element .read arrayTy indices.length)
  | .expr (.addressOf p) => p.mention? .address
  | .stmt (.assign p _) => p.mention? .write
  | .catch_ (some exceptionTy) => some (.catch_ exceptionTy)
  | _ => none

/-- What some nodes mention, as often as they do. -/
def Node.mentions (nodes : List Node) : Multiset Mention := ↑(nodes.filterMap Node.mention?)

theorem Expr.length_hoistAll (n : Nat) (es : List Expr) :
    (Expr.hoistAll n es).length = es.length := by
  induction es with
  | nil => rfl
  | cons e es ih => exact congrArg (· + 1) ih

theorem Place.mention?_hoist (n : Nat) (access : MemoryAccess) (p : Place) :
    (p.hoist n).mention? access = p.mention? access := by
  cases p with
  | field receiver member => cases receiver <;> rfl
  | element array arrayTy indices =>
    rw [Place.hoist, Place.mention?, Place.mention?, Expr.length_hoistAll]
  | _ => rfl

namespace Node

@[simp] theorem mention?_hoist (n : Nat) (node : Node) :
    (node.hoist n).mention? = node.mention? := by
  cases node with
  | stmt s =>
    cases s with
    | assign place value => exact place.mention?_hoist n .write
    | tryCatch id body catches finally? => cases finally? <;> rfl
    | _ => rfl
  | expr e =>
    cases e with
    | call callee receiver args =>
      cases callee <;> cases receiver <;>
        simp only [Node.hoist, Expr.hoist, mention?, Expr.length_hoistAll, Option.isSome]
    | field receiver member => cases receiver <;> rfl
    | newArray arrayTy lengths =>
      rw [Node.hoist, Expr.hoist, mention?, mention?, Expr.length_hoistAll]
    | element array arrayTy indices =>
      rw [Node.hoist, Expr.hoist, mention?, mention?, Expr.length_hoistAll]
    | addressOf place => exact place.mention?_hoist n .address
    | _ => rfl
  | _ => rfl

theorem mention?_of_bookkeeping {node : Node} (own : node.IsBookkeeping) :
    node.mention? = none := by
  cases node with
  | stmt s =>
    cases s with
    | assign place value =>
      cases place with
      | field | element => cases own
      | _ => rfl
    | _ => rfl
  | expr e =>
    cases e with
    | call callee receiver args =>
      cases callee with
      | method => cases own
      | synthesized => rfl
    | field | newArray | element | addressOf | typeToken => cases own
    | _ => rfl
  | catch_ => cases own
  | _ => rfl

theorem isCode_of_mention? {node : Node} (some : node.mention?.isSome) : node.isCode = true := by
  cases node with
  | stmt s =>
    cases s with
    | assign => rfl
    | _ => cases some
  | tryCatch => cases some
  | _ => rfl

/-- Only code mentions anything. -/
theorem mentions_eq (nodes : List Node) :
    mentions nodes = (code nodes).filterMap mention? := by
  rw [code, mentions, Multiset.filterMap_coe, List.filterMap_filter]
  congr 2
  funext node
  cases code : node.isCode with
  | true => rfl
  | false =>
    have none := mt isCode_of_mention? (Bool.eq_false_iff.mp code)
    simpa using none

end Node

/-- What is mentioned stays the same. -/
theorem Node.Keeps.mentions {n : Nat} {old new : List Node} (h : Node.Keeps n old new) :
    Node.mentions new = Node.mentions old := by
  obtain ⟨extra, own, same⟩ := h
  have nothing : extra.filterMap Node.mention? = 0 := by
    refine Multiset.eq_zero_of_forall_notMem fun mention mem => ?_
    obtain ⟨node, among, mentioned⟩ := (Multiset.mem_filterMap _ _).mp mem
    rw [Node.mention?_of_bookkeeping (own node among)] at mentioned
    cases mentioned
  have hoisted : Node.mention? ∘ Node.hoist n = Node.mention? :=
    funext fun node => node.mention?_hoist n
  rw [Node.mentions_eq, Node.mentions_eq, same, Multiset.filterMap_add, nothing, add_zero,
    Multiset.filterMap_map, hoisted]

end ManagedCode
