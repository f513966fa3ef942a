import SmallScript.Proofs.Layers
import SmallScript.Syntax.Node

/-!
The nodes that a run comes to, and a walk over the same nodes that runs nothing. The walk goes
through all of them in postorder and keeps the names in sight at each.
-/
namespace SmallScript

namespace Node

/-- The name whose value a node looks up or changes. -/
def use? : Node → Option Token
  | var name => some name
  | assign name => some name
  | _ => none

/-- The operator that a node applies. -/
def operator? : Node → Option Token
  | unary op => some op
  | binary op => some op
  | _ => none

/-- An operator of the node, if it has one, is among those that evaluation can apply. -/
def Known : Node → Prop
  | unary op => op.kind ∈ [.mark .bang, .mark .minus]
  | binary op => op.kind ∈ [.mark .equalEqual, .mark .bangEqual, .mark .plus, .mark .minus,
      .mark .slash, .mark .star, .mark .greater, .mark .greaterEqual, .mark .less, .mark .lessEqual]
  | _ => True

instance decidableKnown : (n : Node) → Decidable n.Known
  | unary _ => inferInstanceAs (Decidable (_ ∈ _))
  | binary _ => inferInstanceAs (Decidable (_ ∈ _))
  | literal _ | grouping | var _ | assign _ | print | expression | declare _ _ | block _ =>
    inferInstanceAs (Decidable True)

end Node

/-- A prefix operator fails for its operand, or because evaluation does not know it. -/
theorem applyUnary_error {op : Token} {v : Value} {fault : Fault}
    (h : applyUnary op v = .error fault) :
    (∃ cause, fault = .operand op cause) ∨
      (fault = .unknownOperator op ∧ ¬ (Node.unary op).Known) := by
  unfold applyUnary at h
  split at h
  · cases h
  · cases h
    exact .inl ⟨_, rfl⟩
  · cases h
  · cases h
    refine .inr ⟨rfl, ?_⟩
    simp only [Node.Known, List.mem_cons, List.not_mem_nil, or_false]
    simp_all

theorem applyNumeric_error {op : Token} {f : Float → Float → Value} {l r : Value} {fault : Fault}
    (h : applyNumeric op f l r = .error fault) : fault = .operand op .numbers := by
  unfold applyNumeric at h
  split at h <;> cases h
  rfl

theorem applyPlus_error {op : Token} {l r : Value} {fault : Fault}
    (h : applyPlus op l r = .error fault) : fault = .operand op .numbersOrStrings := by
  unfold applyPlus at h
  split at h <;> cases h
  rfl

/-- A binary operator fails for its operands, or because evaluation does not know it. -/
theorem applyBinary_error {op : Token} {l r : Value} {fault : Fault}
    (h : applyBinary op l r = .error fault) :
    (∃ cause, fault = .operand op cause) ∨
      (fault = .unknownOperator op ∧ ¬ (Node.binary op).Known) := by
  unfold applyBinary at h
  split at h
  · cases h
  · cases h
  · exact .inl ⟨_, applyPlus_error h⟩
  · exact .inl ⟨_, applyNumeric_error h⟩
  · exact .inl ⟨_, applyNumeric_error h⟩
  · exact .inl ⟨_, applyNumeric_error h⟩
  · exact .inl ⟨_, applyNumeric_error h⟩
  · exact .inl ⟨_, applyNumeric_error h⟩
  · exact .inl ⟨_, applyNumeric_error h⟩
  · exact .inl ⟨_, applyNumeric_error h⟩
  · cases h
    refine .inr ⟨rfl, ?_⟩
    simp only [Node.Known, List.mem_cons, List.not_mem_nil, or_false]
    simp_all

/-- The fault that ends an evaluation. -/
def Evaluation.fault? (a : Evaluation) : Option Fault :=
  match a.result with
  | .ok _ => none
  | .error f => some f

/-- What is visited after an evaluation, if it succeeds. -/
def Evaluation.onward (a : Evaluation) (next : Scope → List Node) : List Node :=
  match a.result with
  | .ok _ => next a.scope
  | .error _ => []

/-- What is visited after an execution, if it ends in no fault. -/
def Execution.onward (x : Execution) (next : Scope → List Node) : List Node :=
  match x.fault? with
  | none => next x.scope
  | some _ => []

/-- The nodes that an evaluation comes to, one after another. -/
def Expr.visits : Expr → Scope → List Node
  | .literal v, _ => [.literal v]
  | .grouping e, s => e.visits s ++ (evaluate e s).onward fun _ => [.grouping]
  | .unary op e, s => e.visits s ++ (evaluate e s).onward fun _ => [.unary op]
  | .binary l op r, s =>
    l.visits s ++ (evaluate l s).onward fun t =>
      r.visits t ++ (evaluate r t).onward fun _ => [.binary op]
  | .var name, _ => [.var name]
  | .assign name e, s => e.visits s ++ (evaluate e s).onward fun _ => [.assign name]

mutual

/-- The nodes that an execution comes to, one after another. -/
def Stmt.visits : Stmt → Scope → List Node
  | .print e, s => e.visits s ++ (evaluate e s).onward fun _ => [.print]
  | .expression e, s => e.visits s ++ (evaluate e s).onward fun _ => [.expression]
  | .declare name none, _ => [.declare name false]
  | .declare name (some e), s => e.visits s ++ (evaluate e s).onward fun _ => [.declare name true]
  | .block body, s =>
    Stmt.visitsAll body s.enter ++
      (executeAll body s.enter).onward fun _ => [.block body.length]

def Stmt.visitsAll : List Stmt → Scope → List Node
  | [], _ => []
  | first :: rest, s => first.visits s ++ (execute first s).onward (Stmt.visitsAll rest)

end

/-- A node, and the names in sight where a walk comes to it. -/
structure Sight where
  node : Node
  names : List String
  deriving DecidableEq, Repr

namespace Sight

/-- The node uses a name that is not in sight. -/
def Unbound (x : Sight) : Prop := ∃ name ∈ x.node.use?, name.lexeme ∉ x.names

instance decidableUnbound (x : Sight) : Decidable x.Unbound :=
  inferInstanceAs (Decidable (∃ name ∈ x.node.use?, name.lexeme ∉ x.names))

/-- The node is at fault: it uses a name that is not in sight, or its operator fails. -/
def AtFault (x : Sight) : Fault → Prop
  | .undefined name => x.Unbound ∧ x.node.use? = some name
  | .operand op _ => ¬ x.Unbound ∧ x.node.operator? = some op
  | .unknownOperator op => ¬ x.Unbound ∧ x.node.operator? = some op ∧ ¬ x.node.Known

end Sight

/-- All nodes of an expression, which declares nothing. -/
def Expr.walk (names : List String) (e : Expr) : List Sight := e.postorder.map fun n => ⟨n, names⟩

/-- The names in sight after a statement. What a block declares goes out of sight with it. -/
def Stmt.declares (names : List String) : Stmt → List String
  | .declare name _ => name.lexeme :: names
  | _ => names

mutual

/-- All nodes of a statement in postorder, with the names in sight at each. -/
def Stmt.walk (names : List String) : Stmt → List Sight
  | .block body => Stmt.walkAll names body ++ [⟨.block body.length, names⟩]
  | .print e => e.walk names ++ [⟨.print, names⟩]
  | .expression e => e.walk names ++ [⟨.expression, names⟩]
  | .declare name none => [⟨.declare name false, names⟩]
  | .declare name (some e) => e.walk names ++ [⟨.declare name true, names⟩]

def Stmt.walkAll (names : List String) : List Stmt → List Sight
  | [] => []
  | first :: rest => first.walk names ++ Stmt.walkAll (first.declares names) rest

end

/-- The walk over an expression keeps the names that it starts with, node by node. -/
theorem Expr.walk_grouping (names : List String) (e : Expr) :
    (grouping e).walk names = e.walk names ++ [⟨.grouping, names⟩] := by
  simp [walk, postorder]

theorem Expr.walk_unary (names : List String) (op : Token) (e : Expr) :
    (unary op e).walk names = e.walk names ++ [⟨.unary op, names⟩] := by
  simp [walk, postorder]

theorem Expr.walk_binary (names : List String) (l : Expr) (op : Token) (r : Expr) :
    (binary l op r).walk names = l.walk names ++ (r.walk names ++ [⟨.binary op, names⟩]) := by
  simp [walk, postorder]

theorem Expr.walk_assign (names : List String) (name : Token) (e : Expr) :
    (assign name e).walk names = e.walk names ++ [⟨.assign name, names⟩] := by
  simp [walk, postorder]

theorem Expr.map_node_walk (names : List String) (e : Expr) :
    (e.walk names).map Sight.node = e.postorder := by
  rw [walk, List.map_map]
  exact List.map_id _

mutual

/-- A walk goes through the nodes in postorder, whatever is in sight. -/
theorem Stmt.map_node_walk (names : List String) :
    (st : Stmt) → (st.walk names).map Sight.node = st.postorder
  | .print e => by simp [Stmt.walk, Stmt.postorder, Expr.map_node_walk]
  | .expression e => by simp [Stmt.walk, Stmt.postorder, Expr.map_node_walk]
  | .declare name none => rfl
  | .declare name (some e) => by simp [Stmt.walk, Stmt.postorder, Expr.map_node_walk]
  | .block body => by simp [Stmt.walk, Stmt.postorder, Stmt.map_node_walkAll names body]

theorem Stmt.map_node_walkAll (names : List String) :
    (body : List Stmt) → (Stmt.walkAll names body).map Sight.node = Stmt.postorderAll body
  | [] => rfl
  | first :: rest => by
    rw [Stmt.walkAll, Stmt.postorderAll, List.map_append, Stmt.map_node_walk names first,
      Stmt.map_node_walkAll _ rest]

end

end SmallScript
