import SmallScript.Proofs.Visits

/-!
Undefined variables without running anything. A program raises this fault at the first use of a name
that is out of sight, unless an operator fails before it; where all names are in sight, it never does.
-/
namespace SmallScript

/-- Nodes that were visited, beside a walk: all its nodes, or those up to the one at fault. Before
that one, every name in use is in sight. -/
inductive Follows : List Sight → List Node → Option Fault → Prop where
  | through (walk : List Sight) (h : ∀ x ∈ walk, ¬ x.Unbound) :
    Follows walk (walk.map Sight.node) none
  | upTo (before : List Sight) (x : Sight) (after : List Sight) {fault : Fault}
    (h : ∀ y ∈ before, ¬ y.Unbound) (hx : x.AtFault fault) :
    Follows (before ++ x :: after) ((before ++ [x]).map Sight.node) (some fault)

namespace Follows

variable {walk walk' : List Sight} {visits visits' : List Node} {fault : Fault}
  {fault? : Option Fault} {names : List String} {n : Node}

theorem append (h : Follows walk visits none) (h' : Follows walk' visits' fault?) :
    Follows (walk ++ walk') (visits ++ visits') fault? := by
  cases h with
  | through _ hw =>
    cases h' with
    | through _ hw' =>
      rw [← List.map_append]
      exact .through _ (List.forall_mem_append.mpr ⟨hw, hw'⟩)
    | upTo _ _ _ hb hx =>
      rw [← List.append_assoc, ← List.map_append, ← List.append_assoc]
      exact .upTo _ _ _ (List.forall_mem_append.mpr ⟨hw, hb⟩) hx

theorem append_of_fault (h : Follows walk visits (some fault)) (walk' : List Sight) :
    Follows (walk ++ walk') visits (some fault) := by
  cases h with
  | upTo _ _ _ hb hx =>
    rw [List.append_assoc, List.cons_append]
    exact .upTo _ _ _ hb hx

/-- A node that uses no name and is not at fault. -/
theorem node (h : n.use? = none) : Follows [⟨n, names⟩] [n] none := by
  refine through [⟨n, names⟩] ?_
  rw [List.forall_mem_singleton]
  rintro ⟨name, hn, _⟩
  rw [Option.mem_def, h] at hn
  cases hn

theorem nodeAtFault (h : (Sight.mk n names).AtFault fault) :
    Follows [⟨n, names⟩] [n] (some fault) :=
  upTo [] _ [] (List.forall_mem_nil _) h

theorem onward {a : Evaluation} {next : Scope → List Node} (h : Follows walk visits a.fault?)
    (hok : ∀ v, a.result = .ok v → Follows walk' (next a.scope) fault?)
    (herror : ∀ f, a.result = .error f → fault? = some f) :
    Follows (walk ++ walk') (visits ++ a.onward next) fault? := by
  rw [Evaluation.fault?] at h
  rw [Evaluation.onward]
  cases hr : a.result with
  | ok v =>
    rw [hr] at h
    exact h.append (hok v hr)
  | error f =>
    rw [hr] at h
    rw [herror f hr]
    simpa using h.append_of_fault walk'

theorem onward_execution {x : Execution} {next : Scope → List Node}
    (h : Follows walk visits x.fault?)
    (hnone : x.fault? = none → Follows walk' (next x.scope) fault?)
    (hsome : ∀ f, x.fault? = some f → fault? = some f) :
    Follows (walk ++ walk') (visits ++ x.onward next) fault? := by
  rw [Execution.onward]
  cases hx : x.fault? with
  | none =>
    rw [hx] at h
    exact h.append (hnone hx)
  | some f =>
    rw [hx] at h
    rw [hsome f hx]
    simpa using h.append_of_fault walk'

end Follows

/-- The names in sight are the ones that the scope binds. -/
def InSight (names : List String) (s : Scope) : Prop :=
  ∀ name, name ∈ names ↔ (s.get? name).isSome

theorem inSight_names (s : Scope) : InSight s.names s := fun _ => Scope.mem_names_iff

theorem InSight.of_layers {names : List String} {s t : Scope} (h : InSight names s)
    (hl : t.layers = s.layers) : InSight names t := by
  intro name
  rw [h name, Scope.isSome_get?_of_layers hl]

theorem InSight.define {names : List String} {s : Scope} (h : InSight names s) (name : String)
    (v : Value) : InSight (name :: names) (s.define name v) := by
  intro m
  rw [List.mem_cons, h m, Scope.get?_define]
  by_cases hm : name = m
  · simp [hm]
  · simp [hm, Ne.symm hm]

/-- An operator that fails is at fault itself. -/
theorem Sight.atFault_of_operator {n : Node} {op : Token} {fault : Fault} (names : List String)
    (ho : n.operator? = some op)
    (h : (∃ cause, fault = .operand op cause) ∨ (fault = .unknownOperator op ∧ ¬ n.Known)) :
    (Sight.mk n names).AtFault fault := by
  have hu : ¬ (Sight.mk n names).Unbound := by
    rintro ⟨name, hn, _⟩
    cases n <;> simp [Node.operator?, Node.use?] at ho hn
  obtain ⟨cause, rfl⟩ | ⟨rfl, hk⟩ := h
  · exact ⟨hu, ho⟩
  · exact ⟨hu, ho, hk⟩

/-- A use of a name goes as the names in sight say. -/
theorem follows_use {names : List String} {s : Scope} (h : InSight names s) {n : Node}
    {name : Token} (hn : n.use? = some name) :
    Follows [⟨n, names⟩] [n]
      (if (s.get? name.lexeme).isSome then none else some (.undefined name)) := by
  split
  · next hb =>
    refine .through [⟨n, names⟩] ?_
    rw [List.forall_mem_singleton]
    rintro ⟨m, hm, hout⟩
    rw [Option.mem_def, hn] at hm
    cases hm
    exact hout ((h name.lexeme).mpr hb)
  · next hb =>
    refine .nodeAtFault ⟨⟨name, hn, ?_⟩, hn⟩
    rw [h name.lexeme]
    exact hb

theorem lookup_fault (name : Token) (s : Scope) :
    Evaluation.fault? ⟨s.lookup name, s⟩ =
      if (s.get? name.lexeme).isSome then none else some (.undefined name) := by
  rw [Evaluation.fault?, Scope.lookup]
  cases s.get? name.lexeme <;> rfl

theorem assign_fault (name : Token) (e : Expr) (s : Scope) {v : Value}
    (h : (evaluate e s).result = .ok v) :
    (evaluate (.assign name e) s).fault? =
      if ((evaluate e s).scope.get? name.lexeme).isSome then none else some (.undefined name) := by
  rw [Evaluation.fault?, evaluate]
  simp only [h, Scope.assign]
  rw [← Scope.assign?_isSome name.lexeme v]
  cases (evaluate e s).scope.assign? name.lexeme v <;> rfl

theorem Expr.visits_follow (e : Expr) {names : List String} {s : Scope} (h : InSight names s) :
    Follows (e.walk names) (e.visits s) (evaluate e s).fault? := by
  induction e generalizing s with
  | literal v => exact .node rfl
  | grouping e ih =>
    rw [walk_grouping]
    refine (ih h).onward ?_ ?_
    · intro v hv
      simp only [evaluate, Evaluation.fault?, hv]
      exact .node rfl
    · intro f hf
      simp only [evaluate, Evaluation.fault?, hf]
  | unary op e ih =>
    rw [walk_unary]
    refine (ih h).onward ?_ ?_
    · intro v hv
      simp only [evaluate, Evaluation.fault?, hv]
      cases hu : applyUnary op v with
      | ok w => exact .node rfl
      | error f => exact .nodeAtFault (Sight.atFault_of_operator names rfl (applyUnary_error hu))
    · intro f hf
      simp only [evaluate, Evaluation.fault?, hf]
  | binary l op r ihl ihr =>
    rw [walk_binary]
    refine (ihl h).onward ?_ ?_
    · intro v hv
      refine (ihr (h.of_layers (evaluate_layers l s))).onward ?_ ?_
      · intro w hw
        simp only [evaluate, Evaluation.fault?, hv, hw]
        cases hb : applyBinary op v w with
        | ok x => exact .node rfl
        | error f =>
          exact .nodeAtFault (Sight.atFault_of_operator names rfl (applyBinary_error hb))
      · intro f hf
        simp only [evaluate, Evaluation.fault?, hv, hf]
    · intro f hf
      simp only [evaluate, Evaluation.fault?, hf]
  | var name =>
    rw [evaluate, lookup_fault]
    exact follows_use h rfl
  | assign name e ih =>
    rw [walk_assign]
    refine (ih h).onward ?_ ?_
    · intro v hv
      rw [assign_fault name e s hv]
      exact follows_use (h.of_layers (evaluate_layers e s)) rfl
    · intro f hf
      simp only [evaluate, Evaluation.fault?, hf]

theorem Evaluation.fault?_execute {a : Evaluation} {next : Value → Scope → Execution}
    (h : ∀ v t, (next v t).fault? = none) : (a.execute next).fault? = a.fault? := by
  rw [execute, Evaluation.fault?]
  cases a.result with
  | ok v => exact h v a.scope
  | error f => rfl

/-- A statement that evaluates an expression and then does its own work, which cannot fail. -/
theorem follows_execute {e : Expr} {names : List String} {s : Scope} (h : InSight names s)
    {n : Node} (hn : n.use? = none) {next : Value → Scope → Execution}
    (hnext : ∀ v t, (next v t).fault? = none) :
    Follows (e.walk names ++ [⟨n, names⟩]) (e.visits s ++ (evaluate e s).onward fun _ => [n])
      ((evaluate e s).execute next).fault? := by
  rw [Evaluation.fault?_execute hnext]
  refine (e.visits_follow h).onward ?_ ?_
  · intro v hv
    simp only [Evaluation.fault?, hv]
    exact .node hn
  · intro f hf
    simp only [Evaluation.fault?, hf]

/-- A statement that ends in no fault leaves in sight what it declares and what was there before. -/
theorem InSight.execute {names : List String} {s : Scope} (h : InSight names s) (st : Stmt)
    (hf : (SmallScript.execute st s).fault? = none) :
    InSight (st.declares names) (SmallScript.execute st s).scope := by
  have hexpr (e : Expr) : InSight names (evaluate e s).scope := h.of_layers (evaluate_layers e s)
  cases st with
  | print e =>
    rw [SmallScript.execute, Evaluation.execute] at hf ⊢
    split at hf
    · exact hexpr e
    · cases hf
  | expression e =>
    rw [SmallScript.execute, Evaluation.execute] at hf ⊢
    split at hf
    · exact hexpr e
    · cases hf
  | declare name init =>
    cases init with
    | none => exact h.define name.lexeme .nil
    | some e =>
      rw [SmallScript.execute, Evaluation.execute] at hf ⊢
      split at hf
      · exact (hexpr e).define name.lexeme _
      · cases hf
  | block body => exact h.of_layers (execute_block_layers body s)

mutual

/-- The visits of an execution follow the walk. -/
theorem Stmt.visits_follow : (st : Stmt) → {names : List String} → {s : Scope} →
    InSight names s → Follows (st.walk names) (st.visits s) (execute st s).fault?
  | .print e, _, _, h => follows_execute h rfl fun _ _ => rfl
  | .expression e, _, _, h => follows_execute h rfl fun _ _ => rfl
  | .declare name none, _, _, _ => .node rfl
  | .declare name (some e), _, _, h => follows_execute h rfl fun _ _ => rfl
  | .block body, names, s, h => by
    have hs : InSight names s.enter := h
    rw [Stmt.walk, Stmt.visits, execute]
    refine (Stmt.visitsAll_follow body hs).onward_execution ?_ ?_
    · intro hf
      dsimp only
      rw [hf]
      exact .node rfl
    · exact fun f hf => hf

theorem Stmt.visitsAll_follow : (body : List Stmt) → {names : List String} → {s : Scope} →
    InSight names s →
    Follows (Stmt.walkAll names body) (Stmt.visitsAll body s) (executeAll body s).fault?
  | [], _, _, _ => .through [] (List.forall_mem_nil _)
  | first :: rest, names, s, h => by
    rw [Stmt.walkAll, Stmt.visitsAll, executeAll, Execution.andThen]
    refine (Stmt.visits_follow first h).onward_execution ?_ ?_
    · intro hf
      rw [hf]
      exact Stmt.visitsAll_follow rest (h.execute first hf)
    · intro f hf
      rw [hf]
      exact hf

end

/-- Undefined variables are the uses of names out of sight. A program that ends well has none. One that
ends at an undefined variable ends at the first of them. One whose operator fails comes to none of
them before it, and no operator fails for being unknown unless the program has such an operator. -/
theorem fault_at_first_unbound (program : List Stmt) (s : Scope) :
    (match (executeAll program s).fault? with
      | none => ∀ x ∈ Stmt.walkAll s.names program, ¬ x.Unbound
      | some (.undefined name) =>
        ∃ before x after, Stmt.walkAll s.names program = before ++ x :: after ∧
          Stmt.visitsAll program s = (before ++ [x]).map Sight.node ∧
          (∀ y ∈ before, ¬ y.Unbound) ∧ x.Unbound ∧ x.node.use? = some name
      | some (.operand op _) =>
        ∃ before x after, Stmt.walkAll s.names program = before ++ x :: after ∧
          Stmt.visitsAll program s = (before ++ [x]).map Sight.node ∧
          (∀ y ∈ before ++ [x], ¬ y.Unbound) ∧ x.node.operator? = some op
      | some (.unknownOperator _) => ∃ n ∈ Stmt.postorderAll program, ¬ n.Known) ∧
    ((∀ x ∈ Stmt.walkAll s.names program, ¬ x.Unbound) →
      ∀ name, (executeAll program s).fault? ≠ some (.undefined name)) := by
  have h := Stmt.visitsAll_follow program (inSight_names s)
  have hn := Stmt.map_node_walkAll s.names program
  generalize (executeAll program s).fault? = fault? at h ⊢
  generalize Stmt.walkAll s.names program = walk at h hn ⊢
  generalize Stmt.visitsAll program s = visits at h ⊢
  cases h with
  | through _ hw => exact ⟨hw, fun _ name hf => by cases hf⟩
  | @upTo before x after fault hb hx =>
    cases fault with
    | undefined name =>
      refine ⟨⟨before, x, after, rfl, rfl, hb, hx⟩, ?_⟩
      intro hw
      exact absurd hx.1 (hw x (by simp))
    | operand op cause =>
      refine ⟨⟨before, x, after, rfl, rfl, ?_, hx.2⟩, fun _ name hf => by cases hf⟩
      rw [List.forall_mem_append, List.forall_mem_singleton]
      exact ⟨hb, hx.1⟩
    | unknownOperator op =>
      refine ⟨⟨x.node, ?_, hx.2.2⟩, fun _ name hf => by cases hf⟩
      rw [← hn]
      exact List.mem_map_of_mem (by simp)

end SmallScript
