import SmallScript.Proofs.Visits

/-!
Evaluation without recursion on the tree. A machine takes the nodes of an expression one by one in
postorder; the values of operands wait on a stack. It stops at the first node that fails, which
changes nothing.
-/
namespace SmallScript

/-- The token that a node of an expression carries. -/
def Node.token? (n : Node) : Option Token := n.use?.or n.operator?

/-- Assign to these names in turn, each of which must be bound. -/
def Scope.assignAll? (s : Scope) : List (String × Value) → Option Scope
  | [] => some s
  | (name, v) :: rest => (s.assign? name v).bind fun t => t.assignAll? rest

theorem Scope.assignAll?_append (s : Scope) (ws ws' : List (String × Value)) :
    s.assignAll? (ws ++ ws') = (s.assignAll? ws).bind fun t => t.assignAll? ws' := by
  induction ws generalizing s with
  | nil => rfl
  | cons w ws ih =>
    obtain ⟨name, v⟩ := w
    simp only [List.cons_append, assignAll?]
    cases s.assign? name v with
    | none => rfl
    | some t => exact ih t

/-- After the assignments a name has the value that was assigned to it last, or the one it had. -/
theorem Scope.get?_assignAll? {s t : Scope} {writes : List (String × Value)}
    (h : s.assignAll? writes = some t) (name : String) :
    t.get? name = (writes.reverse.lookup name).or (s.get? name) := by
  induction writes generalizing s with
  | nil =>
    cases h
    rfl
  | cons w rest ih =>
    obtain ⟨written, v⟩ := w
    obtain ⟨u, hu, ht⟩ := Option.bind_eq_some_iff.mp h
    rw [ih ht, get?_assign? written name v s u hu, List.reverse_cons, List.lookup_append,
      Option.or_assoc, List.lookup_cons, List.lookup_nil]
    congr 1
    by_cases hn : name = written
    · rw [if_pos hn.symm, beq_iff_eq.mpr hn, Option.some_or]
    · rw [if_neg (Ne.symm hn), beq_false_of_ne hn, Option.none_or]

theorem Scope.assign_error {name : Token} {v : Value} {s : Scope} {f : Fault}
    (h : s.assign name v = .error f) : f = .undefined name := by
  rw [assign] at h
  split at h <;> cases h
  rfl

/-- The values of the operands computed so far, the latest first, and the scope. -/
structure Machine where
  operands : List Value
  scope : Scope

namespace Machine

/-- How a machine stands after it took some nodes. -/
inductive Outcome where
  | running (m : Machine)
  /-- A node failed, at which the machine stood like this. -/
  | stopped (fault : Fault) (m : Machine)
  /-- A node lacked an operand, or was none of an expression. -/
  | stuck

/-- Put a result on top of the operands `below`, unless it is a fault. -/
def push (m : Machine) (below : List Value) : Except Fault Value → Outcome
  | .ok v => .running ⟨v :: below, m.scope⟩
  | .error f => .stopped f m

/-- Take one node. -/
def step (m : Machine) : Node → Outcome
  | .literal v => m.push m.operands (.ok v)
  | .var name => m.push m.operands (m.scope.lookup name)
  | .grouping => .running m
  | .unary op =>
    match m.operands with
    | v :: below => m.push below (applyUnary op v)
    | [] => .stuck
  | .binary op =>
    match m.operands with
    | w :: v :: below => m.push below (applyBinary op v w)
    | _ => .stuck
  | .assign name =>
    match m.operands with
    | v :: _ =>
      match m.scope.assign name v with
      | .ok t => .running ⟨m.operands, t⟩
      | .error f => .stopped f m
    | [] => .stuck
  | .print | .expression | .declare _ _ | .block _ => .stuck

/-- Take nodes from left to right, up to the first that stops the machine. -/
def run (m : Machine) : List Node → Outcome
  | [] => .running m
  | n :: rest =>
    match m.step n with
    | .running next => next.run rest
    | outcome => outcome

variable {m next : Machine} {n : Node} {nodes rest taken taken' : List Node}
  {below below' : List Value} {v : Value} {s t : Scope} {f : Fault} {a : Evaluation}

theorem run_cons (h : m.step n = .running next) : m.run (n :: rest) = next.run rest := by
  rw [run, h]

theorem run_cons_stopped (h : m.step n = .stopped f next) (rest : List Node) :
    m.run (n :: rest) = .stopped f next := by
  rw [run, h]

theorem run_append (h : m.run nodes = .running next) : m.run (nodes ++ rest) = next.run rest := by
  induction nodes generalizing m with
  | nil =>
    cases h
    rfl
  | cons n nodes ih =>
    rw [run] at h
    split at h
    · next hn =>
      rw [List.cons_append, run_cons hn]
      exact ih h
    · next hn => exact absurd h (hn next)

theorem push_stopped {r : Except Fault Value} (h : m.push below r = .stopped f next) :
    next = m ∧ r = .error f := by
  cases r with
  | ok v => cases h
  | error g =>
    cases h
    exact ⟨rfl, rfl⟩

theorem push_running {r : Except Fault Value} (h : m.push below r = .running next) :
    next.scope = m.scope := by
  cases r with
  | ok v =>
    cases h
    rfl
  | error g => cases h

/-- A node that stops the machine leaves it as it was, and the fault is at the node's own token. -/
theorem step_stopped (h : m.step n = .stopped f next) : next = m ∧ n.token? = some f.token := by
  unfold step at h
  split at h
  · obtain ⟨_, hr⟩ := push_stopped h
    cases hr
  · next name =>
    obtain ⟨rfl, hr⟩ := push_stopped h
    rw [Scope.lookup] at hr
    split at hr <;> cases hr
    exact ⟨rfl, rfl⟩
  · cases h
  · split at h
    · obtain ⟨rfl, hr⟩ := push_stopped h
      obtain ⟨_, rfl⟩ | ⟨rfl, _⟩ := applyUnary_error hr <;> exact ⟨rfl, rfl⟩
    · cases h
  · split at h
    · obtain ⟨rfl, hr⟩ := push_stopped h
      obtain ⟨_, rfl⟩ | ⟨rfl, _⟩ := applyBinary_error hr <;> exact ⟨rfl, rfl⟩
    · cases h
  · split at h
    · split at h
      · cases h
      · next hr =>
        cases h
        cases Scope.assign_error hr
        exact ⟨rfl, rfl⟩
    · cases h
  all_goals cases h

/-- A node writes to the name to which it assigns, if it assigns to any, and to no other. -/
theorem step_running (h : m.step n = .running next) :
    ∃ writes, writes.map Prod.fst = n.target?.toList ∧
      m.scope.assignAll? writes = some next.scope := by
  have unchanged (hn : n.target? = none) (hs : next.scope = m.scope) :
      ∃ writes, writes.map Prod.fst = n.target?.toList ∧
        m.scope.assignAll? writes = some next.scope :=
    ⟨[], by rw [hn]; rfl, by rw [hs]; rfl⟩
  unfold step at h
  split at h
  · exact unchanged rfl (push_running h)
  · exact unchanged rfl (push_running h)
  · cases h
    exact unchanged rfl rfl
  · split at h
    · exact unchanged rfl (push_running h)
    · cases h
  · split at h
    · exact unchanged rfl (push_running h)
    · cases h
  · next name =>
    split at h
    · next v _ _ =>
      split at h
      · next t ht =>
        cases h
        rw [Scope.assign] at ht
        split at ht <;> cases ht
        next ht => exact ⟨[(name.lexeme, v)], rfl, by rw [Scope.assignAll?, ht]; rfl⟩
      · cases h
    · cases h
  all_goals cases h

/-- While it runs, the machine makes the assignments of the nodes it takes, in their order. -/
theorem run_running (h : m.run nodes = .running next) :
    ∃ writes, writes.map Prod.fst = Node.targets nodes ∧
      m.scope.assignAll? writes = some next.scope := by
  induction nodes generalizing m with
  | nil =>
    cases h
    exact ⟨[], rfl, rfl⟩
  | cons n nodes ih =>
    rw [run] at h
    split at h
    · next hn =>
      obtain ⟨writes, hw, hs⟩ := step_running hn
      obtain ⟨writes', hw', hs'⟩ := ih h
      refine ⟨writes ++ writes', ?_, ?_⟩
      · rw [List.map_append, hw, hw', Node.targets, Node.targets, List.filterMap_cons]
        cases n.target? <;> rfl
      · rw [Scope.assignAll?_append, hs]
        exact hs'
    · next hn => exact absurd h (hn next)

/-- The machine takes nodes and comes to what an evaluation comes to: its value on top of the
operands `below`, or its fault, at a node that stops the machine. -/
inductive Yields (m : Machine) (below : List Value) :
    List Node → List Node → Evaluation → Prop where
  | value (nodes : List Node) {v : Value} {t : Scope}
    (h : m.run nodes = .running ⟨v :: below, t⟩) : Yields m below nodes nodes ⟨.ok v, t⟩
  | fault (before : List Node) (n : Node) (after : List Node) {f : Fault} {next : Machine}
    (h : m.run before = .running next) (hn : next.step n = .stopped f next) :
    Yields m below (before ++ n :: after) (before ++ [n]) ⟨.error f, next.scope⟩

namespace Yields

theorem node (h : m.step n = .running ⟨v :: below, t⟩) : Yields m below [n] [n] ⟨.ok v, t⟩ :=
  value [n] (run_cons h)

theorem nodeFault (h : m.step n = .stopped f m) : Yields m below [n] [n] ⟨.error f, m.scope⟩ :=
  fault [] n [] rfl h

/-- A result is pushed in the place of the operands it was computed from. -/
theorem pushed {r : Except Fault Value} (h : m.step n = m.push below r) :
    Yields m below [n] [n] ⟨r, m.scope⟩ := by
  cases r with
  | ok v => exact node h
  | error f => exact nodeFault h

theorem append {b : Evaluation} (h : Yields m below nodes taken ⟨.ok v, t⟩)
    (h' : Yields ⟨v :: below, t⟩ below' rest taken' b) :
    Yields m below' (nodes ++ rest) (taken ++ taken') b := by
  cases h with
  | value _ hv =>
    cases h' with
    | value _ hv' => exact value _ ((run_append hv).trans hv')
    | fault before n after hb hn =>
      rw [← List.append_assoc, ← List.append_assoc]
      exact fault _ n after ((run_append hv).trans hb) hn

theorem append_of_fault (h : Yields m below nodes taken ⟨.error f, t⟩) (rest : List Node) :
    Yields m below' (nodes ++ rest) taken ⟨.error f, t⟩ := by
  cases h with
  | fault before n after hb hn =>
    rw [List.append_assoc, List.cons_append]
    exact fault before n (after ++ rest) hb hn

/-- What comes after an operand. -/
theorem onward {b : Evaluation} {after : Scope → List Node}
    (h : Yields m below nodes taken a)
    (hok : ∀ v, a.result = .ok v → Yields ⟨v :: below, a.scope⟩ below' rest (after a.scope) b)
    (herror : ∀ f, a.result = .error f → b = ⟨.error f, a.scope⟩) :
    Yields m below' (nodes ++ rest) (taken ++ a.onward after) b := by
  obtain ⟨result, t⟩ := a
  cases result with
  | ok v => exact h.append (hok v rfl)
  | error f =>
    rw [herror f rfl, Evaluation.onward, List.append_nil]
    exact h.append_of_fault rest

end Yields

/-- The nodes of an expression yield its evaluation, whatever operands wait below. -/
theorem postorder_yields (e : Expr) (below : List Value) (s : Scope) :
    Yields ⟨below, s⟩ below e.postorder (e.visits s) (evaluate e s) := by
  induction e generalizing below s with
  | literal v => exact .node rfl
  | grouping e ih =>
    rw [Expr.postorder, Expr.visits]
    refine (ih below s).onward ?_ ?_
    · intro v hv
      have ha : evaluate (.grouping e) s = ⟨.ok v, (evaluate e s).scope⟩ := by
        rw [evaluate, ← hv]
      rw [ha]
      exact .node rfl
    · intro f hf
      rw [evaluate, ← hf]
  | unary op e ih =>
    rw [Expr.postorder, Expr.visits]
    refine (ih below s).onward ?_ ?_
    · intro v hv
      simp only [evaluate, hv]
      exact .pushed rfl
    · intro f hf
      simp only [evaluate, hf]
  | binary l op r ihl ihr =>
    rw [Expr.postorder, Expr.visits, List.append_assoc]
    refine (ihl below s).onward ?_ ?_
    · intro v hv
      refine (ihr (v :: below) (evaluate l s).scope).onward ?_ ?_
      · intro w hw
        simp only [evaluate, hv, hw]
        exact .pushed rfl
      · intro f hf
        simp only [evaluate, hv, hf]
    · intro f hf
      simp only [evaluate, hf]
  | var name => exact .pushed rfl
  | assign name e ih =>
    rw [Expr.postorder, Expr.visits]
    refine (ih below s).onward ?_ ?_
    · intro v hv
      have hstep : step ⟨v :: below, (evaluate e s).scope⟩ (.assign name) =
          match (evaluate e s).scope.assign name v with
          | .ok t => .running ⟨v :: below, t⟩
          | .error f => .stopped f ⟨v :: below, (evaluate e s).scope⟩ := rfl
      simp only [evaluate, hv]
      cases ha : (evaluate e s).scope.assign name v with
      | ok t =>
        rw [ha] at hstep
        exact .node hstep
      | error f =>
        rw [ha] at hstep
        exact .nodeFault hstep
    · intro f hf
      simp only [evaluate, hf]

/-- Evaluation is what the machine does with the nodes in postorder. If it gives a value, the machine
takes each node once and has the value on top; if it ends at a fault, the machine takes the nodes up
to the one whose token the fault carries and stops there. Either way the scope is the machine's, in
which the assignments among the nodes before are made, in their order and no others, so that a name
has the value assigned to it last, or else the one it had; nothing is printed. -/
theorem evaluate_on_stack (e : Expr) (below : List Value) (s : Scope) :
    (match (evaluate e s).result with
      | .ok v =>
        run ⟨below, s⟩ e.postorder = .running ⟨v :: below, (evaluate e s).scope⟩ ∧
          e.visits s = e.postorder ∧
          ∃ writes, writes.map Prod.fst = Node.targets e.postorder ∧
            s.assignAll? writes = some (evaluate e s).scope ∧
            ∀ name, (evaluate e s).scope.get? name =
              (writes.reverse.lookup name).or (s.get? name)
      | .error f =>
        ∃ before n after m, e.postorder = before ++ n :: after ∧
          run ⟨below, s⟩ before = .running m ∧ m.step n = .stopped f m ∧
          run ⟨below, s⟩ e.postorder = .stopped f m ∧ (evaluate e s).scope = m.scope ∧
          e.visits s = before ++ [n] ∧ n.token? = some f.token ∧
          ∃ writes, writes.map Prod.fst = Node.targets before ∧
            s.assignAll? writes = some m.scope ∧
            ∀ name, m.scope.get? name = (writes.reverse.lookup name).or (s.get? name)) ∧
    execute (.expression e) s = ⟨[], (evaluate e s).fault?, (evaluate e s).scope⟩ := by
  constructor
  · have h := postorder_yields e below s
    generalize evaluate e s = a at h ⊢
    generalize e.visits s = visits at h ⊢
    generalize e.postorder = nodes at h ⊢
    cases h with
    | value _ hv =>
      obtain ⟨writes, hw, hs⟩ := run_running hv
      exact ⟨hv, rfl, writes, hw, hs, Scope.get?_assignAll? hs⟩
    | fault before n after hb hn =>
      have hall := (run_append hb).trans (run_cons_stopped hn after)
      obtain ⟨writes, hw, hs⟩ := run_running hb
      exact ⟨before, n, after, _, rfl, hb, hn, hall, rfl, rfl, (step_stopped hn).2, writes, hw, hs,
        Scope.get?_assignAll? hs⟩
  · rw [execute, Evaluation.execute, Evaluation.fault?]
    cases (evaluate e s).result <;> rfl

end Machine

end SmallScript
