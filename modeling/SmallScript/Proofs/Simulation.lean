import SmallScript.Proofs.Visits

/-!
Two runs side by side. A run comes to its scope by looking names up, assigning to them and declaring
them; where two scopes answer alike to that, the runs print the same lines and end at the same fault.
The names of the second run may be spelled differently.
-/
namespace SmallScript

/-- The name that a node looks up, changes or declares. -/
def Node.name? : Node → Option String
  | var name => some name.lexeme
  | assign name => some name.lexeme
  | declare name _ => some name.lexeme
  | _ => none

/-- The names that occur in some nodes. -/
def Node.names (ns : List Node) : List String := ns.filterMap name?

theorem Node.names_append (ms ns : List Node) : names (ms ++ ns) = names ms ++ names ns :=
  List.filterMap_append

theorem Node.notMem_names_append {name : String} {ms ns : List Node} :
    name ∉ names (ms ++ ns) ↔ name ∉ names ms ∧ name ∉ names ns := by
  rw [names_append, List.mem_append, not_or]

theorem Node.mem_names_of_use {n : Node} {ns : List Node} (hn : n ∈ ns) {name : Token}
    (hu : name ∈ n.use?) : name.lexeme ∈ names ns := by
  apply List.mem_filterMap.mpr
  refine ⟨n, hn, ?_⟩
  cases n <;> cases hu <;> rfl

/-- The token of a name on this line. -/
def Token.ofName (name : String) (line : Nat) : Token := ⟨.identifier name, name, line⟩

/-- The expression with its names spelled differently. -/
def Expr.respell (spell : Token → Token) : Expr → Expr
  | literal v => literal v
  | grouping e => grouping (e.respell spell)
  | unary op e => unary op (e.respell spell)
  | binary l op r => binary (l.respell spell) op (r.respell spell)
  | var name => var (spell name)
  | assign name e => assign (spell name) (e.respell spell)

theorem Expr.respell_id (e : Expr) : e.respell id = e := by
  induction e with
  | literal v => rfl
  | grouping e ih => rw [respell, ih]
  | unary op e ih => rw [respell, ih]
  | binary l op r ihl ihr => rw [respell, ihl, ihr]
  | var name => rfl
  | assign name e ih => rw [respell, ih, id]

/-- Frames that are so related answer alike to the first name here and the second there. -/
structure Frame.Matches (F : Frame → Frame → Prop) (name name' : String) : Prop where
  value : ∀ {f g}, F f g → g.get? name' = f.get? name
  change : ∀ {f g} (v : Value), F f g → (f.get? name).isSome → F (f.put name v) (g.put name' v)

/-- Scopes that are so related answer alike to the first name here and the second there, and are
still so related when both are assigned to. -/
structure Scope.Matches (R : Scope → Scope → Prop) (name name' : String) : Prop where
  value : ∀ {s t}, R s t → t.get? name' = s.get? name
  change : ∀ {s t} (v : Value), R s t → Option.Rel R (s.assign? name v) (t.assign? name' v)

namespace Scope

/-- Blocks whose frames are related, in scopes that are related. -/
def Around (F : Frame → Frame → Prop) (R : Scope → Scope → Prop) : Scope → Scope → Prop
  | block f s, block g t => F f g ∧ R s t
  | _, _ => False

/-- Some blocks, one in the other, whose frames are related, in scopes that are related. -/
def Layered (F : Frame → Frame → Prop) (R : Scope → Scope → Prop) : Nat → Scope → Scope → Prop
  | 0 => R
  | k + 1 => Around F (Layered F R k)

variable {F : Frame → Frame → Prop} {R : Scope → Scope → Prop} {name name' : String}

theorem around_iff {s t : Scope} : Around F R s t ↔
    ∃ f g s' t', s = block f s' ∧ t = block g t' ∧ F f g ∧ R s' t' := by
  constructor
  · intro h
    cases s with
    | globals f => exact h.elim
    | block f s' =>
      cases t with
      | globals g => exact h.elim
      | block g t' => exact ⟨f, g, s', t', rfl, rfl, h.1, h.2⟩
  · rintro ⟨f, g, s', t', rfl, rfl, hf, hs⟩
    exact ⟨hf, hs⟩

theorem Around.leave {s t : Scope} (h : Around F R s t) : R s.leave t.leave := by
  obtain ⟨f, g, s', t', rfl, rfl, _, hs⟩ := around_iff.mp h
  exact hs

theorem Around.map {f g : Frame} (hf : F f g) {s? t? : Option Scope} (h : Option.Rel R s? t?) :
    Option.Rel (Around F R) (s?.map (block f)) (t?.map (block g)) := by
  cases h with
  | none => exact .none
  | some hs => exact .some ⟨hf, hs⟩

/-- Names are looked up and assigned to in the frame first and then around it. -/
theorem Matches.around (hF : Frame.Matches F name name') (hR : Matches R name name') :
    Matches (Around F R) name name' := by
  constructor
  · intro s t h
    obtain ⟨f, g, s, t, rfl, rfl, hf, hs⟩ := around_iff.mp h
    rw [get?, get?, hF.value hf, hR.value hs]
  · intro s t v h
    obtain ⟨f, g, s, t, rfl, rfl, hf, hs⟩ := around_iff.mp h
    rw [assign?, assign?, hF.value hf]
    split
    · next hb => exact .some ⟨hF.change v hf hb, hs⟩
    · exact Around.map hf (hR.change v hs)

/-- What the frame binds is not looked for around it. -/
theorem Matches.around_of_bound (hF : Frame.Matches F name name')
    (hb : ∀ {f g}, F f g → (f.get? name).isSome) : Matches (Around F R) name name' := by
  constructor
  · intro s t h
    obtain ⟨f, g, s, t, rfl, rfl, hf, hs⟩ := around_iff.mp h
    have hv := Option.isSome_iff_exists.mp (hb hf)
    obtain ⟨v, hv⟩ := hv
    rw [get?, get?, hF.value hf, hv, Option.some_or, Option.some_or]
  · intro s t v h
    obtain ⟨f, g, s, t, rfl, rfl, hf, hs⟩ := around_iff.mp h
    rw [assign?, assign?, hF.value hf, if_pos (hb hf), if_pos (hb hf)]
    exact .some ⟨hF.change v hf (hb hf), hs⟩

theorem Matches.layered (hF : Frame.Matches F name name') (hR : Matches R name name') (k : Nat) :
    Matches (Layered F R k) name name' := by
  induction k with
  | zero => exact hR
  | succ k ih => exact Matches.around hF ih

end Scope

/-- The token names the same in the first scope as the other token in the second. If the tokens
differ, the name is bound, so that none of them is found at fault. -/
structure Token.Renders (R : Scope → Scope → Prop) (name name' : Token) : Prop where
  answers : Scope.Matches R name.lexeme name'.lexeme
  bound : name' = name ∨ ∀ {s t}, R s t → (s.get? name.lexeme).isSome

namespace Token.Renders

variable {R : Scope → Scope → Prop} {name name' : Token} {s t : Scope}

theorem lookup (h : Renders R name name') (hs : R s t) : t.lookup name' = s.lookup name := by
  rw [Scope.lookup, Scope.lookup, h.answers.value hs]
  cases hv : s.get? name.lexeme with
  | some v => rfl
  | none =>
    obtain rfl | hb := h.bound
    · rfl
    · have := hb hs
      rw [hv] at this
      cases this

/-- Both assignments succeed, or both fail at the same token. -/
theorem assign (h : Renders R name name') (hs : R s t) (v : Value) :
    (∃ s' t', s.assign name v = .ok s' ∧ t.assign name' v = .ok t' ∧ R s' t') ∨
      ∃ f, s.assign name v = .error f ∧ t.assign name' v = .error f := by
  have hv := h.answers.change v hs
  rw [Scope.assign, Scope.assign]
  cases hs' : s.assign? name.lexeme v with
  | some s' =>
    rw [hs'] at hv
    cases ht' : t.assign? name'.lexeme v with
    | none => rw [ht'] at hv; cases hv
    | some t' =>
      rw [ht'] at hv
      cases hv with
      | some hr => exact .inl ⟨s', t', rfl, rfl, hr⟩
  | none =>
    rw [hs'] at hv
    cases ht' : t.assign? name'.lexeme v with
    | some t' => rw [ht'] at hv; cases hv
    | none =>
      right
      -- the fault names the token, so a name spelled differently must not come to one
      obtain he | hb := h.bound
      · rw [he]
        exact ⟨.undefined name, rfl, rfl⟩
      · have hsome := hb hs
        rw [← Scope.assign?_isSome name.lexeme v, hs'] at hsome
        cases hsome

end Token.Renders

/-- Two evaluations with the same result that leave related scopes. -/
structure Evaluation.Agrees (R : Scope → Scope → Prop) (a b : Evaluation) : Prop where
  result : b.result = a.result
  scope : R a.scope b.scope

/-- Two executions that print the same, end alike and leave related scopes. -/
structure Execution.Agrees (R : Scope → Scope → Prop) (x y : Execution) : Prop where
  output : y.output = x.output
  fault : y.fault? = x.fault?
  scope : R x.scope y.scope

theorem evaluate_respell {R : Scope → Scope → Prop} {spell : Token → Token} {e : Expr}
    (h : ∀ n ∈ e.postorder, ∀ name ∈ n.use?, name.Renders R (spell name)) {s t : Scope}
    (hs : R s t) : (evaluate e s).Agrees R (evaluate (e.respell spell) t) := by
  induction e generalizing s t with
  | literal v => exact ⟨rfl, hs⟩
  | grouping e ih =>
    rw [Expr.postorder, List.forall_mem_append] at h
    exact ih h.1 hs
  | unary op e ih =>
    rw [Expr.postorder, List.forall_mem_append] at h
    have he := ih h.1 hs
    rw [Expr.respell, evaluate, evaluate, he.result]
    split
    · exact ⟨rfl, he.scope⟩
    · exact ⟨rfl, he.scope⟩
  | binary l op r ihl ihr =>
    rw [Expr.postorder, List.forall_mem_append, List.forall_mem_append] at h
    have hl := ihl h.1.1 hs
    rw [Expr.respell, evaluate, evaluate, hl.result]
    split
    · have hr := ihr h.1.2 hl.scope
      dsimp only
      rw [hr.result]
      split
      · exact ⟨rfl, hr.scope⟩
      · exact ⟨rfl, hr.scope⟩
    · exact ⟨rfl, hl.scope⟩
  | var name =>
    have hn := h (.var name) (List.mem_singleton_self _) name rfl
    exact ⟨hn.lookup hs, hs⟩
  | assign name e ih =>
    rw [Expr.postorder, List.forall_mem_append, List.forall_mem_singleton] at h
    have he := ih h.1 hs
    rw [Expr.respell, evaluate, evaluate, he.result]
    split
    · next v hv =>
      obtain ⟨s', t', hs', ht', hr⟩ | ⟨f, hs', ht'⟩ := (h.2 name rfl).assign he.scope v
      · simp only [hs', ht']
        exact ⟨rfl, hr⟩
      · simp only [hs', ht']
        exact ⟨rfl, he.scope⟩
    · exact ⟨rfl, he.scope⟩

variable {R R' : Scope → Scope → Prop}

theorem Execution.Agrees.mono {x y : Execution} (h : x.Agrees R y) (hR : ∀ s t, R s t → R' s t) :
    x.Agrees R' y :=
  ⟨h.output, h.fault, hR _ _ h.scope⟩

theorem Evaluation.Agrees.execute {a b : Evaluation} (h : a.Agrees R b)
    {next next' : Value → Scope → Execution}
    (hn : ∀ v s t, R s t → (next v s).Agrees R' (next' v t)) (hR : ∀ s t, R s t → R' s t) :
    (a.execute next).Agrees R' (b.execute next') := by
  rw [Evaluation.execute, Evaluation.execute, h.result]
  split
  · exact hn _ _ _ h.scope
  · exact ⟨rfl, rfl, hR _ _ h.scope⟩

/-- What follows two executions that agree has to agree only where they end without a fault. -/
theorem Execution.Agrees.andThen {x y : Execution} (h : x.Agrees R y)
    {next next' : Scope → Execution}
    (hn : x.fault? = none → R x.scope y.scope → (next x.scope).Agrees R' (next' y.scope))
    (hR : ∀ s t, R s t → R' s t) : (x.andThen next).Agrees R' (y.andThen next') := by
  rw [Execution.andThen, Execution.andThen, h.fault]
  split
  · exact h.mono hR
  · next hf =>
    have ha := hn hf h.scope
    refine ⟨?_, ha.fault, ha.scope⟩
    dsimp only
    rw [h.output, ha.output]

/-- Frames and scopes that a program with these names cannot tell apart, whatever it declares. -/
structure Indistinct (names : List String) (F : Frame → Frame → Prop)
    (R : Scope → Scope → Prop) : Prop where
  fresh : F [] []
  value : ∀ name ∈ names, ∀ {f g}, F f g → g.get? name = f.get? name
  put : ∀ name ∈ names, ∀ {f g} (v : Value), F f g → F (f.put name v) (g.put name v)
  scope : ∀ name ∈ names, Scope.Matches R name name
  define : ∀ name ∈ names, ∀ {s t} (v : Value), R s t → R (s.define name v) (t.define name v)

namespace Indistinct

open Scope (Layered)

variable {names : List String} {F : Frame → Frame → Prop} {s t : Scope}

theorem define_layered (h : Indistinct names F R) {name : String} (hn : name ∈ names) {k : Nat}
    (v : Value) (hs : Layered F R k s t) :
    Layered F R k (s.define name v) (t.define name v) := by
  cases k with
  | zero => exact h.define name hn v hs
  | succ k =>
    obtain ⟨f, g, s, t, rfl, rfl, hf, hs⟩ := Scope.around_iff.mp hs
    exact ⟨h.put name hn v hf, hs⟩

theorem evaluate_agrees (h : Indistinct names F R) {e : Expr}
    (hn : Node.names e.postorder ⊆ names) {k : Nat} (hs : Layered F R k s t) :
    (evaluate e s).Agrees (Layered F R k) (evaluate e t) := by
  have hr : (evaluate e s).Agrees (Layered F R k) (evaluate (e.respell id) t) := by
    apply evaluate_respell _ hs
    intro n hmem name hu
    have hname : name.lexeme ∈ names := hn (Node.mem_names_of_use hmem hu)
    refine ⟨Scope.Matches.layered ?_ (h.scope _ hname) k, .inl rfl⟩
    exact ⟨fun hf => h.value _ hname hf, fun v hf _ => h.put _ hname v hf⟩
  rwa [e.respell_id] at hr

/-- A statement that evaluates an expression and then does its own work. -/
theorem execute_evaluated (h : Indistinct names F R) {e : Expr} {n : Node}
    (hn : Node.names (e.postorder ++ [n]) ⊆ names) {k : Nat} (hs : Layered F R k s t)
    {next : Value → Scope → Execution}
    (hnext : ∀ v s t, Layered F R k s t → (next v s).Agrees (Layered F R k) (next v t)) :
    ((evaluate e s).execute next).Agrees (Layered F R k) ((evaluate e t).execute next) := by
  rw [Node.names_append] at hn
  have he := h.evaluate_agrees (List.append_subset.mp hn).1 hs
  exact he.execute hnext fun _ _ h => h

mutual

/-- A program that cannot tell the scopes apart does the same in both, and leaves scopes that it
cannot tell apart. -/
theorem execute_agrees (h : Indistinct names F R) : (st : Stmt) →
    Node.names st.postorder ⊆ names → {k : Nat} → {s t : Scope} → Layered F R k s t →
      (execute st s).Agrees (Layered F R k) (execute st t)
  | .print e, hn, _, _, _, hs => h.execute_evaluated hn hs fun _ _ _ hs => ⟨rfl, rfl, hs⟩
  | .expression e, hn, _, _, _, hs => h.execute_evaluated hn hs fun _ _ _ hs => ⟨rfl, rfl, hs⟩
  | .declare name none, hn, _, _, _, hs => by
    have hname : name.lexeme ∈ names := hn (List.mem_singleton_self _)
    exact ⟨rfl, rfl, h.define_layered hname .nil hs⟩
  | .declare name (some e), hn, _, _, _, hs => by
    have hname : name.lexeme ∈ names := by
      rw [Stmt.postorder, Node.names_append] at hn
      exact hn (List.mem_append_right _ (List.mem_singleton_self _))
    rw [execute, execute]
    apply h.execute_evaluated hn hs
    intro v s t hs
    exact ⟨rfl, rfl, h.define_layered hname v hs⟩
  | .block body, hn, k, s, t, hs => by
    rw [Stmt.postorder, Node.names_append] at hn
    have henter : Layered F R (k + 1) s.enter t.enter := ⟨h.fresh, hs⟩
    have hb := executeAll_agrees h body (List.append_subset.mp hn).1 henter
    exact ⟨hb.output, hb.fault, hb.scope.leave⟩

theorem executeAll_agrees (h : Indistinct names F R) : (body : List Stmt) →
    Node.names (Stmt.postorderAll body) ⊆ names → {k : Nat} → {s t : Scope} →
      Layered F R k s t → (executeAll body s).Agrees (Layered F R k) (executeAll body t)
  | [], _, _, _, _, hs => ⟨rfl, rfl, hs⟩
  | first :: rest, hn, _, _, _, hs => by
    rw [Stmt.postorderAll, Node.names_append] at hn
    obtain ⟨hfirst, hrest⟩ := List.append_subset.mp hn
    rw [executeAll, executeAll]
    apply (execute_agrees h first hfirst hs).andThen
    · intro _ hs
      exact executeAll_agrees h rest hrest hs
    · exact fun _ _ h => h

end

end Indistinct

end SmallScript
