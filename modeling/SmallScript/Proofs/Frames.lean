import SmallScript.Session
import SmallScript.Syntax.Node

/-!
What a run may change in a scope, frame by frame. Assignments change values, declarations add names
to the innermost frame, and every block that is entered is left again, at a fault as well.
-/
namespace SmallScript

/-- The name to which a node assigns. -/
def Node.target? : Node → Option String
  | assign name => some name.lexeme
  | _ => none

/-- The names to which some of these nodes assign. -/
def Node.targets (ns : List Node) : List String := ns.filterMap target?

theorem Node.targets_append (ms ns : List Node) : targets (ms ++ ns) = targets ms ++ targets ns :=
  List.filterMap_append

/-- The name that a statement declares in the scope in which it stands itself. -/
def Stmt.declared? : Stmt → Option String
  | .declare name _ => some name.lexeme
  | _ => none

namespace Scope

/-- The value of a name in one frame. Frames are counted from the innermost out. -/
def valueIn : Scope → Nat → String → Option Value
  | globals f, 0, name => f.get? name
  | globals _, _ + 1, _ => none
  | block f _, 0, name => f.get? name
  | block _ outer, i + 1, name => outer.valueIn i name

section

variable {s : Scope} {name : String} {v : Value} {i : Nat}

theorem valueIn_leave (h : s.depth ≠ 1) (i : Nat) (name : String) :
    s.leave.valueIn i name = s.valueIn (i + 1) name := by
  cases s with
  | globals f => exact absurd rfl h
  | block f outer => rfl

theorem leave_of_depth (h : s.depth = 1) : s.leave = s := by
  cases s with
  | globals f => rfl
  | block f outer =>
    have := outer.depth_pos
    simp only [Scope.depth] at h
    omega

theorem depth_leave (h : s.depth ≠ 1) : s.leave.depth + 1 = s.depth := by
  cases s with
  | globals f => exact absurd rfl h
  | block f outer => rfl

theorem lt_depth_of_valueIn (h : (s.valueIn i name).isSome) : i < s.depth := by
  induction s generalizing i with
  | globals f =>
    cases i with
    | zero => exact Nat.one_pos
    | succ i => cases h
  | block f outer ih =>
    cases i with
    | zero => exact Nat.succ_pos _
    | succ i => exact Nat.succ_lt_succ (ih h)

/-- A name has the value that it has in the innermost frame that binds it. -/
theorem get?_eq_some_iff : s.get? name = some v ↔
    ∃ i, s.valueIn i name = some v ∧ ∀ j < i, s.valueIn j name = none := by
  induction s with
  | globals f =>
    constructor
    · exact fun h => ⟨0, h, fun j hj => absurd hj (Nat.not_lt_zero j)⟩
    · rintro ⟨i, hi, _⟩
      cases i with
      | zero => exact hi
      | succ i => cases hi
  | block f outer ih =>
    rw [get?, Option.or_eq_some_iff, ih]
    constructor
    · rintro (h | ⟨hn, i, hi, hlt⟩)
      · exact ⟨0, h, fun j hj => absurd hj (Nat.not_lt_zero j)⟩
      · refine ⟨i + 1, hi, ?_⟩
        intro j hj
        cases j with
        | zero => exact hn
        | succ j => exact hlt j (Nat.lt_of_succ_lt_succ hj)
    · rintro ⟨i, hi, hlt⟩
      cases i with
      | zero => exact .inl hi
      | succ i =>
        refine .inr ⟨hlt 0 (Nat.succ_pos i), i, hi, ?_⟩
        exact fun j hj => hlt (j + 1) (Nat.succ_lt_succ hj)

theorem isSome_get?_iff : (s.get? name).isSome ↔ ∃ i, (s.valueIn i name).isSome := by
  constructor
  · intro h
    obtain ⟨v, hv⟩ := Option.isSome_iff_exists.mp h
    obtain ⟨i, hi, _⟩ := get?_eq_some_iff.mp hv
    exact ⟨i, by rw [hi]; rfl⟩
  · rintro ⟨i, hi⟩
    induction s generalizing i with
    | globals f =>
      cases i with
      | zero => exact hi
      | succ i => cases hi
    | block f outer ih =>
      rw [get?, Option.isSome_or, Bool.or_eq_true]
      cases i with
      | zero => exact .inl hi
      | succ i => exact .inr (ih i hi)

end

/-- The first scope may become the second where no names but these are assigned to, and no names but
those declared in the innermost frame. -/
structure ChangesTo (assigned declared : List String) (s t : Scope) : Prop where
  depth : t.depth = s.depth
  kept : ∀ i name, (s.valueIn i name).isSome → (t.valueIn i name).isSome
  gained : ∀ i name, (t.valueIn i name).isSome →
    (s.valueIn i name).isSome ∨ i = 0 ∧ name ∈ declared
  value : ∀ i name, name ∉ assigned → ¬ (i = 0 ∧ name ∈ declared) →
    t.valueIn i name = s.valueIn i name

variable {assigned assigned' declared declared' : List String} {s t u : Scope}

theorem ChangesTo.refl (assigned declared : List String) (s : Scope) :
    ChangesTo assigned declared s s :=
  ⟨rfl, fun _ _ h => h, fun _ _ h => .inl h, fun _ _ _ _ => rfl⟩

theorem ChangesTo.mono (h : ChangesTo assigned declared s t) (ha : assigned ⊆ assigned')
    (hd : declared ⊆ declared') : ChangesTo assigned' declared' s t where
  depth := h.depth
  kept := h.kept
  gained i name hn := (h.gained i name hn).imp_right fun ⟨hi, hm⟩ => ⟨hi, hd hm⟩
  value i name hn hi := h.value i name (fun hm => hn (ha hm)) fun ⟨h0, hm⟩ => hi ⟨h0, hd hm⟩

theorem ChangesTo.mono_left (h : ChangesTo assigned declared s t) (more : List String) :
    ChangesTo (assigned ++ more) declared s t :=
  h.mono (List.subset_append_left _ _) (List.Subset.refl _)

theorem ChangesTo.mono_right (h : ChangesTo assigned declared s t) (more : List String) :
    ChangesTo (more ++ assigned) declared s t :=
  h.mono (List.subset_append_right _ _) (List.Subset.refl _)

theorem ChangesTo.trans (h : ChangesTo assigned declared s t)
    (h' : ChangesTo assigned declared t u) : ChangesTo assigned declared s u where
  depth := h'.depth.trans h.depth
  kept i name hn := h'.kept i name (h.kept i name hn)
  gained i name hn := by
    obtain ht | hd := h'.gained i name hn
    · exact h.gained i name ht
    · exact .inr hd
  value i name hn hi := (h'.value i name hn hi).trans (h.value i name hn hi)

/-- An assignment changes one name in one frame, the innermost that binds it. -/
theorem assign?_innermost {name : String} {v : Value} (h : s.assign? name v = some t) :
    t.depth = s.depth ∧ ∃ i, (s.valueIn i name).isSome ∧ (∀ j < i, s.valueIn j name = none) ∧
      ∀ j m, t.valueIn j m = if j = i ∧ m = name then some v else s.valueIn j m := by
  refine ⟨depth_assign? name v s t h, ?_⟩
  induction s generalizing t with
  | globals f =>
    rw [assign?] at h
    split at h <;> cases h
    next hf =>
      refine ⟨0, hf, fun j hj => absurd hj (Nat.not_lt_zero j), ?_⟩
      intro j m
      cases j <;> simp [valueIn, Frame.get?_put, eq_comm]
  | block f outer ih =>
    rw [assign?] at h
    split at h
    · next hf =>
      cases h
      refine ⟨0, hf, fun j hj => absurd hj (Nat.not_lt_zero j), ?_⟩
      intro j m
      cases j <;> simp [valueIn, Frame.get?_put, eq_comm]
    · next hf =>
      obtain ⟨u, hu, rfl⟩ := Option.map_eq_some_iff.mp h
      obtain ⟨i, hi, hlt, hv⟩ := ih hu
      refine ⟨i + 1, hi, ?_, ?_⟩
      · intro j hj
        cases j with
        | zero => exact Option.not_isSome_iff_eq_none.mp hf
        | succ j => exact hlt j (Nat.lt_of_succ_lt_succ hj)
      · intro j m
        cases j with
        | zero => simp [valueIn]
        | succ j => simp [valueIn, hv]

theorem changesTo_assign {name : Token} {v : Value} (h : s.assign name v = .ok t) :
    ChangesTo [name.lexeme] [] s t := by
  rw [assign] at h
  split at h
  · next u hu =>
    cases h
    obtain ⟨hd, i, hi, _, hv⟩ := assign?_innermost hu
    constructor
    · exact hd
    · intro j m hm
      rw [hv]
      split
      · rfl
      · exact hm
    · intro j m hm
      rw [hv] at hm
      split at hm
      · next hj =>
        obtain ⟨rfl, rfl⟩ := hj
        exact .inl hi
      · exact .inl hm
    · intro j m hm _
      rw [hv, if_neg]
      rintro ⟨_, rfl⟩
      exact hm (List.mem_singleton_self _)
  · cases h

theorem valueIn_define (name : String) (v : Value) (s : Scope) (i : Nat) (m : String) :
    (s.define name v).valueIn i m = if i = 0 ∧ name = m then some v else s.valueIn i m := by
  cases s <;> cases i <;> simp [define, valueIn, Frame.get?_put]

theorem changesTo_define (name : String) (v : Value) (s : Scope) :
    ChangesTo [] [name] s (s.define name v) := by
  constructor
  · exact depth_define name v s
  · intro i m hm
    rw [valueIn_define]
    split
    · rfl
    · exact hm
  · intro i m hm
    rw [valueIn_define] at hm
    split at hm
    · next h => exact .inr ⟨h.1, List.mem_singleton.mpr h.2.symm⟩
    · exact .inl hm
  · intro i m _ hm
    rw [valueIn_define, if_neg]
    rintro ⟨hi, rfl⟩
    exact hm ⟨hi, List.mem_singleton_self _⟩

/-- What is declared in a block is gone once the block is left. -/
theorem ChangesTo.leave (h : ChangesTo assigned declared s.enter t) :
    ChangesTo assigned [] s t.leave := by
  cases t with
  | globals f =>
    -- what was entered is deeper than one frame, and the depth is kept
    have hd : 1 = s.depth + 1 := h.depth
    have := s.depth_pos
    omega
  | block f outer =>
    have hd : outer.depth + 1 = s.depth + 1 := h.depth
    constructor
    · exact Nat.succ_inj.mp hd
    · intro i m hm
      exact h.kept (i + 1) m hm
    · intro i m hm
      obtain hs | ⟨h0, _⟩ := h.gained (i + 1) m hm
      · exact .inl hs
      · cases h0
    · intro i m hm _
      exact h.value (i + 1) m hm fun h0 => Nat.succ_ne_zero i h0.1

end Scope

open Scope (ChangesTo)

/-- An evaluation changes the values of the names to which it assigns. -/
theorem evaluate_changesTo (e : Expr) (s : Scope) :
    ChangesTo (Node.targets e.postorder) [] s (evaluate e s).scope := by
  induction e generalizing s with
  | literal v => exact .refl _ _ s
  | grouping e ih =>
    rw [Expr.postorder, Node.targets_append]
    exact (ih s).mono_left _
  | unary op e ih =>
    rw [Expr.postorder, Node.targets_append, evaluate]
    split <;> exact (ih s).mono_left _
  | binary l op r ihl ihr =>
    rw [Expr.postorder, Node.targets_append, Node.targets_append, evaluate]
    have hl := ((ihl s).mono_left (Node.targets r.postorder)).mono_left
      (Node.targets [.binary op])
    split
    · have hr := ((ihr (evaluate l s).scope).mono_right (Node.targets l.postorder)).mono_left
        (Node.targets [.binary op])
      dsimp only
      split <;> exact hl.trans hr
    · exact hl
  | var name => exact .refl _ _ s
  | assign name e ih =>
    rw [Expr.postorder, Node.targets_append, evaluate]
    have he := (ih s).mono_left (Node.targets [.assign name])
    split
    · split
      · next ht => exact he.trans ((Scope.changesTo_assign ht).mono_right _)
      · exact he
    · exact he

/-- A statement that evaluates an expression and then does its own work. -/
theorem Scope.ChangesTo.execute {e : Expr} {n : Node} {s : Scope} {declared : List String}
    {next : Value → Scope → Execution} (hn : ∀ v t, ChangesTo [] declared t (next v t).scope) :
    ChangesTo (Node.targets (e.postorder ++ [n])) declared s
      ((evaluate e s).execute next).scope := by
  have he := ((evaluate_changesTo e s).mono_left (Node.targets [n])).mono (List.Subset.refl _)
    (List.nil_subset declared)
  rw [Node.targets_append, Evaluation.execute]
  split
  · exact he.trans ((hn _ _).mono (List.nil_subset _) (List.Subset.refl _))
  · exact he

mutual

/-- A statement changes the names to which it assigns and, if it is a declaration, the one that it
declares. -/
theorem execute_changesTo : (st : Stmt) → (s : Scope) →
    ChangesTo (Node.targets st.postorder) st.declared?.toList s (execute st s).scope
  | .print e, s => ChangesTo.execute fun _ t => .refl _ _ t
  | .expression e, s => ChangesTo.execute fun _ t => .refl _ _ t
  | .declare name none, s => Scope.changesTo_define name.lexeme .nil s
  | .declare name (some e), s =>
    ChangesTo.execute fun v t => Scope.changesTo_define name.lexeme v t
  | .block body, s => by
    have hb := (executeAll_changesTo body s.enter).leave
    rw [Stmt.postorder, Node.targets_append]
    exact hb.mono_left _

theorem executeAll_changesTo : (body : List Stmt) → (s : Scope) →
    ChangesTo (Node.targets (Stmt.postorderAll body)) (body.filterMap Stmt.declared?) s
      (executeAll body s).scope
  | [], s => .refl _ _ s
  | first :: rest, s => by
    have hd : (first :: rest).filterMap Stmt.declared? =
        first.declared?.toList ++ rest.filterMap Stmt.declared? := by
      cases h : first.declared? <;> simp [h]
    have hfirst := (execute_changesTo first s).mono
      (List.subset_append_left _ (Node.targets (Stmt.postorderAll rest)))
      (List.subset_append_left _ (rest.filterMap Stmt.declared?))
    rw [Stmt.postorderAll, Node.targets_append, hd, executeAll, Execution.andThen]
    split
    · exact hfirst
    · have hrest := (executeAll_changesTo rest (execute first s).scope).mono
        (List.subset_append_right (Node.targets first.postorder) _)
        (List.subset_append_right first.declared?.toList _)
      exact hfirst.trans hrest

end

/-- A statement without a fault leaves the name that it declares bound. -/
theorem execute_declared {st : Stmt} {s : Scope} (hf : (execute st s).fault? = none) :
    ∀ name ∈ st.declared?, ((execute st s).scope.valueIn 0 name).isSome := by
  intro name hn
  cases st with
  | declare declared init =>
    cases hn
    cases init with
    | none =>
      rw [execute, Scope.valueIn_define]
      simp
    | some e =>
      rw [execute, Evaluation.execute] at hf ⊢
      split at hf
      · rw [Scope.valueIn_define]
        simp
      · cases hf
  | _ => cases hn

theorem executeAll_declared {body : List Stmt} {s : Scope}
    (hf : (executeAll body s).fault? = none) :
    ∀ name ∈ body.filterMap Stmt.declared?, ((executeAll body s).scope.valueIn 0 name).isSome := by
  induction body generalizing s with
  | nil => exact List.forall_mem_nil _
  | cons first rest ih =>
    rw [executeAll, Execution.andThen] at hf ⊢
    split at hf
    · next f hfirst =>
      rw [hfirst] at hf
      cases hf
    · next hfirst =>
      intro name hn
      obtain ⟨st, hst, hd⟩ := List.mem_filterMap.mp hn
      obtain rfl | hrest := List.mem_cons.mp hst
      · exact (executeAll_changesTo rest _).kept 0 name (execute_declared hfirst name hd)
      · exact ih hf name (List.mem_filterMap.mpr ⟨st, hrest, hd⟩)

theorem runAll_depth (sources : List String) (s : Scope) :
    ∀ r ∈ runAll sources s, r.scope.depth = s.depth := by
  induction sources generalizing s with
  | nil => exact List.forall_mem_nil _
  | cons source rest ih =>
    have hd : (run source s).scope.depth = s.depth := (executeAll_changesTo _ s).depth
    rw [runAll, List.forall_mem_cons]
    refine ⟨hd, ?_⟩
    rw [← hd]
    exact ih (run source s).scope

/-- Scopes are restored however a run ends. The depth is as before, the frames around the innermost
one have the same names, the innermost one has at most those more that are declared in it (all of
them without a fault), and no value changes but of a name that is assigned to or declared. So between
the runs of a session there is only the frame of the globals. -/
theorem executeAll_restores (s : Scope) :
    (∀ body : List Stmt,
      ChangesTo (Node.targets (Stmt.postorderAll body)) (body.filterMap Stmt.declared?) s
        (executeAll body s).scope ∧
      ((executeAll body s).fault? = none → ∀ name ∈ body.filterMap Stmt.declared?,
        ((executeAll body s).scope.valueIn 0 name).isSome)) ∧
    (∀ st : Stmt,
      ChangesTo (Node.targets st.postorder) st.declared?.toList s (execute st s).scope) ∧
    ∀ sources : List String, ∀ r ∈ runAll sources .empty, r.scope.depth = 1 := by
  refine ⟨?_, fun st => execute_changesTo st s, fun sources => runAll_depth sources .empty⟩
  intro body
  exact ⟨executeAll_changesTo body s, executeAll_declared⟩

end SmallScript
