import SmallScript.Proofs.Simulation

/-!
A program sees the scope it starts in only by looking up the names that occur in it. How deep the
scope is and which of its frames hold the bindings makes no difference.
-/
namespace SmallScript

/-- Both scopes answer alike to these names. -/
def Scope.Alike (names : List String) (s t : Scope) : Prop :=
  ∀ name ∈ names, t.get? name = s.get? name

variable {names : List String} {s t : Scope}

theorem Scope.Alike.assign? (h : s.Alike names t) {name : String} (hn : name ∈ names) (v : Value) :
    Option.Rel (Scope.Alike names) (s.assign? name v) (t.assign? name v) := by
  have hb : (t.assign? name v).isSome = (s.assign? name v).isSome := by
    rw [assign?_isSome, assign?_isSome, h name hn]
  cases hs : s.assign? name v with
  | none =>
    rw [hs] at hb
    cases ht : t.assign? name v with
    | none => exact .none
    | some t' => rw [ht] at hb; cases hb
  | some s' =>
    rw [hs] at hb
    obtain ⟨t', ht⟩ := Option.isSome_iff_exists.mp hb
    rw [ht]
    apply Option.Rel.some
    intro m hm
    rw [get?_assign? name m v s s' hs, get?_assign? name m v t t' ht, h m hm]

theorem Scope.Alike.define (h : s.Alike names t) (name : String) (v : Value) :
    (s.define name v).Alike names (t.define name v) := by
  intro m hm
  rw [get?_define, get?_define, h m hm]

/-- Scopes that answer alike to the names of a program are the same to it. -/
theorem indistinct_alike (names : List String) :
    Indistinct names (fun f g => ∀ name ∈ names, g.get? name = f.get? name)
      (Scope.Alike names) where
  fresh _ _ := rfl
  value name hn _ _ h := h name hn
  put name _ f g v h m hm := by rw [f.get?_put, g.get?_put, h m hm]
  scope name hn := ⟨fun h => h name hn, fun v h => h.assign? hn v⟩
  define name _ _ _ v h := h.define name v

theorem executeAll_singleton (st : Stmt) (s : Scope) : executeAll [st] s = execute st s := by
  rw [executeAll, Execution.andThen]
  split
  · rfl
  · next hf => simp [executeAll, ← hf]

/-- In two scopes that answer alike to the names of a program, it prints the same lines and ends at
the same fault or at none, and they answer alike to its names after it. So it does in a block what it
does without one, and does not depend on names that do not occur in it. -/
theorem executeAll_alike (program : List Stmt) (s t : Scope)
    (h : ∀ name ∈ Node.names (Stmt.postorderAll program), t.get? name = s.get? name) :
    ((executeAll program t).output = (executeAll program s).output ∧
      (executeAll program t).fault? = (executeAll program s).fault? ∧
      ∀ name ∈ Node.names (Stmt.postorderAll program),
        (executeAll program t).scope.get? name = (executeAll program s).scope.get? name) ∧
    ((executeAll [.block program] s).output = (executeAll program s).output ∧
      (executeAll [.block program] s).fault? = (executeAll program s).fault?) ∧
    ∀ name ∉ Node.names (Stmt.postorderAll program), ∀ v,
      (executeAll program (s.define name v)).output = (executeAll program s).output ∧
        (executeAll program (s.define name v)).fault? = (executeAll program s).fault? := by
  have hrun {t : Scope} (h : s.Alike (Node.names (Stmt.postorderAll program)) t) :=
    (indistinct_alike _).executeAll_agrees program (List.Subset.refl _) (k := 0) h
  refine ⟨?_, ?_, ?_⟩
  · exact ⟨(hrun h).output, (hrun h).fault, (hrun h).scope⟩
  · have hblock := hrun (t := s.enter) fun name _ => Scope.get?_enter name s
    rw [executeAll_singleton]
    exact ⟨hblock.output, hblock.fault⟩
  · intro name hn v
    have hdefine : s.Alike (Node.names (Stmt.postorderAll program)) (s.define name v) := by
      intro m hm
      rw [Scope.get?_define, if_neg]
      rintro rfl
      exact hn hm
    exact ⟨(hrun hdefine).output, (hrun hdefine).fault⟩

/-- The same bindings in one frame and in three, one of which also hides another binding. -/
theorem executeAll_alike_deeper :
    let program : List Stmt := [
      .expression (.assign (.ofName "a" 1) (.var (.ofName "b" 1))),
      .block [.declare (.ofName "a" 2) none,
        .expression (.assign (.ofName "b" 2) (.var (.ofName "a" 2)))],
      .declare (.ofName "c" 3) (some (.var (.ofName "a" 3))),
      .print (.var (.ofName "b" 4)), .print (.var (.ofName "c" 4)), .print (.var (.ofName "d" 4))]
    let s : Scope := .globals [("a", .string "old"), ("b", .boolean true)]
    let t : Scope :=
      .block [("b", .boolean true)] (.block [] (.globals [("b", .nil), ("a", .string "old")]))
    (∀ name ∈ Node.names (Stmt.postorderAll program), t.get? name = s.get? name) ∧
      (executeAll program t).output = ["nil", "true"] ∧
      (executeAll program t).fault? = some (.undefined (.ofName "d" 4)) := by
  intro program s t
  have h : ∀ name ∈ Node.names (Stmt.postorderAll program), t.get? name = s.get? name := by
    decide +revert
  have hs : (executeAll program s).output = ["nil", "true"] ∧
      (executeAll program s).fault? = some (.undefined (.ofName "d" 4)) := by
    clear h
    decide +revert +kernel
  obtain ⟨⟨ho, hf, _⟩, _⟩ := executeAll_alike program s t h
  exact ⟨h, ho.trans hs.1, hf.trans hs.2⟩

end SmallScript
