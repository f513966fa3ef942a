import SmallScript.Proofs.Lookup

/-!
Scoping is lexical: the name that a block declares may be changed to one that does not occur in the
block, from its first declaration on, and the block does what it did before. A block within it that
declares the old name itself keeps that name to itself from there on.
-/
namespace SmallScript

theorem Stmt.declared?_eq_some {st : Stmt} {x : String} :
    st.declared? = some x ↔ ∃ name init, st = .declare name init ∧ name.lexeme = x := by
  cases st <;> simp [declared?]

variable (x y : String)

/-- The token of a name, changed if it is the first of these names to the second. -/
def Token.rename (t : Token) : Token := if t.lexeme = x then .ofName y t.line else t

namespace Stmt

/-- A declaration with only its own name changed. -/
def renameName : Stmt → Stmt
  | declare name init => declare (name.rename x y) init
  | st => st

/-- A declaration with the name changed only in its initializer. -/
def renameInitializer : Stmt → Stmt
  | declare name init => declare name (init.map (Expr.respell (Token.rename x y)))
  | st => st

mutual

/-- A statement in the scope of the name, with the name changed. -/
def rename : Stmt → Stmt
  | print e => print (e.respell (Token.rename x y))
  | expression e => expression (e.respell (Token.rename x y))
  | declare name init =>
    declare (name.rename x y) (init.map (Expr.respell (Token.rename x y)))
  | block body => block (renameFree body)

/-- The statements of a block within, with the name changed as far as that block does not declare it
itself. The initializer of that declaration is not in its scope. -/
def renameFree : List Stmt → List Stmt
  | [] => []
  | first :: rest =>
    if first.declared? = some x then first.renameInitializer x y :: rest
    else first.rename :: renameFree rest

end

/-- The statements of a block, with the name changed from its first declaration there on. The
initializer of that declaration is not in its scope. -/
def renameDeclared : List Stmt → List Stmt
  | [] => []
  | first :: rest =>
    if first.declared? = some x then first.renameName x y :: rest.map (rename x y)
    else first :: renameDeclared rest

end Stmt

/-- Frames of the block whose name is changed, once it is declared. -/
structure Frame.Renamed (f g : Frame) : Prop where
  declared : (f.get? x).isSome
  value : g.get? y = f.get? x
  others : ∀ name, name ≠ x → name ≠ y → g.get? name = f.get? name

/-- Frames of blocks within that declare neither name. -/
structure Frame.Apart (f g : Frame) : Prop where
  same : g = f
  old : f.get? x = none
  new : f.get? y = none

/-- Scopes within so many blocks in the one whose name is changed. -/
def Scope.Renamed : Nat → Scope → Scope → Prop :=
  Layered (Frame.Apart x y) (Around (Frame.Renamed x y) Eq)

variable {x y}

namespace Frame

variable {f g : Frame}

theorem Renamed.put_old (h : f.Renamed x y g) (v : Value) :
    (f.put x v).Renamed x y (g.put y v) := by
  constructor
  · simp [get?_put]
  · simp [get?_put]
  · intro name hx hy
    rw [get?_put, get?_put, if_neg hx.symm, if_neg hy.symm, h.others name hx hy]

theorem Renamed.put (h : f.Renamed x y g) {name : String} (hx : name ≠ x) (hy : name ≠ y)
    (v : Value) : (f.put name v).Renamed x y (g.put name v) := by
  constructor
  · rw [get?_put, if_neg hx]
    exact h.declared
  · rw [get?_put, get?_put, if_neg hx, if_neg hy, h.value]
  · intro m hmx hmy
    rw [get?_put, get?_put, h.others m hmx hmy]

theorem Apart.put (h : f.Apart x y g) {name : String} (hx : name ≠ x) (hy : name ≠ y)
    (v : Value) : (f.put name v).Apart x y (g.put name v) := by
  constructor
  · rw [h.same]
  · rw [get?_put, if_neg hx, h.old]
  · rw [get?_put, if_neg hy, h.new]

end Frame

namespace Scope

theorem matches_eq (name : String) : Matches Eq name name := by
  constructor
  · intro s t h
    rw [h]
  · intro s t v h
    rw [h]
    cases t.assign? name v with
    | none => exact .none
    | some u => exact .some rfl

theorem renamed_matches {name : String} (hx : name ≠ x) (hy : name ≠ y) (k : Nat) :
    Matches (Renamed x y k) name name := by
  apply Matches.layered
  · constructor
    · intro f g h
      rw [h.same]
    · intro f g v h _
      exact h.put hx hy v
  · apply Matches.around _ (matches_eq name)
    constructor
    · intro f g h
      exact h.others name hx hy
    · intro f g v h _
      exact h.put hx hy v

/-- What the old name stands for in the first scope, the new one stands for in the second. -/
theorem renamed_matches_old (k : Nat) : Matches (Renamed x y k) x y := by
  apply Matches.layered
  · constructor
    · intro f g h
      rw [h.same, h.old, h.new]
    · intro f g v h hb
      rw [h.old] at hb
      cases hb
  · apply Matches.around_of_bound
    · exact ⟨fun h => h.value, fun v h _ => h.put_old v⟩
    · exact fun h => h.declared

theorem Renamed.bound {k : Nat} {s t : Scope} (h : Renamed x y k s t) : (s.get? x).isSome := by
  induction k generalizing s t with
  | zero =>
    obtain ⟨f, g, s, t, rfl, rfl, hf, _⟩ := around_iff.mp h
    rw [get?, Option.isSome_or, hf.declared, Bool.true_or]
  | succ k ih =>
    obtain ⟨f, g, s, t, rfl, rfl, _, hs⟩ := around_iff.mp h
    rw [get?, Option.isSome_or, ih hs, Bool.or_true]

end Scope

theorem Token.renders_rename {name : Token} (hy : name.lexeme ≠ y) (k : Nat) :
    name.Renders (Scope.Renamed x y k) (name.rename x y) := by
  rw [rename]
  by_cases hx : name.lexeme = x
  · rw [if_pos hx]
    constructor
    · rw [hx]
      exact Scope.renamed_matches_old k
    · right
      intro s t h
      rw [hx]
      exact h.bound
  · rw [if_neg hx]
    exact ⟨Scope.renamed_matches hx hy k, .inl rfl⟩

theorem evaluate_rename {e : Expr} (hy : y ∉ Node.names e.postorder) {k : Nat} {s t : Scope}
    (hs : Scope.Renamed x y k s t) :
    (evaluate e s).Agrees (Scope.Renamed x y k) (evaluate (e.respell (Token.rename x y)) t) := by
  apply evaluate_respell _ hs
  intro n hn name hu
  apply Token.renders_rename
  rintro rfl
  exact hy (Node.mem_names_of_use hn hu)

/-- A name that is declared outside or deeper within is declared alike on both sides. -/
theorem Scope.Renamed.define {name : Token} (hy : name.lexeme ≠ y) {k : Nat}
    (hk : k = 0 ∨ name.lexeme ≠ x) {s t : Scope} (hs : Scope.Renamed x y k s t) (v : Value) :
    Scope.Renamed x y k (s.define name.lexeme v) (t.define (name.rename x y).lexeme v) := by
  rw [Token.rename]
  by_cases hx : name.lexeme = x
  · obtain rfl : k = 0 := hk.resolve_right fun h => h hx
    obtain ⟨f, g, s, t, rfl, rfl, hf, hs⟩ := around_iff.mp hs
    rw [if_pos hx, hx]
    exact ⟨hf.put_old v, hs⟩
  · rw [if_neg hx]
    cases k with
    | zero =>
      obtain ⟨f, g, s, t, rfl, rfl, hf, hs⟩ := around_iff.mp hs
      exact ⟨hf.put hx hy v, hs⟩
    | succ k =>
      obtain ⟨f, g, s, t, rfl, rfl, hf, hs⟩ := around_iff.mp hs
      exact ⟨hf.put hx hy v, hs⟩

/-- Scopes of a block within that has declared the old name for itself. -/
def Scope.Captured (x y : String) (k : Nat) : Scope → Scope → Prop :=
  Around (fun f g => g = f ∧ (f.get? x).isSome) (Renamed x y k)

/-- Once a block within has declared the old name itself, what is left of it needs no change. -/
theorem indistinct_captured {names : List String} (hy : y ∉ names) (k : Nat) :
    Indistinct names (fun f g => g = f) (Scope.Captured x y k) := by
  have hput {f g : Frame} (name : String) (v : Value) (h : g = f ∧ (f.get? x).isSome) :
      g.put name v = f.put name v ∧ ((f.put name v).get? x).isSome := by
    refine ⟨by rw [h.1], ?_⟩
    rw [f.get?_put]
    split
    · rfl
    · exact h.2
  constructor
  · rfl
  · intro name _ f g h
    rw [h]
  · intro name _ f g v h
    rw [h]
  · intro name hn
    have hf : Frame.Matches (fun f g => g = f ∧ (f.get? x).isSome) name name :=
      ⟨fun h => by rw [h.1], fun v h _ => hput name v h⟩
    by_cases hx : name = x
    · apply Scope.Matches.around_of_bound hf
      intro f g h
      rw [hx]
      exact h.2
    · apply Scope.Matches.around hf
      apply Scope.renamed_matches hx
      rintro rfl
      exact hy hn
  · intro name _ s t v h
    obtain ⟨f, g, s, t, rfl, rfl, hf, hs⟩ := Scope.around_iff.mp h
    exact ⟨hput name v hf, hs⟩

/-- A declaration by which a block within takes the old name for itself. -/
theorem execute_renameInitializer {st : Stmt} (hx : st.declared? = some x)
    (hy : y ∉ Node.names st.postorder) {k : Nat} {s t : Scope}
    (hs : Scope.Renamed x y (k + 1) s t) :
    (execute st s).Agrees (fun s t => Scope.Renamed x y k s.leave t.leave)
        (execute (st.renameInitializer x y) t) ∧
      ((execute st s).fault? = none →
        Scope.Captured x y k (execute st s).scope (execute (st.renameInitializer x y) t).scope) := by
  obtain ⟨name, init, rfl, rfl⟩ := Stmt.declared?_eq_some.mp hx
  have hdefine {s t : Scope} (hs : Scope.Renamed name.lexeme y (k + 1) s t) (v : Value) :
      Scope.Captured name.lexeme y k (s.define name.lexeme v) (t.define name.lexeme v) := by
    obtain ⟨f, g, s, t, rfl, rfl, hf, hs⟩ := Scope.around_iff.mp hs
    refine ⟨⟨by rw [hf.same], ?_⟩, hs⟩
    simp [f.get?_put]
  cases init with
  | none =>
    have hc := hdefine hs .nil
    exact ⟨⟨rfl, rfl, hc.leave⟩, fun _ => hc⟩
  | some e =>
    rw [Stmt.postorder, Node.notMem_names_append] at hy
    have he := evaluate_rename hy.1 hs
    rw [Stmt.renameInitializer, Option.map_some, execute, execute, Evaluation.execute,
      Evaluation.execute, he.result]
    split
    · have hc := hdefine he.scope
      exact ⟨⟨rfl, rfl, (hc _).leave⟩, fun _ => hc _⟩
    · exact ⟨⟨rfl, rfl, he.scope.leave⟩, fun h => by cases h⟩

/-- A statement that evaluates an expression and then does its own work. -/
theorem execute_respelled {e : Expr} {n : Node} (hy : y ∉ Node.names (e.postorder ++ [n]))
    {k : Nat} {s t : Scope} (hs : Scope.Renamed x y k s t) {next next' : Value → Scope → Execution}
    (hnext : ∀ v s t, Scope.Renamed x y k s t →
      (next v s).Agrees (Scope.Renamed x y k) (next' v t)) :
    ((evaluate e s).execute next).Agrees (Scope.Renamed x y k)
      ((evaluate (e.respell (Token.rename x y)) t).execute next') := by
  rw [Node.notMem_names_append] at hy
  have he := evaluate_rename hy.1 hs
  exact he.execute hnext fun _ _ h => h

mutual

/-- In the scope of the name a statement does the same with the name changed. -/
theorem execute_rename : (st : Stmt) → y ∉ Node.names st.postorder → {k : Nat} →
    k = 0 ∨ st.declared? ≠ some x → {s t : Scope} → Scope.Renamed x y k s t →
      (execute st s).Agrees (Scope.Renamed x y k) (execute (st.rename x y) t)
  | .print e, hy, _, _, _, _, hs => execute_respelled hy hs fun _ _ _ hs => ⟨rfl, rfl, hs⟩
  | .expression e, hy, _, _, _, _, hs => execute_respelled hy hs fun _ _ _ hs => ⟨rfl, rfl, hs⟩
  | .declare name init, hy, k, hk, s, t, hs => by
    have hname : name.lexeme ≠ y := by
      rintro rfl
      cases init with
      | none => exact hy (List.mem_singleton_self _)
      | some e =>
        rw [Stmt.postorder, Node.notMem_names_append] at hy
        exact hy.2 (List.mem_singleton_self _)
    have hkx : k = 0 ∨ name.lexeme ≠ x := hk.imp_right fun h he => h (congrArg some he)
    cases init with
    | none => exact ⟨rfl, rfl, hs.define hname hkx .nil⟩
    | some e =>
      rw [Stmt.rename, Option.map_some, execute, execute]
      apply execute_respelled hy hs
      intro v s t hs
      exact ⟨rfl, rfl, hs.define hname hkx v⟩
  | .block body, hy, k, _, s, t, hs => by
    rw [Stmt.postorder, Node.notMem_names_append] at hy
    have henter : Scope.Renamed x y (k + 1) s.enter t.enter := ⟨⟨rfl, rfl, rfl⟩, hs⟩
    have hb := executeAll_renameFree body hy.1 henter
    exact ⟨hb.output, hb.fault, hb.scope⟩

theorem executeAll_renameFree : (body : List Stmt) → y ∉ Node.names (Stmt.postorderAll body) →
    {k : Nat} → {s t : Scope} → Scope.Renamed x y (k + 1) s t →
      (executeAll body s).Agrees (fun s t => Scope.Renamed x y k s.leave t.leave)
        (executeAll (Stmt.renameFree x y body) t)
  | [], _, _, _, _, hs => ⟨rfl, rfl, hs.leave⟩
  | first :: rest, hy, k, s, t, hs => by
    rw [Stmt.postorderAll, Node.notMem_names_append] at hy
    obtain ⟨hfirst, hrest⟩ := hy
    rw [Stmt.renameFree]
    split
    · next hx =>
      -- from here on the block has a frame that binds the old name, and the rest stays as it is
      obtain ⟨ha, hc⟩ := execute_renameInitializer hx hfirst hs
      rw [executeAll, executeAll]
      apply ha.andThen
      · intro hf _
        have hr := (indistinct_captured hrest k).executeAll_agrees rest (List.Subset.refl _)
          (k := 0) (hc hf)
        exact hr.mono fun _ _ h => h.leave
      · exact fun _ _ h => h
    · next hx =>
      rw [executeAll, executeAll]
      apply (execute_rename first hfirst (.inr hx) hs).andThen
      · intro _ hs
        exact executeAll_renameFree rest hrest hs
      · exact fun _ _ h => h.leave

end

/-- What follows the declaration in the block itself. -/
theorem executeAll_map_rename {body : List Stmt} (hy : y ∉ Node.names (Stmt.postorderAll body))
    {s t : Scope} (hs : Scope.Renamed x y 0 s t) :
    (executeAll body s).Agrees (Scope.Renamed x y 0) (executeAll (body.map (Stmt.rename x y)) t) := by
  induction body generalizing s t with
  | nil => exact ⟨rfl, rfl, hs⟩
  | cons first rest ih =>
    rw [Stmt.postorderAll, Node.notMem_names_append] at hy
    rw [List.map_cons, executeAll, executeAll]
    apply (execute_rename first hy.1 (.inl rfl) hs).andThen
    · intro _ hs
      exact ih hy.2 hs
    · exact fun _ _ h => h

theorem Scope.exists_block {s : Scope} (h : 1 < s.depth) : ∃ f outer, s = .block f outer := by
  cases s with
  | globals f => exact absurd h (Nat.lt_irrefl 1)
  | block f outer => exact ⟨f, outer, rfl⟩

/-- The declaration from which the name is changed. Its initializer is evaluated as before. -/
theorem execute_renameName {st : Stmt} (hx : st.declared? = some x) {s : Scope} (hs : 1 < s.depth) :
    (execute st s).Agrees (fun s t => t.leave = s.leave) (execute (st.renameName x y) s) ∧
      ((execute st s).fault? = none →
        Scope.Renamed x y 0 (execute st s).scope (execute (st.renameName x y) s).scope) := by
  obtain ⟨name, init, rfl, rfl⟩ := Stmt.declared?_eq_some.mp hx
  have hname : (name.rename name.lexeme y).lexeme = y := by rw [Token.rename, if_pos rfl]; rfl
  have hdefine {s : Scope} (hs : 1 < s.depth) (v : Value) :
      Scope.Renamed name.lexeme y 0 (s.define name.lexeme v) (s.define y v) := by
    obtain ⟨f, outer, rfl⟩ := Scope.exists_block hs
    refine ⟨⟨?_, ?_, ?_⟩, rfl⟩
    · simp [Frame.get?_put]
    · simp [Frame.get?_put]
    · intro m hmx hmy
      rw [Frame.get?_put, Frame.get?_put, if_neg hmx.symm, if_neg hmy.symm]
  cases init with
  | none =>
    have hd := hdefine hs .nil
    rw [Stmt.renameName, execute, execute, hname]
    exact ⟨⟨rfl, rfl, hd.leave.symm⟩, fun _ => hd⟩
  | some e =>
    have he : 1 < (evaluate e s).scope.depth := by rwa [(evaluate_changesTo e s).depth]
    rw [Stmt.renameName, execute, execute, hname, Evaluation.execute, Evaluation.execute]
    split
    · have hd := hdefine he
      exact ⟨⟨rfl, rfl, (hd _).leave.symm⟩, fun _ => hd _⟩
    · exact ⟨⟨rfl, rfl, rfl⟩, fun h => by cases h⟩

theorem executeAll_renameDeclared {body : List Stmt}
    (hy : y ∉ Node.names (Stmt.postorderAll body)) {s : Scope} (hs : 1 < s.depth) :
    (executeAll body s).Agrees (fun s t => t.leave = s.leave)
      (executeAll (Stmt.renameDeclared x y body) s) := by
  induction body generalizing s with
  | nil => exact ⟨rfl, rfl, rfl⟩
  | cons first rest ih =>
    rw [Stmt.postorderAll, Node.notMem_names_append] at hy
    obtain ⟨_, hrest⟩ := hy
    rw [Stmt.renameDeclared]
    split
    · next hx =>
      -- a fault in the initializer leaves only what is around the block to compare
      obtain ⟨ha, hd⟩ := execute_renameName (y := y) hx hs
      rw [executeAll, executeAll]
      apply ha.andThen
      · intro hf _
        exact (executeAll_map_rename hrest (hd hf)).mono fun _ _ h => h.leave.symm
      · exact fun _ _ h => h
    · have hfirst : (execute first s).Agrees Eq (execute first s) := ⟨rfl, rfl, rfl⟩
      rw [executeAll, executeAll]
      apply hfirst.andThen
      · intro _ _
        apply ih hrest
        rwa [(execute_changesTo first s).depth]
      · rintro _ _ rfl
        rfl

/-- A block prints the same lines, ends at the same fault or at none and leaves the same scope with
the name that it declares changed to one that does not occur in it. -/
theorem execute_block_renameDeclared (x y : String) (body : List Stmt)
    (hy : y ∉ Node.names (Stmt.postorderAll body)) (s : Scope) :
    execute (.block (Stmt.renameDeclared x y body)) s = execute (.block body) s := by
  have hs : 1 < s.enter.depth := Nat.succ_lt_succ s.depth_pos
  have ha := executeAll_renameDeclared (x := x) hy hs
  rw [execute, execute, ha.output, ha.fault, ha.scope]

/-- The local name is changed where it is declared and in the block within, but not in its own
initializer, nor from where the block within declares it, though both names are bound outside. -/
theorem execute_block_renameDeclared_captured :
    "b" ∉ Node.names (Stmt.postorderAll [
      .declare (.ofName "a" 1) (some (.var (.ofName "a" 1))),
      .block [.expression (.assign (.ofName "a" 2) (.literal .nil)),
        .declare (.ofName "a" 3) (some (.var (.ofName "a" 3))),
        .expression (.assign (.ofName "a" 4) (.literal (.boolean true)))],
      .print (.var (.ofName "a" 5))]) ∧
    execute (.block [
        .declare (.ofName "a" 1) (some (.var (.ofName "a" 1))),
        .block [.expression (.assign (.ofName "a" 2) (.literal .nil)),
          .declare (.ofName "a" 3) (some (.var (.ofName "a" 3))),
          .expression (.assign (.ofName "a" 4) (.literal (.boolean true)))],
        .print (.var (.ofName "a" 5))])
      (.globals [("a", .string "outer"), ("b", .boolean false)]) =
    execute (.block [
        .declare (.ofName "b" 1) (some (.var (.ofName "a" 1))),
        .block [.expression (.assign (.ofName "b" 2) (.literal .nil)),
          .declare (.ofName "a" 3) (some (.var (.ofName "b" 3))),
          .expression (.assign (.ofName "a" 4) (.literal (.boolean true)))],
        .print (.var (.ofName "b" 5))])
      (.globals [("a", .string "outer"), ("b", .boolean false)]) :=
  ⟨by decide, (execute_block_renameDeclared "a" "b" _ (by decide) _).symm⟩

end SmallScript
