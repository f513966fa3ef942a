import SmallScript.Proofs.Frames

/-!
The names that each frame of a scope binds, which only a declaration in it can change.
-/
namespace SmallScript

/-- The frame binds this name. -/
def Frame.binds (f : Frame) (name : String) : Bool := (f.get? name).isSome

theorem Frame.mem_names_iff {f : Frame} {name : String} : name ∈ f.names ↔ f.binds name := by
  induction f with
  | nil => simp [names, binds]
  | cons b rest ih =>
    obtain ⟨n, v⟩ := b
    have hn : Frame.names ((n, v) :: rest) = n :: Frame.names rest := rfl
    rw [hn, List.mem_cons, ih, binds, binds, get?]
    by_cases h : n = name
    · simp [h]
    · simp [h, Ne.symm h]

namespace Scope

/-- The names that a scope binds, from the innermost frame out. -/
def names : Scope → List String
  | globals f => f.names
  | block f outer => f.names ++ outer.names

/-- What each frame binds, from the innermost out. -/
def layers : Scope → List (String → Bool)
  | globals f => [f.binds]
  | block f outer => f.binds :: outer.layers

theorem any_layers (s : Scope) (name : String) :
    (s.layers.any fun binds => binds name) = (s.get? name).isSome := by
  induction s with
  | globals f => simp [layers, get?, Frame.binds]
  | block f outer ih =>
    rw [layers, List.any_cons, ih, get?, Frame.binds, Option.isSome_or]

theorem mem_names_iff {s : Scope} {name : String} : name ∈ s.names ↔ (s.get? name).isSome := by
  induction s with
  | globals f => exact Frame.mem_names_iff
  | block f outer ih =>
    rw [names, List.mem_append, ih, Frame.mem_names_iff, Frame.binds, get?, Option.isSome_or,
      Bool.or_eq_true]

/-- Scopes with the same layers bind the same names. -/
theorem isSome_get?_of_layers {s t : Scope} (h : s.layers = t.layers) (name : String) :
    (s.get? name).isSome = (t.get? name).isSome := by
  rw [← any_layers, ← any_layers, h]

/-- Where nothing is declared in the innermost frame, every frame binds what it bound before. -/
theorem ChangesTo.layers {assigned : List String} {s t : Scope} (h : ChangesTo assigned [] s t) :
    t.layers = s.layers := by
  have hbinds (i : Nat) (name : String) :
      (t.valueIn i name).isSome = (s.valueIn i name).isSome := by
    apply Bool.eq_iff_iff.mpr
    constructor
    · intro ht
      exact (h.gained i name ht).resolve_right fun hd => List.not_mem_nil hd.2
    · exact h.kept i name
  have hdepth := h.depth
  clear h
  induction s generalizing t with
  | globals f =>
    cases t with
    | globals g => exact congrArg (fun b => [b]) (funext (hbinds 0))
    | block g outer =>
      have := outer.depth_pos
      simp only [Scope.depth] at hdepth
      omega
  | block f outer ih =>
    cases t with
    | globals g =>
      have := outer.depth_pos
      simp only [Scope.depth] at hdepth
      omega
    | block g outer' =>
      have ho := ih (fun i => hbinds (i + 1)) (Nat.succ_inj.mp hdepth)
      rw [Scope.layers, Scope.layers, ho]
      exact congrArg (fun b => b :: outer.layers) (funext (hbinds 0))

end Scope

theorem evaluate_layers (e : Expr) (s : Scope) : (evaluate e s).scope.layers = s.layers :=
  (evaluate_changesTo e s).layers

/-- A block is left with the layers with which it was entered. -/
theorem execute_block_layers (body : List Stmt) (s : Scope) :
    (execute (.block body) s).scope.layers = s.layers :=
  (execute_changesTo (.block body) s).layers

end SmallScript
