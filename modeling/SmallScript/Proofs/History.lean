import SmallScript.Proofs.Frames
import SmallScript.Proofs.History.Lives

/-!
The scope that a history of actions leads to holds in each frame what the history says of it. So the
answer to every look-up and assignment can be read off the history.
-/
namespace SmallScript.Scope

/-- The scope that actions lead to from the empty one. -/
def outcome (h : List Action) : Scope := h.foldl (fun s a => (a.perform s).scope) empty

/-- The scope holds in each frame what the history says of it. -/
structure Recalls (h : List Action) (s : Scope) : Prop where
  depth : s.depth = (frames h).length
  value : ∀ i life, (frames h)[i]? = some life → ∀ name v,
    s.valueIn i name = some v ↔ LatestWrite name life v

namespace Recalls

variable {h life : List Action} {s t : Scope} {a : Action} {name : String} {v : Value} {i : Nat}

theorem lt_length (hr : Recalls h s) (hv : (s.valueIn i name).isSome) : i < (frames h).length := by
  rw [← hr.depth]
  exact lt_depth_of_valueIn hv

theorem isSome_iff (hr : Recalls h s) (hl : (frames h)[i]? = some life) :
    (s.valueIn i name).isSome ↔ Defines name life := by
  rw [defines_iff, Option.isSome_iff_exists]
  exact exists_congr (hr.value i life hl name)

theorem eq_none_iff (hr : Recalls h s) (hl : (frames h)[i]? = some life) :
    s.valueIn i name = none ↔ ¬ Defines name life := by
  rw [← hr.isSome_iff hl, Option.not_isSome_iff_eq_none]

/-- No frame further in has the name. -/
theorem inner_eq_none_iff (hr : Recalls h s) (hi : i ≤ (frames h).length) :
    (∀ j < i, s.valueIn j name = none) ↔ ∀ inner ∈ (frames h).take i, ¬ Defines name inner := by
  constructor
  · intro hj inner hm
    obtain ⟨j, hlt, rfl⟩ := List.mem_take_iff_getElem.mp hm
    have hl := List.getElem?_eq_getElem (l := frames h) (i := j) (by omega)
    exact (hr.eq_none_iff hl).mp (hj j (by omega))
  · intro hn j hj
    have hl := List.getElem?_eq_getElem (l := frames h) (i := j) (by omega)
    exact (hr.eq_none_iff hl).mpr (hn _ (List.mem_take_iff_getElem.mpr ⟨j, by omega, rfl⟩))

theorem empty : Recalls [] Scope.empty := by
  constructor
  · rfl
  · intro i life hl name v
    cases i with
    | zero =>
      cases hl
      exact ⟨fun hv => (by cases hv), fun hv => absurd hv not_latestWrite_nil⟩
    | succ i => cases hl

/-- An action that neither enters nor leaves a block. In each frame it writes to a name, which has that
value then, or it does not, and the name keeps its value. -/
theorem append (hr : Recalls h s) (hf : frames (h ++ [a]) = (frames h).map (· ++ [a]))
    (hd : t.depth = s.depth)
    (hv : ∀ i life, (frames h)[i]? = some life → ∀ name,
      (∃ w, t.valueIn i name = some w ∧ ∀ w', Writes name life a w' ↔ w = w') ∨
      (t.valueIn i name = s.valueIn i name ∧ ∀ w, ¬ Writes name life a w)) :
    Recalls (h ++ [a]) t := by
  constructor
  · rw [hd, hr.depth, hf, List.length_map]
  · intro i life' hl name v
    rw [hf, List.getElem?_map, Option.map_eq_some_iff] at hl
    obtain ⟨life, hl, rfl⟩ := hl
    obtain ⟨w, hw, hwrites⟩ | ⟨hkeeps, hno⟩ := hv i life hl name
    · rw [hw, latestWrite_concat, Option.some_inj, hwrites]
      exact ⟨.inl, fun h' => h'.elim id fun h' => absurd ((hwrites w).mpr rfl) (h'.1 w)⟩
    · rw [hkeeps, latestWrite_concat_of_not hno]
      exact hr.value i life hl name v

theorem enter (hr : Recalls h s) : Recalls (h ++ [.enter]) s.enter := by
  have hf : frames (h ++ [.enter]) = [] :: (frames h).map (· ++ [.enter]) := by
    simp [frames, openBlocks_enter]
  constructor
  · rw [depth_enter, hr.depth, hf, List.length_cons, List.length_map]
  · intro i life' hl name v
    rw [hf] at hl
    cases i with
    | zero =>
      cases hl
      exact ⟨fun hv => (by cases hv), fun hv => absurd hv not_latestWrite_nil⟩
    | succ i =>
      rw [List.getElem?_cons_succ, List.getElem?_map, Option.map_eq_some_iff] at hl
      obtain ⟨life, hl, rfl⟩ := hl
      rw [latestWrite_concat_of_not fun w => id]
      exact hr.value i life hl name v

theorem leave (hr : Recalls h s) : Recalls (h ++ [.leave]) s.leave := by
  have hd : s.depth = (openBlocks h).length + 1 := by
    rw [hr.depth, frames, List.length_append, List.length_singleton]
  by_cases ho : openBlocks h = []
  · have hs : s.depth = 1 := by rw [hd, ho]; rfl
    rw [leave_of_depth hs]
    refine hr.append ?_ rfl fun i life _ name => .inr ⟨rfl, fun w => id⟩
    simp [frames, openBlocks_leave, ho]
  · have hs : s.depth ≠ 1 := by
      have := List.length_pos_of_ne_nil ho
      omega
    have hf : frames (h ++ [.leave]) = (frames h).tail.map (· ++ [.leave]) := by
      simp [frames, openBlocks_leave, List.tail_append_of_ne_nil ho]
    constructor
    · have := depth_leave hs
      rw [hf, List.length_map, List.length_tail, ← hr.depth]
      omega
    · intro i life' hl name v
      rw [hf, List.getElem?_map, List.getElem?_tail, Option.map_eq_some_iff] at hl
      obtain ⟨life, hl, rfl⟩ := hl
      rw [valueIn_leave hs, latestWrite_concat_of_not fun w => id]
      exact hr.value (i + 1) life hl name v

theorem define (hr : Recalls h s) (m : String) (w : Value) :
    Recalls (h ++ [.define m w]) (s.define m w) := by
  refine hr.append ?_ (depth_define m w s) ?_
  · simp [frames, openBlocks_append]
  · intro i life hl name
    have hi : openBlocks life = [] ↔ i = 0 := by
      rw [frames_getElem? hl, List.take_eq_nil_iff]
      simp [frames]
    rw [valueIn_define]
    simp only [Writes, hi]
    by_cases hc : i = 0 ∧ m = name
    · exact .inl ⟨w, if_pos hc, fun w' => ⟨fun h' => h'.2.2, fun h' => ⟨hc.1, hc.2, h'⟩⟩⟩
    · exact .inr ⟨if_neg hc, fun w' h' => hc ⟨h'.1, h'.2.1⟩⟩

/-- An action that fails, or only looks. -/
theorem idle (hr : Recalls h s) (he : a ≠ .enter) (hl : a ≠ .leave)
    (hno : ∀ life ∈ frames h, ∀ name w, ¬ Writes name life a w) : Recalls (h ++ [a]) s := by
  refine hr.append ?_ rfl ?_
  · simp [frames, openBlocks_append h he hl]
  · intro i life hlife name
    exact .inr ⟨rfl, hno life (List.mem_of_getElem? hlife) name⟩

theorem assign (hr : Recalls h s) (m : Token) (w : Value) :
    Recalls (h ++ [.assign m w]) ((Action.assign m w).perform s).scope := by
  have writes_iff {i : Nat} {life : List Action} (hl : (frames h)[i]? = some life) (name : String)
      (w' : Value) : Writes name life (.assign m w) w' ↔ m.lexeme = name ∧ w = w' ∧
        (s.valueIn i name).isSome ∧ ∀ j < i, s.valueIn j name = none := by
    have hi := (List.getElem?_eq_some_iff.mp hl).1
    rw [hr.isSome_iff hl, hr.inner_eq_none_iff (Nat.le_of_lt hi), ← frames_getElem? hl, Writes]
  rw [Action.perform, Scope.assign]
  cases ht : s.assign? m.lexeme w with
  | none =>
    refine hr.idle (by simp) (by simp) ?_
    intro life hlife name w' hw
    obtain ⟨i, hl⟩ := List.mem_iff_getElem?.mp hlife
    obtain ⟨rfl, _, hsome, hlt⟩ := (writes_iff hl name w').mp hw
    obtain ⟨u, hu⟩ := Option.isSome_iff_exists.mp hsome
    have hget := get?_eq_some_iff.mpr ⟨i, hu, hlt⟩
    have hbound := assign?_isSome m.lexeme w s
    rw [ht, hget] at hbound
    cases hbound
  | some t =>
    obtain ⟨hd, i, hsome, hlt, hv⟩ := assign?_innermost ht
    refine hr.append ?_ hd ?_
    · simp [frames, openBlocks_append]
    · intro j life hl name
      simp only [hv, writes_iff hl]
      by_cases hc : j = i ∧ name = m.lexeme
      · obtain ⟨rfl, rfl⟩ := hc
        exact .inl ⟨w, by simp, fun w' => ⟨fun h' => h'.2.1, fun h' => ⟨rfl, h', hsome, hlt⟩⟩⟩
      · refine .inr ⟨if_neg hc, ?_⟩
        rintro w' ⟨rfl, _, hj, hjlt⟩
        -- two frames cannot both be the innermost that has the name
        obtain hij | rfl | hij := Nat.lt_trichotomy i j
        · rw [hjlt i hij] at hsome
          cases hsome
        · exact hc ⟨rfl, rfl⟩
        · rw [hlt j hij] at hj
          cases hj

theorem perform (hr : Recalls h s) (a : Action) : Recalls (h ++ [a]) (a.perform s).scope := by
  cases a with
  | enter => exact hr.enter
  | leave => exact hr.leave
  | define m w => exact hr.define m w
  | lookup m => exact hr.idle (by simp) (by simp) fun _ _ _ _ => id
  | assign m w => exact hr.assign m w

end Recalls

theorem recalls_outcome (h : List Action) : Recalls h (outcome h) := by
  induction h using List.reverseRecOn with
  | nil => exact .empty
  | append_singleton h a ih =>
    rw [outcome, List.foldl_append]
    exact ih.perform a

theorem performAll_getElem? (s : Scope) (h : List Action) (a : Action) (rest : List Action) :
    (Action.performAll s (h ++ a :: rest))[h.length]? =
      some (a.perform (h.foldl (fun s a => (a.perform s).scope) s)) := by
  induction h generalizing s with
  | nil => rfl
  | cons b h ih => exact ih (b.perform s).scope

/-- A name has the latest value written to it in the innermost frame that has it. -/
theorem Recalls.get?_eq_some_iff {h : List Action} {s : Scope} {name : String} {v : Value}
    (hr : Recalls h s) : s.get? name = some v ↔
      ∃ inner life outer, frames h = inner ++ life :: outer ∧ (∀ f ∈ inner, ¬ Defines name f) ∧
        Defines name life ∧ LatestWrite name life v := by
  rw [Scope.get?_eq_some_iff]
  constructor
  · rintro ⟨i, hi, hlt⟩
    have hlength := hr.lt_length (by rw [hi]; rfl)
    have hl := List.getElem?_eq_getElem hlength
    refine ⟨(frames h).take i, (frames h)[i], (frames h).drop (i + 1), ?_,
      (hr.inner_eq_none_iff (Nat.le_of_lt hlength)).mp hlt, ?_, (hr.value i _ hl name v).mp hi⟩
    · rw [← List.drop_eq_getElem_cons, List.take_append_drop]
    · rw [← hr.isSome_iff hl, hi]
      rfl
  · rintro ⟨inner, life, outer, hf, hn, _, hw⟩
    have hl : (frames h)[inner.length]? = some life := by simp [hf]
    refine ⟨inner.length, (hr.value _ life hl name v).mpr hw, ?_⟩
    rw [hr.inner_eq_none_iff (by simp [hf]), hf, List.take_left]
    exact hn

theorem Recalls.isSome_get?_iff {h : List Action} {s : Scope} {name : String} (hr : Recalls h s) :
    (s.get? name).isSome ↔ ∃ life ∈ frames h, Defines name life := by
  rw [Scope.isSome_get?_iff]
  constructor
  · rintro ⟨i, hi⟩
    have hlength := hr.lt_length hi
    have hl := List.getElem?_eq_getElem hlength
    exact ⟨_, List.getElem_mem hlength, (hr.isSome_iff hl).mp hi⟩
  · rintro ⟨life, hm, hd⟩
    obtain ⟨i, hl⟩ := List.mem_iff_getElem?.mp hm
    exact ⟨i, (hr.isSome_iff hl).mpr hd⟩

theorem perform_lookup (name : Token) (s : Scope) : (Action.lookup name).perform s =
    ⟨match s.get? name.lexeme with
      | some v => .ok (some v)
      | none => .error (.undefined name), s⟩ := by
  rw [Action.perform, lookup]
  cases s.get? name.lexeme <;> rfl

theorem perform_assign (name : Token) (v : Value) (s : Scope) : (Action.assign name v).perform s =
    match s.assign? name.lexeme v with
    | some t => ⟨.ok none, t⟩
    | none => ⟨.error (.undefined name), s⟩ := by
  rw [Action.perform, assign]
  cases s.assign? name.lexeme v <;> rfl

/-- What a history of actions says. There is a frame for the globals and one for each block that is
still open; where only the globals are left, leaving changes nothing. A name is found if some open frame
has it, with the latest value written to it in the innermost such frame. Otherwise both looking it up
and assigning to it fail, for that name, and leave the scope as it was. An assignment that succeeds
changes this name in this frame and nothing else. -/
theorem outcome_of_history (h : List Action) :
    (outcome h).depth = 1 + (openBlocks h).length ∧
    ((outcome h).depth = 1 → (outcome h).leave = outcome h) ∧
    (∀ a rest, (Action.performAll empty (h ++ a :: rest))[h.length]? =
      some (a.perform (outcome h))) ∧
    ∀ name : Token,
      (∀ v, (Action.lookup name).perform (outcome h) = ⟨.ok (some v), outcome h⟩ ↔
        ∃ inner life outer, frames h = inner ++ life :: outer ∧
          (∀ f ∈ inner, ¬ Defines name.lexeme f) ∧ Defines name.lexeme life ∧
          LatestWrite name.lexeme life v) ∧
      ((∃ v, (Action.lookup name).perform (outcome h) = ⟨.ok (some v), outcome h⟩) ↔
        ∃ life ∈ frames h, Defines name.lexeme life) ∧
      ((Action.lookup name).perform (outcome h) = ⟨.error (.undefined name), outcome h⟩ ↔
        ¬ ∃ life ∈ frames h, Defines name.lexeme life) ∧
      ∀ v,
        ((Action.assign name v).perform (outcome h) = ⟨.error (.undefined name), outcome h⟩ ↔
          ¬ ∃ life ∈ frames h, Defines name.lexeme life) ∧
        ((∃ life ∈ frames h, Defines name.lexeme life) →
          ∃ t, (Action.assign name v).perform (outcome h) = ⟨.ok none, t⟩ ∧
            t.depth = (outcome h).depth ∧ ∃ i, ((outcome h).valueIn i name.lexeme).isSome ∧
              (∀ j < i, (outcome h).valueIn j name.lexeme = none) ∧
              ∀ j m, t.valueIn j m =
                if j = i ∧ m = name.lexeme then some v else (outcome h).valueIn j m) := by
  have hr := recalls_outcome h
  refine ⟨?_, leave_of_depth, performAll_getElem? empty h, ?_⟩
  · rw [hr.depth, frames, List.length_append, List.length_singleton, Nat.add_comm]
  · intro name
    have hsome : ((outcome h).get? name.lexeme).isSome ↔
        ∃ life ∈ frames h, Defines name.lexeme life := hr.isSome_get?_iff
    refine ⟨?_, ?_, ?_, ?_⟩
    · intro v
      rw [perform_lookup, ← hr.get?_eq_some_iff]
      cases (outcome h).get? name.lexeme <;> simp
    · rw [perform_lookup, ← hsome]
      cases (outcome h).get? name.lexeme <;> simp
    · rw [perform_lookup, ← hsome]
      cases (outcome h).get? name.lexeme <;> simp
    · intro v
      rw [perform_assign, ← hsome, ← assign?_isSome name.lexeme v]
      cases ht : (outcome h).assign? name.lexeme v with
      | none => exact ⟨by simp, fun hc => by cases hc⟩
      | some t => exact ⟨by simp, fun _ => ⟨t, rfl, assign?_innermost ht⟩⟩

end SmallScript.Scope
