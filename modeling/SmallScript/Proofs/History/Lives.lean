import Mathlib.Data.List.Infix
import SmallScript.Scope.Action

/-!
Histories of actions read without a scope: which blocks are still open, the life of each frame since
it came to be, and what was last written to a name in it.
-/
namespace SmallScript.Scope

/-- None of these actions leaves a block that was entered before all of them. -/
def StaysOpen (later : List Action) : Prop :=
  ∀ p ∈ later.inits, p.count .leave ≤ p.count .enter

instance decidableStaysOpen (later : List Action) : Decidable (StaysOpen later) :=
  inferInstanceAs (Decidable (∀ p ∈ later.inits, p.count .leave ≤ p.count .enter))

/-- The blocks that were entered in a history and are still open, the innermost first. Each is given by
its life, the actions since it was entered. -/
def openBlocks : List Action → List (List Action)
  | [] => []
  | a :: later =>
    if a = .enter ∧ StaysOpen later then openBlocks later ++ [later] else openBlocks later

/-- The lives of all open frames, the innermost first. The globals live from the beginning. -/
def frames (h : List Action) : List (List Action) := openBlocks h ++ [h]

/-- The name was defined at a time of this life when no block within was open. -/
def Defines (name : String) (life : List Action) : Prop :=
  ∃ past v rest, life = past ++ .define name v :: rest ∧ openBlocks past = []

/-- After this life so far, an action writes to a name in the frame: the name is defined while the frame
is innermost, or assigned to while the frame is the innermost one that has it. -/
def Writes (name : String) (past : List Action) : Action → Value → Prop
  | .define m v, w => openBlocks past = [] ∧ m = name ∧ v = w
  | .assign m v, w =>
    m.lexeme = name ∧ v = w ∧ Defines name past ∧ ∀ inner ∈ openBlocks past, ¬ Defines name inner
  | .enter, _ | .leave, _ | .lookup _, _ => False

/-- The last of the writes to a name in a frame with this life gave it this value. -/
def LatestWrite (name : String) (life : List Action) (v : Value) : Prop :=
  ∃ past a rest, life = past ++ a :: rest ∧ Writes name past a v ∧
    ∀ between b rest' w, rest = between ++ b :: rest' → ¬ Writes name (past ++ a :: between) b w

/-- How many blocks these actions leave that none of them entered. -/
def strayLeaves : List Action → Nat
  | [] => 0
  | .enter :: later => strayLeaves later - 1
  | .leave :: later => strayLeaves later + 1
  | .define _ _ :: later | .lookup _ :: later | .assign _ _ :: later => strayLeaves later

section Blocks

variable {h later life past rest : List Action} {a : Action} {i : Nat}

theorem strayLeaves_le_iff {n : Nat} :
    strayLeaves later ≤ n ↔ ∀ p, p <+: later → p.count .leave ≤ p.count .enter + n := by
  have step (a : Action) (later : List Action) (n : Nat) :
      (∀ p, p <+: a :: later → p.count .leave ≤ p.count .enter + n) ↔
        ∀ p, p <+: later → (a :: p).count .leave ≤ (a :: p).count .enter + n := by
    constructor
    · exact fun hp p h => hp _ (List.cons_prefix_cons.mpr ⟨rfl, h⟩)
    · intro hp p h
      obtain rfl | ⟨q, rfl, hq⟩ := List.prefix_cons_iff.mp h
      · exact Nat.zero_le _
      · exact hp q hq
  induction later generalizing n with
  | nil => simp [strayLeaves]
  | cons a later ih =>
    rw [step]
    cases a with
    | enter =>
      rw [strayLeaves]
      refine Nat.sub_le_iff_le_add.trans (ih.trans ?_)
      simp [Nat.add_assoc, Nat.add_comm 1]
    | leave =>
      rw [strayLeaves]
      cases n with
      | zero =>
        constructor
        · intro h
          cases h
        · intro hp
          simpa using hp [] (List.nil_prefix)
      | succ n =>
        refine Nat.add_le_add_iff_right.trans (ih.trans ?_)
        simp [← Nat.add_assoc]
    | define | lookup | assign => simpa [strayLeaves] using ih

theorem staysOpen_iff : StaysOpen later ↔ strayLeaves later = 0 := by
  rw [← Nat.le_zero, strayLeaves_le_iff]
  simp [StaysOpen]

theorem strayLeaves_append (ha : a ≠ .leave) :
    strayLeaves (later ++ [a]) = strayLeaves later := by
  induction later with
  | nil => cases a <;> first | rfl | contradiction
  | cons b later ih => cases b <;> simp [strayLeaves, ih]

/-- A block that is left is the innermost open one; one from before is left only if there is none. -/
theorem openBlocks_leave (h : List Action) :
    openBlocks (h ++ [.leave]) = (openBlocks h).tail.map (· ++ [.leave]) ∧
      strayLeaves (h ++ [.leave]) =
        if openBlocks h = [] then strayLeaves h + 1 else strayLeaves h := by
  induction h with
  | nil => simp [openBlocks, strayLeaves]
  | cons b later ih =>
    obtain ⟨hb, hs⟩ := ih
    rw [List.cons_append, openBlocks, openBlocks, hb]
    simp only [staysOpen_iff, hs]
    cases b with
    | enter =>
      simp only [strayLeaves, hs]
      by_cases ho : openBlocks later = []
      · by_cases hz : strayLeaves later = 0
        · simp [ho, hz]
        · simp [ho, hz]
          omega
      · by_cases hz : strayLeaves later = 0
        · simp [ho, hz, List.tail_append_of_ne_nil]
        · simp [ho, hz]
    | leave | define | lookup | assign =>
      simp only [strayLeaves, hs]
      by_cases ho : openBlocks later = [] <;> simp [ho]

theorem openBlocks_enter (h : List Action) :
    openBlocks (h ++ [.enter]) = [] :: (openBlocks h).map (· ++ [.enter]) := by
  induction h with
  | nil => decide
  | cons b later ih =>
    have hs : strayLeaves (later ++ [.enter]) = strayLeaves later := strayLeaves_append (by decide)
    rw [List.cons_append, openBlocks, openBlocks, ih]
    simp only [staysOpen_iff, hs]
    split <;> simp

theorem openBlocks_append (h : List Action) (he : a ≠ .enter) (hl : a ≠ .leave) :
    openBlocks (h ++ [a]) = (openBlocks h).map (· ++ [a]) := by
  induction h with
  | nil => simp [openBlocks, he]
  | cons b later ih =>
    rw [List.cons_append, openBlocks, openBlocks, ih]
    simp only [staysOpen_iff, strayLeaves_append hl]
    split <;> simp

/-- Within the life of a frame those blocks are open that are open further in. -/
theorem openBlocks_eq_take (hb : ∀ {i life}, (openBlocks h)[i]? = some life →
    openBlocks life = (openBlocks h).take i) (hl : (frames h)[i]? = some life) :
    openBlocks life = (frames h).take i := by
  rw [frames] at hl ⊢
  by_cases hi : i < (openBlocks h).length
  · rw [List.getElem?_append_left hi] at hl
    rw [hb hl, List.take_append_of_le_length (Nat.le_of_lt hi)]
  · rw [List.getElem?_append_right (Nat.le_of_not_lt hi), List.getElem?_singleton] at hl
    split at hl
    · have he : i = (openBlocks h).length := by omega
      cases hl
      rw [he, List.take_left]
    · cases hl

theorem openBlocks_getElem? (hl : (openBlocks h)[i]? = some life) :
    openBlocks life = (openBlocks h).take i := by
  induction h generalizing i life with
  | nil => cases hl
  | cons b later ih =>
    rw [openBlocks] at hl ⊢
    split
    · next hb =>
      rw [if_pos hb] at hl
      exact openBlocks_eq_take ih hl
    · next hb =>
      rw [if_neg hb] at hl
      exact ih hl

theorem frames_getElem? (hl : (frames h)[i]? = some life) :
    openBlocks life = (frames h).take i :=
  openBlocks_eq_take openBlocks_getElem? hl

end Blocks

section Writing

variable {name : String} {life past rest : List Action} {a b : Action} {v : Value}

/-- A life that goes on for one more action is split there or before. -/
theorem concat_eq_split : life ++ [a] = past ++ b :: rest ↔
    (past = life ∧ b = a ∧ rest = []) ∨ ∃ rest', rest = rest' ++ [a] ∧ life = past ++ b :: rest' := by
  obtain rfl | ⟨rest', c, rfl⟩ := List.eq_nil_or_concat' rest
  · rw [List.append_singleton_inj]
    constructor
    · rintro ⟨rfl, rfl⟩
      exact .inl ⟨rfl, rfl, rfl⟩
    · rintro (⟨rfl, rfl, _⟩ | ⟨r, hr, _⟩)
      · exact ⟨rfl, rfl⟩
      · simp at hr
  · rw [← List.cons_append, ← List.append_assoc, List.append_singleton_inj]
    constructor
    · rintro ⟨hl, rfl⟩
      exact .inr ⟨rest', rfl, hl⟩
    · rintro (⟨_, _, hr⟩ | ⟨r, hr, hl⟩)
      · simp at hr
      · obtain ⟨rfl, rfl⟩ := List.append_singleton_inj.mp hr
        exact ⟨hl, rfl⟩

theorem defines_concat : Defines name (life ++ [a]) ↔
    Defines name life ∨ (openBlocks life = [] ∧ ∃ v, a = .define name v) := by
  constructor
  · rintro ⟨past, v, rest, hs, ho⟩
    obtain ⟨rfl, rfl, _⟩ | ⟨rest', rfl, rfl⟩ := concat_eq_split.mp hs
    · exact .inr ⟨ho, v, rfl⟩
    · exact .inl ⟨past, v, rest', rfl, ho⟩
  · rintro (⟨past, v, rest, rfl, ho⟩ | ⟨ho, v, rfl⟩)
    · exact ⟨past, v, rest ++ [a], by simp, ho⟩
    · exact ⟨life, v, [], rfl, ho⟩

theorem latestWrite_concat : LatestWrite name (life ++ [a]) v ↔
    Writes name life a v ∨ ((∀ w, ¬ Writes name life a w) ∧ LatestWrite name life v) := by
  constructor
  · rintro ⟨past, b, rest, hs, hw, hlast⟩
    obtain ⟨rfl, rfl, _⟩ | ⟨rest', rfl, rfl⟩ := concat_eq_split.mp hs
    · exact .inl hw
    · refine .inr ⟨fun w => hlast rest' a [] w rfl, past, b, rest', rfl, hw, ?_⟩
      rintro between c rest w rfl
      exact hlast between c (rest ++ [a]) w (by simp)
  · rintro (hw | ⟨hno, past, b, rest, rfl, hw, hlast⟩)
    · refine ⟨life, a, [], rfl, hw, ?_⟩
      intro between c rest w hs
      simp at hs
    · refine ⟨past, b, rest ++ [a], by simp, hw, ?_⟩
      intro between c rest' w hs
      obtain ⟨rfl, rfl, _⟩ | ⟨rest'', rfl, rfl⟩ := concat_eq_split.mp hs
      · exact hno w
      · exact hlast between c rest'' w rfl

/-- An action that does not write to a name leaves the latest write to it. -/
theorem latestWrite_concat_of_not (h : ∀ w, ¬ Writes name life a w) :
    LatestWrite name (life ++ [a]) v ↔ LatestWrite name life v := by
  rw [latestWrite_concat]
  exact ⟨fun h' => h'.elim (absurd · (h v)) And.right, fun h' => .inr ⟨h, h'⟩⟩

theorem not_latestWrite_nil : ¬ LatestWrite name [] v := by
  rintro ⟨past, a, rest, hs, _⟩
  simp at hs

/-- A name that a frame has was written to there, and only names that it has are written to. -/
theorem defines_iff : Defines name life ↔ ∃ v, LatestWrite name life v := by
  induction life using List.reverseRecOn with
  | nil =>
    constructor
    · rintro ⟨past, v, rest, hs, _⟩
      simp at hs
    · rintro ⟨v, hv⟩
      exact absurd hv not_latestWrite_nil
  | append_singleton life a ih =>
    simp only [defines_concat, latestWrite_concat]
    by_cases hw : ∃ w, Writes name life a w
    · obtain ⟨w, hw⟩ := hw
      refine ⟨fun _ => ⟨w, .inl hw⟩, fun _ => ?_⟩
      cases a with
      | define m v =>
        obtain ⟨ho, rfl, _⟩ := hw
        exact .inr ⟨ho, v, rfl⟩
      | assign m v => exact .inl hw.2.2.1
      | enter | leave | lookup => exact absurd hw id
    · have hno := not_exists.mp hw
      have hd : ¬ (openBlocks life = [] ∧ ∃ v, a = .define name v) := by
        rintro ⟨ho, v, rfl⟩
        exact hno v ⟨ho, rfl, rfl⟩
      simp [hno, hd, ih]

end Writing

end SmallScript.Scope
