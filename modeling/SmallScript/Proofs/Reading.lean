import SmallScript.Syntax.Progress

/-!
Laws of reading: what a success says about the tokens taken, and induction on the levels of nesting
that are left, for the rules of expressions and for declarations.
-/
namespace SmallScript

namespace Reading

theorem andThen_eq_done {r : Reading α} {next : α → List Token → Reading β} {w : β}
    {left : List Token} :
    r.andThen next = done w left ↔ ∃ v rest, r = done v rest ∧ next v rest = done w left := by
  cases r with
  | done v rest =>
    constructor
    · exact fun h => ⟨v, rest, rfl, h⟩
    · rintro ⟨_, _, ⟨⟩, h⟩
      exact h
  | failed fault rest => simp

@[simp] theorem fail_ne_done (stop : Token) (cause : SyntaxCause) (ts : List Token) (v : α)
    (rest : List Token) : fail stop cause ts ≠ done v rest := by
  simp [fail]

theorem mark_eq_done {stop t : Token} {m : Mark} {cause : SyntaxCause} {ts rest : List Token} :
    mark stop m cause ts = done t rest ↔ ts = t :: rest ∧ t.kind = .mark m := by
  unfold mark
  split
  · next u after =>
    split
    · next h =>
      simp only [done.injEq, List.cons.injEq]
      constructor
      · rintro ⟨rfl, rfl⟩
        exact ⟨⟨rfl, rfl⟩, h⟩
      · exact fun he => he.1
    · next h =>
      simp only [fail_ne_done, List.cons.injEq, false_iff]
      rintro ⟨⟨rfl, rfl⟩, hk⟩
      exact h hk
  · simp

end Reading

/-- What is there to read one level further in: nothing without a level left, and else something
with a property for one level less. -/
inductive Inner (P : Nat → α → Prop) : Nat → Option α → Prop where
  | none : Inner P 0 none
  | some {room : Nat} {inner : α} : P room inner → Inner P (room + 1) (some inner)

namespace ExprRules

/-- What the rules of one level keep from those of the next level in, all rules have. -/
theorem withRoom_induction {stop : Token} {P : Nat → ExprRules → Prop}
    (h : ∀ room inner, Inner P room inner → P room (around stop inner room)) (room : Nat) :
    P room (withRoom stop room) := by
  induction room with
  | zero => exact h 0 none .none
  | succ room ih => exact h (room + 1) _ (.some ih)

/-- A phrase one level further in is read by rules for one level less, if there is a level. -/
theorem nested_cases (stop : Token) {P : Nat → ExprRules → Prop} {room : Nat}
    {inner : Option ExprRules} (h : Inner P room inner) :
    (room = 0 ∧ ∀ rule ts, nested stop inner rule ts = .fail stop .tooDeep ts) ∨
      (0 < room ∧ ∃ rules, P (room - 1) rules ∧
        ∀ rule ts, nested stop inner rule ts = rule rules ts) := by
  cases h with
  | none => exact .inl ⟨rfl, fun _ _ => rfl⟩
  | some hp => exact .inr ⟨Nat.succ_pos _, _, hp, fun _ _ => rfl⟩

end ExprRules

/-- What the declarations of one level keep from those of the next level in, all have. -/
theorem Declaration.read_induction {stop : Token}
    {P : Nat → (List Token → Declaration) → Prop}
    (h : ∀ room inner, Inner P room inner →
      P room fun ts => (Stmt.readAround stop room inner ts).declaration) (room : Nat) :
    P room (Declaration.read stop room) := by
  induction room with
  | zero => exact h 0 none .none
  | succ room ih => exact h (room + 1) _ (.some ih)

/-- Declarations are read forward, and each takes a token where there is one. -/
structure Forward (declare : List Token → Declaration) : Prop where
  suffix : ∀ ts, (declare ts).rest <:+ ts
  shorter : ∀ ts, ts ≠ [] → (declare ts).rest.length < ts.length

theorem Declaration.read_forward (stop : Token) (room : Nat) :
    Forward (Declaration.read stop room) :=
  ⟨fun ts => (rest_read stop room ts).1, fun ts => (rest_read stop room ts).2⟩

/-- A statement that starts with the brace of a block is that block. -/
theorem Stmt.readAround_block (stop : Token) (room : Nat)
    (inner : Option (List Token → Declaration)) {t : Token} (hk : t.kind = .mark .leftBrace)
    (ts : List Token) : readAround stop room inner (t :: ts) = readBlock stop inner ts := by
  rw [readAround]
  simp only [hk]

namespace Declaration

/-- How declarations are read one level further in, if there is a level left. -/
def inner? (stop : Token) : Nat → Option (List Token → Declaration)
  | 0 => none
  | room + 1 => some (read stop room)

theorem read_eq (stop : Token) (room : Nat) (ts : List Token) :
    read stop room ts = (Stmt.readAround stop room (inner? stop room) ts).declaration := by
  cases room <;> rfl

theorem read_block (stop : Token) (room : Nat) {t : Token} (hk : t.kind = .mark .leftBrace)
    (ts : List Token) :
    read stop (room + 1) (t :: ts) = (Stmt.readBlock stop (some (read stop room)) ts).declaration := by
  rw [read, Stmt.readAround_block stop (room + 1) _ hk]

theorem inner?_forward (stop : Token) (room : Nat) :
    ∀ declare ∈ inner? stop room, Forward declare := by
  intro declare hd
  cases room <;> cases hd
  exact read_forward stop _

end Declaration

/-- Induction on the declarations of a sequence, each read from what the ones before it leave. -/
theorem Body.read_induction {declare : List Token → Declaration} {ends : List Token → Bool}
    (he : ends [] = true) (h : Forward declare)
    {P : List Token → Body → Prop} (last : ∀ ts, ends ts = true → P ts (.empty ts))
    (step : ∀ ts others, ends ts = false → P (declare ts).rest others →
      P ts (.cons (declare ts) others)) (ts : List Token) : P ts (Body.read declare ends ts) := by
  induction hn : ts.length using Nat.strongRecOn generalizing ts with
  | _ n ih =>
    rw [Body.read_eq he h.shorter]
    cases hends : ends ts with
    | true => exact last ts hends
    | false =>
      have hne : ts ≠ [] := by
        rintro rfl
        simp [he] at hends
      exact step ts _ hends (ih _ (hn ▸ h.shorter ts hne) _ rfl)

/-- A sequence is read up to where it ends. -/
theorem Body.ends_rest {declare : List Token → Declaration} {ends : List Token → Bool}
    (he : ends [] = true) (h : Forward declare) (ts : List Token) :
    ends (Body.read declare ends ts).rest = true :=
  Body.read_induction he h (P := fun _ b => ends b.rest = true) (fun _ hends => hends)
    (fun _ _ _ ih => ih) ts

theorem parseBody_induction {stop : Token} {P : List Token → Body → Prop} (last : P [] (.empty []))
    (step : ∀ t ts others, P (Declaration.read stop maxNesting (t :: ts)).rest others →
      P (t :: ts) (.cons (Declaration.read stop maxNesting (t :: ts)) others)) (ts : List Token) :
    P ts (parseBody stop ts) := by
  refine Body.read_induction rfl (Declaration.read_forward stop maxNesting) ?_ ?_ ts
  · intro ts hends
    rw [List.isEmpty_iff.mp hends]
    exact last
  · intro ts others hends ih
    cases ts with
    | nil => cases hends
    | cons t ts => exact step t ts others ih

/-- A program is read to the end. -/
theorem rest_parseBody (stop : Token) (ts : List Token) : (parseBody stop ts).rest = [] :=
  parseBody_induction (P := fun _ b => b.rest = []) rfl (fun _ _ _ ih => ih) ts

/-- These are the tokens from a position on. The position behind them all is that of the stop token. -/
structure From (us : List Token) (i : Nat) (ts : List Token) : Prop where
  le : i ≤ us.length
  eq : ts = us.drop i

namespace From

variable {us ts rest taken : List Token} {i : Nat}

theorem of_suffix (h : ts <:+ us) : From us (us.length - ts.length) ts :=
  ⟨Nat.sub_le _ _, List.suffix_iff_eq_drop.mp h⟩

theorem getElem? {t : Token} (h : From us i (t :: ts)) : us[i]? = some t := by
  rw [← List.head?_drop, ← h.eq, List.head?_cons]

theorem lt {t : Token} (h : From us i (t :: ts)) : i < us.length :=
  (List.getElem?_eq_some_iff.mp h.getElem?).1

theorem add_length (h : From us i ts) : i + ts.length = us.length := by
  rw [h.eq, List.length_drop]
  exact Nat.add_sub_cancel' h.le

theorem eq_length (h : From us i []) : i = us.length := h.add_length

theorem skip (h : From us i (taken ++ rest)) : From us (i + taken.length) rest where
  le := by
    rw [← h.add_length, List.length_append, ← Nat.add_assoc]
    exact Nat.le_add_right _ _
  eq := by rw [← List.drop_drop, ← h.eq, List.drop_left]

theorem extract (h : From us i (taken ++ rest)) : us.extract i (i + taken.length) = taken := by
  rw [List.extract_eq_take_drop, Nat.add_sub_cancel_left, ← h.eq, List.take_left]

end From

end SmallScript
