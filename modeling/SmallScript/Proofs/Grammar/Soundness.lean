import SmallScript.Proofs.Grammar
import SmallScript.Proofs.Reading

/-!
What is read derives from the tokens taken, by the grammar and within the levels of nesting. A fault
leaves tokens out, but never puts one in, in another place or under another operator.
-/
namespace SmallScript

open Reading

namespace ExprRules

/-- What the rule reads derives from the tokens that it takes. -/
def Sound (room rank : Nat) (rule : List Token → Reading Expr) : Prop :=
  ∀ ts e rest, rule ts = .done e rest → ∃ us, ts = us ++ rest ∧ e.Derives room rank us

structure SoundAt (room : Nat) (rules : ExprRules) : Prop where
  expression : Sound room 0 rules.expression
  operand : Sound room 5 rules.operand

variable {stop : Token} {room : Nat} {inner : Option ExprRules}

theorem nested_sound (h : Inner SoundAt room inner) {rule : ExprRules → List Token → Reading Expr}
    {rank : Nat} (hr : ∀ rules, SoundAt (room - 1) rules → Sound (room - 1) rank (rule rules))
    {ts rest : List Token} {e : Expr} (hd : nested stop inner rule ts = .done e rest) :
    0 < room ∧ ∃ us, ts = us ++ rest ∧ e.Derives (room - 1) rank us := by
  obtain ⟨_, hn⟩ | ⟨h0, rules, hs, hn⟩ := nested_cases stop h
  · rw [hn] at hd
    exact absurd hd (fail_ne_done _ _ _ _ _)
  · rw [hn] at hd
    exact ⟨h0, hr rules hs ts e rest hd⟩

theorem operandAround_sound (h : Inner SoundAt room inner) :
    Sound room 5 (operandAround stop inner) := by
  intro ts e rest hd
  unfold operandAround at hd
  split at hd
  · exact absurd hd (fail_ne_done _ _ _ _ _)
  · next t ts =>
    split at hd
    · next hp =>
      obtain ⟨e, left, hn, hd⟩ := andThen_eq_done.mp hd
      cases hd
      obtain ⟨h0, us, rfl, hu⟩ := nested_sound h (fun _ hs => hs.operand) hn
      exact ⟨t :: us, rfl, Expr.derives_unary.mpr ⟨Nat.le_refl 5, h0, hp, us, rfl, hu⟩⟩
    · split at hd
      · next hk =>
        obtain ⟨e, left, hn, hd⟩ := andThen_eq_done.mp hd
        obtain ⟨r, left, hm, hd⟩ := andThen_eq_done.mp hd
        cases hd
        obtain ⟨rfl, hr⟩ := mark_eq_done.mp hm
        obtain ⟨h0, us, rfl, hu⟩ := nested_sound h (fun _ hs => hs.expression) hn
        refine ⟨t :: (us ++ [r]), by simp, ?_⟩
        exact Expr.derives_grouping.mpr ⟨Nat.le_refl 5, h0, t, us, r, rfl, hk, hr, hu⟩
      · next hk =>
        cases hd
        refine ⟨[t], rfl, Expr.derives_var.mpr ⟨Nat.le_refl 5, ?_, rfl⟩⟩
        exact Kind.isName_iff.mpr ⟨_, hk⟩
      · next hv _ _ =>
        cases hd
        have hk := Kind.constant?_eq_some.mp hv
        exact ⟨[t], rfl, Expr.derives_literal.mpr ⟨Nat.le_refl 5, t, rfl, hk⟩⟩
      · exact absurd hd (fail_ne_done _ _ _ _ _)

/-- Each round of a chain folds what was read before, so the tokens of the chain so far and those
of the round together spell the next fold. -/
theorem chain_sound {level : Level} {operand : List Token → Reading Expr}
    (h : Sound room (level.rank + 1) operand) (n : Nat) (left : Expr) (us ts : List Token)
    (hl : left.Derives room level.rank us) (hn : left.folds level + n ≤ room) (e : Expr)
    (rest : List Token) (hd : chain stop level operand n left ts = .done e rest) :
    ∃ vs, ts = vs ++ rest ∧ e.Derives room level.rank (us ++ vs) := by
  induction n generalizing left us ts with
  | zero =>
    cases ts with
    | nil =>
      cases hd
      exact ⟨[], rfl, by simpa using hl⟩
    | cons op ts =>
      rw [chain] at hd
      split at hd
      · exact absurd hd (fail_ne_done _ _ _ _ _)
      · cases hd
        exact ⟨[], rfl, by simpa using hl⟩
  | succ n ih =>
    cases ts with
    | nil =>
      cases hd
      exact ⟨[], rfl, by simpa using hl⟩
    | cons op ts =>
      rw [chain] at hd
      split at hd
      · next hop =>
        obtain ⟨right, after, hr, hc⟩ := andThen_eq_done.mp hd
        obtain ⟨ws, rfl, hw⟩ := h _ _ _ hr
        have hb : (Expr.binary left op right).Derives room level.rank (us ++ op :: ws) :=
          (Expr.derives_binary hop).mpr ⟨Nat.le_refl _, by omega, us, ws, rfl, hl, hw⟩
        have hf : (Expr.binary left op right).folds level = left.folds level + 1 := by
          simp [Expr.folds, hop]
        obtain ⟨vs, rfl, hv⟩ := ih _ _ _ hb (by omega) hc
        exact ⟨op :: (ws ++ vs), by simp, by simpa using hv⟩
      · cases hd
        exact ⟨[], rfl, by simpa using hl⟩

theorem leftAssociative_sound (level : Level) {operand : List Token → Reading Expr}
    (h : Sound room (level.rank + 1) operand) :
    Sound room level.rank (leftAssociative stop level room operand) := by
  intro ts e rest hd
  obtain ⟨left, after, hl, hc⟩ := andThen_eq_done.mp hd
  obtain ⟨us, rfl, hu⟩ := h _ _ _ hl
  have hf : left.folds level = 0 := Expr.folds_eq_zero (by have := hu.rank_le; omega)
  have hu' : left.Derives room level.rank us :=
    { hu with rank_le := Nat.le_of_succ_le hu.rank_le }
  obtain ⟨vs, rfl, hv⟩ := chain_sound h room left us after hu' (by omega) e rest hc
  exact ⟨us ++ vs, by simp, hv⟩

theorem operation_sound {operand : List Token → Reading Expr} (h : Sound room 5 operand) :
    Sound room 1 (operation stop room operand) :=
  leftAssociative_sound .equality <| leftAssociative_sound .comparison <|
    leftAssociative_sound .sum <| leftAssociative_sound .product h

theorem around_sound (h : Inner SoundAt room inner) : SoundAt room (around stop inner room) where
  operand := operandAround_sound h
  expression := by
    intro ts e rest hd
    obtain ⟨target, after, ht, ha⟩ := andThen_eq_done.mp hd
    obtain ⟨us, rfl, hu⟩ := operation_sound (operandAround_sound h) _ _ _ ht
    have hu' : target.Derives room 0 us := { hu with rank_le := Nat.zero_le _ }
    unfold assignmentAfter at ha
    split at ha
    · cases ha
      exact ⟨us, rfl, hu'⟩
    · next equals ts =>
      split at ha
      · next he =>
        obtain ⟨value, after, hn, hw⟩ := andThen_eq_done.mp ha
        obtain ⟨h0, vs, rfl, hv⟩ := nested_sound h (fun _ hs => hs.expression) hn
        split at hw
        · next name =>
          cases hw
          obtain ⟨_, hname, rfl⟩ := Expr.derives_var.mp hu
          refine ⟨name :: equals :: vs, by simp, ?_⟩
          exact Expr.derives_assign.mpr ⟨rfl, h0, hname, equals, vs, rfl, he, hv⟩
        · cases hw
      · cases ha
        exact ⟨us, rfl, hu'⟩

end ExprRules

theorem Expr.read_sound {stop : Token} {room : Nat} {ts rest : List Token} {e : Expr}
    (h : Expr.read stop room ts = .done e rest) : ∃ us, ts = us ++ rest ∧ e.Derives room 0 us :=
  (ExprRules.withRoom_induction (fun _ _ => ExprRules.around_sound) room).expression ts e rest h

namespace Stmt

variable {stop : Token} {room : Nat}

theorem readClosed_sound {cause : SyntaxCause} {build : Expr → Stmt} {ts rest : List Token}
    {s : Stmt} (h : readClosed stop room cause build ts = .done s rest) :
    ∃ e us, s = build e ∧ ts = us ++ rest ∧ (expression e).Derives room us := by
  obtain ⟨e, after, he, hm⟩ := andThen_eq_done.mp h
  obtain ⟨t, left, ht, hd⟩ := andThen_eq_done.mp hm
  cases hd
  obtain ⟨rfl, hk⟩ := mark_eq_done.mp ht
  obtain ⟨vs, rfl, hv⟩ := Expr.read_sound he
  exact ⟨e, vs ++ [t], rfl, by simp, derives_expression.mpr ⟨vs, t, rfl, hk, hv⟩⟩

theorem readInitializer_sound {v name : Token} (hv : v.kind = .keyword .varWord)
    (hn : name.kind.isName) {ts rest : List Token} {s : Stmt}
    (h : readInitializer stop room name ts = .done s rest) :
    ∃ us, ts = us ++ rest ∧ s.Derives room (v :: name :: us) := by
  unfold readInitializer at h
  split at h
  · exact absurd h (fail_ne_done _ _ _ _ _)
  · next q ts =>
    split at h
    · next hq =>
      obtain ⟨e, us, rfl, rfl, hu⟩ := readClosed_sound h
      exact ⟨q :: us, rfl, derives_declare_some.mpr ⟨hn, v, q, us, rfl, hv, hq, hu⟩⟩
    · obtain ⟨t, left, ht, hd⟩ := andThen_eq_done.mp h
      cases hd
      obtain ⟨he, hk⟩ := mark_eq_done.mp ht
      exact ⟨[t], he, derives_declare_none.mpr ⟨hn, v, t, rfl, hv, hk⟩⟩

theorem readDeclared_sound {v : Token} (hv : v.kind = .keyword .varWord) {ts rest : List Token}
    {s : Stmt} (h : readDeclared stop room ts = .done s rest) :
    ∃ us, ts = us ++ rest ∧ s.Derives room (v :: us) := by
  unfold readDeclared at h
  split at h
  · exact absurd h (fail_ne_done _ _ _ _ _)
  · next name ts =>
    split at h
    · next hk =>
      obtain ⟨us, rfl, hu⟩ := readInitializer_sound hv (Kind.isName_iff.mpr ⟨_, hk⟩) h
      exact ⟨name :: us, rfl, hu⟩
    · exact absurd h (fail_ne_done _ _ _ _ _)

/-- What a reader that recovers has of these tokens: statements that are grammatical and keep within
so many levels, their tokens in order, and without faults all tokens. -/
structure Salvaged (room : Nat) (body : List Stmt) (faults : List SyntaxFault) (us : List Token) :
    Prop where
  grammatical : AllGrammatical body
  fits : AllFit body room
  sublist : (tokensAll body).Sublist (us.map Token.kept)
  spelled : faults = [] → us.map Token.kept = tokensAll body

theorem Derives.salvaged {s : Stmt} {us : List Token} (h : s.Derives room us) :
    Salvaged room [s] [] us := by
  have hs : us.map Token.kept = tokensAll [s] := by simp [tokensAll, h.spelled]
  exact ⟨⟨h.grammatical, trivial⟩, ⟨h.fits, trivial⟩, hs ▸ List.Sublist.refl _, fun _ => hs⟩

theorem salvaged_none : Salvaged room [] [] [] :=
  ⟨trivial, trivial, List.nil_sublist _, fun _ => rfl⟩

/-- A fault may cost all tokens. -/
theorem salvaged_nil {faults : List SyntaxFault} (h : faults ≠ []) (us : List Token) :
    Salvaged room [] faults us :=
  ⟨trivial, trivial, List.nil_sublist _, fun he => absurd he h⟩

theorem Salvaged.append {body rest : List Stmt} {faults more : List SyntaxFault}
    {us vs : List Token} (h : Salvaged room body faults us) (h' : Salvaged room rest more vs) :
    Salvaged room (body ++ rest) (faults ++ more) (us ++ vs) := by
  refine ⟨?_, ?_, ?_, ?_⟩
  · simp only [allGrammatical_iff, List.forall_mem_append]
    exact ⟨allGrammatical_iff.mp h.grammatical, allGrammatical_iff.mp h'.grammatical⟩
  · simp only [allFit_iff, List.forall_mem_append]
    exact ⟨allFit_iff.mp h.fits, allFit_iff.mp h'.fits⟩
  · rw [tokensAll_append, List.map_append]
    exact h.sublist.append h'.sublist
  · intro he
    obtain ⟨hf, hm⟩ := List.append_eq_nil_iff.mp he
    rw [tokensAll_append, List.map_append, h.spelled hf, h'.spelled hm]

theorem Salvaged.block {body : List Stmt} {faults : List SyntaxFault} {us : List Token}
    {l r : Token} (h : Salvaged room body faults us) (hl : l.kind = .mark .leftBrace)
    (hr : r.kind = .mark .rightBrace) :
    Salvaged (room + 1) [.block body] faults (l :: (us ++ [r])) := by
  have hl' : l.kept = .plain (.mark .leftBrace) := (Token.kept_eq_plain rfl).mpr hl
  have hr' : r.kept = .plain (.mark .rightBrace) := (Token.kept_eq_plain rfl).mpr hr
  refine ⟨⟨h.grammatical, trivial⟩, ⟨⟨Nat.succ_pos room, h.fits⟩, trivial⟩, ?_, ?_⟩
  · simpa [tokensAll, tokens, hl', hr'] using h.sublist
  · intro he
    simp [tokensAll, tokens, hl', hr', h.spelled he]

/-- Declarations read in this way are salvaged from the tokens that they take. -/
def Sound (room : Nat) (declare : List Token → Declaration) : Prop :=
  ∀ ts, ∃ us, ts = us ++ (declare ts).rest ∧
    Salvaged room (declare ts).statement?.toList (declare ts).faults us

theorem readUpTo_sound {declare : List Token → Declaration} (h : Sound room declare)
    (ends : List Token → Bool) (n : Nat) (ts : List Token) :
    ∃ us, ts = us ++ (Body.readUpTo declare ends n ts).rest ∧
      Salvaged room (Body.readUpTo declare ends n ts).statements
        (Body.readUpTo declare ends n ts).faults us := by
  induction n generalizing ts with
  | zero => exact ⟨[], rfl, salvaged_none⟩
  | succ n ih =>
    rw [Body.readUpTo]
    split
    · exact ⟨[], rfl, salvaged_none⟩
    · obtain ⟨us, hu, hs⟩ := h ts
      obtain ⟨vs, hv, hs'⟩ := ih (declare ts).rest
      refine ⟨us ++ vs, ?_, hs.append hs'⟩
      rw [List.append_assoc]
      exact hu.trans (congrArg (us ++ ·) hv)

theorem read_sound {declare : List Token → Declaration} (h : Sound room declare)
    (ends : List Token → Bool) (ts : List Token) :
    ∃ us, ts = us ++ (Body.read declare ends ts).rest ∧
      Salvaged room (Body.read declare ends ts).statements (Body.read declare ends ts).faults us :=
  readUpTo_sound h ends ts.length ts

theorem readAround_sound {inner : Option (List Token → Declaration)} (h : Inner Sound room inner)
    {ts rest : List Token} {s : Stmt}
    (hd : (readAround stop room inner ts).reading = .done s rest) :
    ∃ us, ts = us ++ rest ∧ Salvaged room [s] (readAround stop room inner ts).recovered us := by
  unfold readAround at hd ⊢
  split at hd
  · exact absurd hd (fail_ne_done _ _ _ _ _)
  · next t ts =>
    split at hd
    · next hk =>
      obtain ⟨us, rfl, hu⟩ := readDeclared_sound hk hd
      exact ⟨t :: us, rfl, hu.salvaged⟩
    · next hk =>
      obtain ⟨e, us, rfl, rfl, hu⟩ := readClosed_sound hd
      exact ⟨t :: us, rfl, (derives_print.mpr ⟨t, us, rfl, hk, hu⟩).salvaged⟩
    · next hk =>
      cases h with
      | none => exact absurd hd (fail_ne_done _ _ _ _ _)
      | some hi =>
        obtain ⟨r, left, hm, hd⟩ := andThen_eq_done.mp hd
        cases hd
        obtain ⟨hr, hk'⟩ := mark_eq_done.mp hm
        obtain ⟨us, hu, hs⟩ := read_sound hi closesBlock ts
        rw [hr] at hu
        exact ⟨t :: (us ++ [r]), by simp [hu], hs.block hk hk'⟩
    · obtain ⟨e, us, rfl, hu, hs⟩ := readClosed_sound hd
      exact ⟨us, hu, hs.salvaged⟩

end Stmt

/-- A fault ends a declaration without a statement, wherever reading resumes. -/
theorem Declaration.read_sound (stop : Token) (room : Nat) :
    Stmt.Sound room (Declaration.read stop room) := by
  refine Declaration.read_induction ?_ room
  intro room inner h ts
  have hs : ∀ d, inner = some d → ∀ ts, (d ts).rest <:+ ts := by
    rintro d rfl ts
    cases h with
    | some hi =>
      obtain ⟨us, hu, _⟩ := hi ts
      exact ⟨us, hu.symm⟩
  obtain ⟨us, hu⟩ := (Attempt.rest_declaration (Stmt.readAround_advances hs ts)).1
  cases hr : (Stmt.readAround stop room inner ts).reading with
  | done s rest =>
    obtain ⟨us, hu, hv⟩ := Stmt.readAround_sound h hr
    refine ⟨us, ?_, ?_⟩ <;> simp only [Attempt.declaration, hr]
    · exact hu
    · exact hv
  | failed fault rest =>
    refine ⟨us, hu.symm, ?_⟩
    simp only [Attempt.declaration, hr]
    exact Stmt.salvaged_nil (by simp) us

/-- The statements of a program are salvaged from all tokens before the stop token. -/
theorem parse_salvaged (ts : List Token) :
    Stmt.Salvaged maxNesting (parse ts).program (parse ts).faults
      (ts.takeWhile fun t => t.kind != .stop) := by
  have hd := Declaration.read_sound ((ts.find? fun t => t.kind == .stop).getD (.stop 1)) maxNesting
  obtain ⟨us, hu, hs⟩ := Stmt.read_sound hd List.isEmpty (ts.takeWhile fun t => t.kind != .stop)
  have hr := rest_parseBody ((ts.find? fun t => t.kind == .stop).getD (.stop 1))
    (ts.takeWhile fun t => t.kind != .stop)
  rw [parseBody] at hr
  rw [hr, List.append_nil] at hu
  rw [hu]
  exact hs

end SmallScript
