import SmallScript.Proofs.Grammar
import SmallScript.Proofs.Reading

/-!
Whatever derives is read: each rule takes the tokens that spell its phrase, up to exactly the level
of nesting where the grammar ends, and stops before whatever else may follow.
-/
namespace SmallScript

open Reading

/-- The next token is no operator that binds so tightly. -/
def Loose (rank : Nat) (rest : List Token) : Prop := ∀ t ∈ rest.head?, t.kind.rank < rank

theorem Loose.mono {rank rank' : Nat} {rest : List Token} (h : Loose rank rest)
    (hr : rank ≤ rank') : Loose rank' rest :=
  fun t ht => Nat.lt_of_lt_of_le (h t ht) hr

theorem loose_five (rest : List Token) : Loose 5 rest := fun t _ => t.kind.rank_lt

theorem loose_cons {rank : Nat} {t : Token} {rest : List Token} (h : t.kind.rank < rank) :
    Loose rank (t :: rest) := by
  intro u hu
  cases hu
  exact h

/-- The next token goes on with no expression. -/
structure Ends (rest : List Token) : Prop where
  loose : Loose 1 rest
  noEqual : ∀ t ∈ rest.head?, t.kind ≠ .mark .equal

theorem ends_cons {t : Token} {rest : List Token} (h : t.kind.rank = 0)
    (hq : t.kind ≠ .mark .equal) : Ends (t :: rest) := by
  refine ⟨loose_cons (by omega), ?_⟩
  intro u hu
  cases hu
  exact hq

theorem ends_mark {t : Token} {m : Mark} (h : t.kind = .mark m) (rest : List Token)
    (hr : (Kind.mark m).rank = 0) (hm : m ≠ .equal) : Ends (t :: rest) :=
  ends_cons (h ▸ hr) (by rw [h]; simpa using hm)

theorem Level.rank_pos (level : Level) : 0 < level.rank := by cases level <;> decide

theorem Level.rank_lt (level : Level) : level.rank < 5 := by cases level <;> decide

namespace ExprRules

/-- The rule reads whatever derives, before a token that does not bind as tightly. -/
def Complete (room rank : Nat) (rule : List Token → Reading Expr) : Prop :=
  ∀ e us rest, e.Derives room rank us → Loose rank rest → rule (us ++ rest) = .done e rest

structure CompleteAt (room : Nat) (rules : ExprRules) : Prop where
  expression : ∀ e us rest, e.Derives room 0 us → Ends rest →
    rules.expression (us ++ rest) = .done e rest
  operand : Complete room 5 rules.operand

variable (stop : Token) {room : Nat} {inner : Option ExprRules}

theorem nested_complete (h : Inner CompleteAt room inner) (h0 : 0 < room) :
    ∃ rules, CompleteAt (room - 1) rules ∧
      ∀ rule ts, nested stop inner rule ts = rule rules ts := by
  obtain ⟨hz, _⟩ | ⟨_, rules, hr, hn⟩ := nested_cases stop h
  · omega
  · exact ⟨rules, hr, hn⟩

theorem operandAround_literal {v : Value} {t : Token} (h : t.kind = v.kind) (rest : List Token) :
    operandAround stop inner (t :: rest) = .done (.literal v) rest := by
  cases v with
  | boolean b => cases b <;> simp [operandAround, h, Value.kind, Kind.isPrefix, Kind.constant?]
  | nil => simp [operandAround, h, Value.kind, Kind.isPrefix, Kind.constant?]
  | number x => simp [operandAround, h, Value.kind, Kind.isPrefix, Kind.constant?]
  | string s => simp [operandAround, h, Value.kind, Kind.isPrefix, Kind.constant?]

theorem operandAround_complete (h : Inner CompleteAt room inner) :
    Complete room 5 (operandAround stop inner) := by
  intro e us rest hd _
  cases e with
  | literal v =>
    obtain ⟨_, t, rfl, hk⟩ := Expr.derives_literal.mp hd
    exact operandAround_literal stop hk rest
  | var name =>
    obtain ⟨_, hn, rfl⟩ := Expr.derives_var.mp hd
    obtain ⟨n, hk⟩ := Kind.isName_iff.mp hn
    simp [operandAround, hk, Kind.isPrefix]
  | grouping e =>
    obtain ⟨_, h0, l, vs, r, rfl, hl, hr, hv⟩ := Expr.derives_grouping.mp hd
    obtain ⟨rules, hc, hn⟩ := nested_complete stop h h0
    have he := hc.expression e vs (r :: rest) hv (ends_mark hr rest rfl (by decide))
    have hm : mark stop .rightParen .openGrouping (r :: rest) = done r rest :=
      mark_eq_done.mpr ⟨rfl, hr⟩
    simp [operandAround, hl, Kind.isPrefix, hn, he, hm]
  | unary op e =>
    obtain ⟨_, h0, hp, vs, rfl, hv⟩ := Expr.derives_unary.mp hd
    obtain ⟨rules, hc, hn⟩ := nested_complete stop h h0
    have he := hc.operand e vs rest hv (loose_five rest)
    simp [operandAround, hp, hn, he]
  | binary l op r =>
    have := hd.rank_le
    have := op.kind.rank_lt
    simp only [Expr.rank] at *
    omega
  | assign name e =>
    have := hd.rank_le
    simp [Expr.rank] at this

theorem chain_of_loose {level : Level} {operand : List Token → Reading Expr} (n : Nat) (e : Expr)
    {rest : List Token} (h : Loose level.rank rest) :
    chain stop level operand n e rest = .done e rest := by
  cases rest with
  | nil => cases n <;> rfl
  | cons t rest =>
    have ht : t.kind.level? ≠ some level := by
      intro he
      have := h t rfl
      rw [Kind.rank_eq_iff.mpr he] at this
      omega
    cases n with
    | zero => rw [chain, if_neg ht]
    | succ n => rw [chain, if_neg ht]

theorem leftAssociative_of_rank_lt {level : Level} {operand : List Token → Reading Expr}
    (h : Complete room (level.rank + 1) operand) {e : Expr} {us rest : List Token}
    (hd : e.Derives room level.rank us) (hr : Loose (level.rank + 1) rest)
    (ht : level.rank < e.rank) :
    leftAssociative stop level room operand (us ++ rest) =
      chain stop level operand (room - e.folds level) e rest := by
  have he := h e us rest { hd with rank_le := ht } hr
  rw [leftAssociative, he, andThen_done, Expr.folds_eq_zero ht, Nat.sub_zero]

/-- An expression of a level is read up to a chain that has its folds behind it. The induction
follows the folds from the last to the first, so what comes next may go on with the chain. -/
theorem leftAssociative_eq_chain {level : Level} {operand : List Token → Reading Expr}
    (h : Complete room (level.rank + 1) operand) (e : Expr) (us rest : List Token)
    (hd : e.Derives room level.rank us) (hr : Loose (level.rank + 1) rest) :
    leftAssociative stop level room operand (us ++ rest) =
      chain stop level operand (room - e.folds level) e rest := by
  induction e generalizing us rest with
  | literal v => exact leftAssociative_of_rank_lt stop h hd hr level.rank_lt
  | var name => exact leftAssociative_of_rank_lt stop h hd hr level.rank_lt
  | grouping e => exact leftAssociative_of_rank_lt stop h hd hr level.rank_lt
  | unary op e => exact leftAssociative_of_rank_lt stop h hd hr level.rank_lt
  | assign name e =>
    have := hd.rank_le
    have := level.rank_pos
    simp only [Expr.rank] at *
    omega
  | binary l op r ihl _ =>
    by_cases hop : op.kind.level? = some level
    · obtain ⟨_, hf, vs, ws, rfl, hl, hw⟩ := (Expr.derives_binary hop).mp hd
      have hnext : Loose (level.rank + 1) (op :: (ws ++ rest)) :=
        loose_cons (by rw [Kind.rank_eq_iff.mpr hop]; omega)
      have hroom : room - l.folds level = (room - (l.folds level + 1)) + 1 := by omega
      have hright := h r ws rest hw hr
      rw [List.append_assoc, List.cons_append, ihl vs _ hl hnext, hroom, chain, if_pos hop, hright,
        andThen_done]
      simp [Expr.folds, hop]
    · have hne : level.rank ≠ op.kind.rank := fun he => hop (Kind.rank_eq_iff.mp he.symm)
      exact leftAssociative_of_rank_lt stop h hd hr (Nat.lt_of_le_of_ne hd.rank_le hne)

theorem leftAssociative_complete (level : Level) {operand : List Token → Reading Expr}
    (h : Complete room (level.rank + 1) operand) :
    Complete room level.rank (leftAssociative stop level room operand) := by
  intro e us rest hd hr
  rw [leftAssociative_eq_chain stop h e us rest hd (hr.mono (Nat.le_succ _))]
  exact chain_of_loose stop _ e hr

theorem operation_complete {operand : List Token → Reading Expr} (h : Complete room 5 operand) :
    Complete room 1 (operation stop room operand) :=
  leftAssociative_complete stop .equality <| leftAssociative_complete stop .comparison <|
    leftAssociative_complete stop .sum <| leftAssociative_complete stop .product h

theorem assignmentAfter_of_ends (target : Expr) {rest : List Token} (h : Ends rest) :
    assignmentAfter stop inner target rest = .done target rest := by
  cases rest with
  | nil => rfl
  | cons t rest => rw [assignmentAfter, if_neg (h.noEqual t rfl)]

theorem around_complete (h : Inner CompleteAt room inner) :
    CompleteAt room (around stop inner room) where
  operand := operandAround_complete stop h
  expression := by
    intro e us rest hd hr
    have ho := operation_complete stop (operandAround_complete stop h)
    by_cases he : 1 ≤ e.rank
    · have hread := ho e us rest { hd with rank_le := he } hr.loose
      simp only [around, hread, andThen_done, assignmentAfter_of_ends stop e hr]
    · obtain ⟨name, value, rfl⟩ := Expr.eq_assign_of_rank hd.grammatical (by omega)
      obtain ⟨_, h0, hn, t, vs, rfl, ht, hv⟩ := Expr.derives_assign.mp hd
      obtain ⟨rules, hc, hnest⟩ := nested_complete stop h h0
      have hname : (Expr.var name).Derives room 1 [name] :=
        Expr.derives_var.mpr ⟨by omega, hn, rfl⟩
      have hloose : Loose 1 (t :: (vs ++ rest)) := loose_cons (by rw [ht]; decide)
      have htarget := ho _ _ _ hname hloose
      have hvalue := hc.expression value vs rest hv hr
      simp only [List.singleton_append] at htarget
      simp only [around, List.cons_append, htarget, andThen_done, assignmentAfter, if_pos ht, hnest,
        hvalue]

end ExprRules

theorem Expr.read_complete (stop : Token) {room : Nat} {e : Expr} {us rest : List Token}
    (h : e.Derives room 0 us) (hr : Ends rest) :
    Expr.read stop room (us ++ rest) = .done e rest :=
  (ExprRules.withRoom_induction (fun _ _ => ExprRules.around_complete stop) room).expression e us
    rest h hr

/-- The kinds of tokens that an expression may start with. -/
def Kind.startsExpression (k : Kind) : Bool :=
  k.isName || k.isPrefix || k.constant?.isSome || k == .mark .leftParen

theorem Expr.Derives.head {room rank : Nat} {e : Expr} {us : List Token}
    (h : e.Derives room rank us) : ∃ t vs, us = t :: vs ∧ t.kind.startsExpression := by
  induction e generalizing rank us with
  | literal v =>
    obtain ⟨_, t, rfl, hk⟩ := derives_literal.mp h
    have := Kind.constant?_eq_some.mpr hk
    exact ⟨t, [], rfl, by simp [Kind.startsExpression, this]⟩
  | var name =>
    obtain ⟨_, hn, rfl⟩ := derives_var.mp h
    exact ⟨name, [], rfl, by simp [Kind.startsExpression, hn]⟩
  | grouping e =>
    obtain ⟨_, _, l, vs, r, rfl, hl, _⟩ := derives_grouping.mp h
    exact ⟨l, _, rfl, by simp [Kind.startsExpression, hl]⟩
  | unary op e =>
    obtain ⟨_, _, hp, vs, rfl, _⟩ := derives_unary.mp h
    exact ⟨op, vs, rfl, by simp [Kind.startsExpression, hp]⟩
  | binary l op r ihl _ =>
    obtain ⟨level, hop⟩ := Option.isSome_iff_exists.mp h.grammatical.1
    obtain ⟨_, _, vs, ws, rfl, hl, _⟩ := (derives_binary hop).mp h
    obtain ⟨t, xs, rfl, ht⟩ := ihl hl
    exact ⟨t, _, rfl, ht⟩
  | assign name e =>
    obtain ⟨_, _, hn, t, vs, rfl, _⟩ := derives_assign.mp h
    exact ⟨name, _, rfl, by simp [Kind.startsExpression, hn]⟩

namespace Stmt

variable (stop : Token) {room : Nat}

/-- No statement starts with a brace that closes a block. -/
theorem Derives.head {s : Stmt} {us : List Token} (h : s.Derives room us) :
    ∃ t vs, us = t :: vs ∧ t.kind ≠ .mark .rightBrace := by
  cases s with
  | print e =>
    obtain ⟨p, vs, rfl, hp, _⟩ := derives_print.mp h
    exact ⟨p, vs, rfl, by simp [hp]⟩
  | expression e =>
    obtain ⟨vs, t, rfl, _, hv⟩ := derives_expression.mp h
    obtain ⟨u, ws, rfl, hu⟩ := hv.head
    refine ⟨u, _, rfl, ?_⟩
    intro hk
    rw [hk] at hu
    exact absurd hu (by decide)
  | declare name initializer =>
    cases initializer with
    | none =>
      obtain ⟨_, v, t, rfl, hv, _⟩ := derives_declare_none.mp h
      exact ⟨v, _, rfl, by simp [hv]⟩
    | some e =>
      obtain ⟨_, v, q, vs, rfl, hv, _⟩ := derives_declare_some.mp h
      exact ⟨v, _, rfl, by simp [hv]⟩
  | block body =>
    obtain ⟨_, l, vs, r, rfl, hl, _⟩ := derives_block.mp h
    exact ⟨l, _, rfl, by simp [hl]⟩

theorem readClosed_complete (cause : SyntaxCause) (build : Expr → Stmt) {e : Expr}
    {us : List Token} (rest : List Token) (h : (expression e).Derives room us) :
    readClosed stop room cause build (us ++ rest) = .done (build e) rest := by
  obtain ⟨vs, t, rfl, ht, hv⟩ := derives_expression.mp h
  have he := Expr.read_complete stop hv (ends_mark ht rest rfl (by decide))
  have hm : mark stop .semicolon cause (t :: rest) = done t rest := mark_eq_done.mpr ⟨rfl, ht⟩
  simp [readClosed, he, hm]

theorem readDeclared_complete {v name : Token} {initializer : Option Expr} {us : List Token}
    (rest : List Token) (h : (declare name initializer).Derives room (v :: us)) :
    v.kind = .keyword .varWord ∧
      readDeclared stop room (us ++ rest) = .done (declare name initializer) rest := by
  cases initializer with
  | none =>
    obtain ⟨hn, _, t, he, hv, ht⟩ := derives_declare_none.mp h
    obtain ⟨n, hk⟩ := Kind.isName_iff.mp hn
    cases he
    have hm : mark stop .semicolon .openDeclaration (t :: rest) = done t rest :=
      mark_eq_done.mpr ⟨rfl, ht⟩
    refine ⟨hv, ?_⟩
    simp [readDeclared, hk, readInitializer, ht, hm]
  | some e =>
    obtain ⟨hn, _, q, vs, he, hv, hq, hd⟩ := derives_declare_some.mp h
    obtain ⟨n, hk⟩ := Kind.isName_iff.mp hn
    cases he
    have hc := readClosed_complete stop .openDeclaration (fun e => declare name (some e)) rest hd
    refine ⟨hv, ?_⟩
    simp [readDeclared, hk, readInitializer, hq, hc]

theorem readAround_of_startsExpression {inner : Option (List Token → Declaration)} {t : Token}
    (h : t.kind.startsExpression) (rest : List Token) :
    readAround stop room inner (t :: rest) =
      .simple (readClosed stop room .openExpression expression (t :: rest)) := by
  rw [readAround]
  split
  · next hk => simp [hk, Kind.startsExpression, Kind.isName, Kind.isPrefix, Kind.constant?] at h
  · next hk => simp [hk, Kind.startsExpression, Kind.isName, Kind.isPrefix, Kind.constant?] at h
  · next hk => simp [hk, Kind.startsExpression, Kind.isName, Kind.isPrefix, Kind.constant?] at h
  · rfl

/-- Declarations read in this way are what derives, and none takes nothing. -/
structure Complete (room : Nat) (declare : List Token → Declaration) : Prop where
  read : ∀ s us rest, s.Derives room us → declare (us ++ rest) = ⟨some s, [], rest⟩
  forward : Forward declare

/-- Statements are read one after another up to where a sequence may end. -/
theorem read_complete {declare : List Token → Declaration} (h : Complete room declare)
    (ends : List Token → Bool) (he : ends [] = true)
    (hb : ∀ t ts, t.kind ≠ .mark .rightBrace → ends (t :: ts) = false) (body : List Stmt)
    (us rest : List Token) (hd : DeriveAll room body us) (hr : ends rest = true) :
    Body.read declare ends (us ++ rest) = ⟨body, [], rest⟩ := by
  have hlt := h.forward.shorter
  induction body generalizing us with
  | nil =>
    rw [deriveAll_nil.mp hd, List.nil_append, Body.read_eq he hlt, if_pos hr, Body.empty]
  | cons s body ih =>
    obtain ⟨vs, ws, rfl, hs, hw⟩ := deriveAll_cons.mp hd
    have hread := h.read s vs (ws ++ rest) hs
    obtain ⟨t, xs, rfl, ht⟩ := hs.head
    have hends : ends (t :: xs ++ (ws ++ rest)) = false := hb t _ ht
    rw [List.append_assoc, Body.read_eq he hlt, hends, if_neg Bool.false_ne_true, hread, ih ws hw]
    rfl

theorem readAround_complete {inner : Option (List Token → Declaration)}
    (h : Inner Complete room inner) {s : Stmt} {us : List Token} (rest : List Token)
    (hd : s.Derives room us) :
    readAround stop room inner (us ++ rest) = .simple (.done s rest) := by
  cases s with
  | print e =>
    obtain ⟨p, vs, rfl, hp, hv⟩ := derives_print.mp hd
    have hc := readClosed_complete stop .openPrint print rest hv
    simp [readAround, hp, hc]
  | expression e =>
    obtain ⟨vs, t, he, _, hv⟩ := derives_expression.mp hd
    obtain ⟨u, ws, rfl, hu⟩ := hv.head
    have hc := readClosed_complete stop .openExpression expression rest hd
    rw [he] at hc ⊢
    exact (readAround_of_startsExpression stop hu _).trans (congrArg Attempt.simple hc)
  | declare name initializer =>
    obtain ⟨v, vs, rfl, _⟩ := hd.head
    obtain ⟨hv, hread⟩ := readDeclared_complete stop rest hd
    simp [readAround, hv, hread]
  | block body =>
    obtain ⟨h0, l, vs, r, rfl, hl, hr, hv⟩ := derives_block.mp hd
    cases h with
    | none => omega
    | some hi =>
      have hb := read_complete hi closesBlock rfl (by simp [closesBlock]) body vs
        (r :: rest) hv (by simp [closesBlock, hr])
      have hm : mark stop .rightBrace .openBlock (r :: rest) = done r rest :=
        mark_eq_done.mpr ⟨rfl, hr⟩
      simp [readAround, hl, readBlock, hb, hm, Attempt.simple]

end Stmt

theorem Declaration.read_complete (stop : Token) (room : Nat) :
    Stmt.Complete room (Declaration.read stop room) := by
  refine Declaration.read_induction ?_ room
  intro room inner h
  constructor
  · intro s us rest hd
    simp only [Stmt.readAround_complete stop h rest hd]
    rfl
  · have hs : ∀ d, inner = some d → ∀ ts, (d ts).rest <:+ ts := by
      intro d hd
      subst hd
      cases h with
      | some hi => exact hi.forward.suffix
    constructor
    · intro ts
      exact (Attempt.rest_declaration (Stmt.readAround_advances hs ts)).1
    · intro ts
      exact (Attempt.rest_declaration (Stmt.readAround_advances hs ts)).2

theorem parseBody_complete (stop : Token) {program : List Stmt} {us : List Token}
    (h : Stmt.DeriveAll maxNesting program us) : parseBody stop us = ⟨program, [], []⟩ := by
  have hb := Stmt.read_complete (Declaration.read_complete stop maxNesting) List.isEmpty
    rfl (fun _ _ _ => rfl) program us [] h rfl
  rw [List.append_nil] at hb
  exact hb

end SmallScript
