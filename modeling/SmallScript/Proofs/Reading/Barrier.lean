import SmallScript.Proofs.Reading.Extent

/-!
Tokens at which every expression ends. Reading comes to a halt there as it does where there are no
tokens at all, so what was read up to them is the same with them and without.
-/
namespace SmallScript

/-- The next token, if there is one, may stand neither in an expression nor behind one. -/
def Bars (us : List Token) : Prop :=
  ∀ t ∈ us.head?, t.kind.inExpression = false ∧ t.kind ≠ .mark .semicolon

/-- No mark of the grammar of simple statements is next. -/
theorem Bars.kind_ne {us : List Token} (h : Bars us) {t : Token} (ht : t ∈ us.head?) {k : Kind}
    (hk : k.inExpression ∨ k = .mark .semicolon) : t.kind ≠ k := by
  obtain ⟨hin, hsemi⟩ := h t ht
  rintro rfl
  obtain hk | hk := hk
  · rw [hin] at hk
    cases hk
  · exact hsemi hk

namespace Reading

/-- The same outcome but for the token at fault, with more tokens behind those left over. -/
inductive Beside (us : List Token) : Reading α → Reading α → Prop where
  | done (v : α) (rest : List Token) : Beside us (done v rest) (done v (rest ++ us))
  | failed (fault fault' : SyntaxFault) (rest : List Token) :
    Beside us (failed fault rest) (failed fault' (rest ++ us))

/-- With these tokens behind, the second rule reads what the first reads without them. -/
def HaltsAt (us : List Token) (rule rule' : List Token → Reading α) : Prop :=
  ∀ ts, Beside us (rule ts) (rule' (ts ++ us))

variable {us : List Token} {stop stop' : Token}

theorem Beside.andThen {r r' : Reading α} (h : Beside us r r')
    {next next' : α → List Token → Reading β} (hn : ∀ v, HaltsAt us (next v) (next' v)) :
    Beside us (r.andThen next) (r'.andThen next') := by
  cases h with
  | done v rest => exact hn v rest
  | failed fault fault' rest => exact .failed fault fault' rest

theorem HaltsAt.andThen {rule rule' : List Token → Reading α} (h : HaltsAt us rule rule')
    {next next' : α → List Token → Reading β} (hn : ∀ v, HaltsAt us (next v) (next' v)) :
    HaltsAt us (fun ts => (rule ts).andThen next) fun ts => (rule' ts).andThen next' :=
  fun ts => (h ts).andThen hn

theorem fail_haltsAt (cause : SyntaxCause) :
    HaltsAt us (fail stop cause : List Token → Reading α) (fail stop' cause) :=
  fun ts => .failed _ _ ts

theorem done_haltsAt (v : α) : HaltsAt us (done v) (done v) := fun ts => .done v ts

theorem mark_haltsAt (stop stop' : Token) {m : Mark} (h : ∀ t ∈ us.head?, t.kind ≠ .mark m)
    (cause : SyntaxCause) :
    HaltsAt us (mark stop m cause) (mark stop' m cause) := by
  intro ts
  cases ts with
  | cons t ts =>
    rw [List.cons_append, mark, mark]
    split
    · exact .done t ts
    · exact .failed _ _ (t :: ts)
  | nil =>
    cases us with
    | nil => exact .failed _ _ []
    | cons u us =>
      rw [List.nil_append, mark, mark, if_neg (h u rfl)]
      exact .failed _ _ []

end Reading

namespace ExprRules

open Reading

/-- Both rules halt there. -/
structure HaltAt (us : List Token) (rules rules' : ExprRules) : Prop where
  expression : HaltsAt us rules.expression rules'.expression
  operand : HaltsAt us rules.operand rules'.operand

variable {us : List Token} {stop stop' : Token} {room : Nat} {inner inner' : Option ExprRules}

theorem nested_haltsAt (h : Option.Rel (HaltAt us) inner inner')
    {rule : ExprRules → List Token → Reading Expr}
    (hr : ∀ rules rules', HaltAt us rules rules' → HaltsAt us (rule rules) (rule rules')) :
    HaltsAt us (nested stop inner rule) (nested stop' inner' rule) := by
  cases h with
  | none => exact fail_haltsAt .tooDeep
  | some h => exact hr _ _ h

/-- No operand starts there. -/
theorem operandAround_bars (hb : Bars us) :
    operandAround stop inner us = .fail stop .missingExpression us := by
  cases us with
  | nil => rfl
  | cons u us =>
    have hin := (hb u rfl).1
    simp only [Kind.inExpression, Bool.or_eq_false_iff, beq_eq_false_iff_ne] at hin
    obtain ⟨⟨⟨⟨⟨⟨hname, hprefix⟩, _⟩, hconstant⟩, _⟩, hparen⟩, _⟩ := hin
    rw [operandAround, hprefix]
    simp only [Bool.false_eq_true, if_false]
    split
    · next hk => exact absurd hk hparen
    · next hk => rw [hk] at hname; cases hname
    · next hk _ _ => rw [hk] at hconstant; cases hconstant
    · rfl

theorem operandAround_haltsAt (hb : Bars us) (h : Option.Rel (HaltAt us) inner inner') :
    HaltsAt us (operandAround stop inner) (operandAround stop' inner') := by
  intro ts
  cases ts with
  | nil =>
    rw [List.nil_append, operandAround_bars hb]
    exact .failed _ _ []
  | cons t ts =>
    rw [List.cons_append, operandAround, operandAround]
    split
    · exact (nested_haltsAt h (fun _ _ hr => hr.operand)).andThen (fun e => done_haltsAt _) ts
    · split
      · have hm := mark_haltsAt stop stop'
          (fun u hu => hb.kind_ne hu (k := .mark .rightParen) (.inl rfl)) .openGrouping
        exact (nested_haltsAt h (fun _ _ hr => hr.expression)).andThen
          (fun e => hm.andThen fun _ => done_haltsAt _) ts
      · exact .done _ ts
      · exact .done _ ts
      · exact .failed _ _ (t :: ts)

/-- A chain ends there. -/
theorem chain_bars (hb : Bars us) (level : Level) (operand : List Token → Reading Expr) (n : Nat)
    (left : Expr) : chain stop level operand n left us = .done left us := by
  cases us with
  | nil => cases n <;> rfl
  | cons u us =>
    have hl : u.kind.level? ≠ some level := by
      intro hl
      have hin := (hb u rfl).1
      simp [Kind.inExpression, hl] at hin
    cases n with
    | zero => rw [chain, if_neg hl]
    | succ n => rw [chain, if_neg hl]

theorem chain_haltsAt (hb : Bars us) {level : Level} {operand operand' : List Token → Reading Expr}
    (h : HaltsAt us operand operand') (n : Nat) (left : Expr) :
    HaltsAt us (chain stop level operand n left) (chain stop' level operand' n left) := by
  induction n generalizing left with
  | zero =>
    intro ts
    cases ts with
    | nil =>
      rw [List.nil_append, chain_bars hb]
      exact .done left []
    | cons op ts =>
      rw [List.cons_append, chain, chain]
      split
      · exact .failed _ _ (op :: ts)
      · exact .done left (op :: ts)
  | succ n ih =>
    intro ts
    cases ts with
    | nil =>
      rw [List.nil_append, chain_bars hb]
      exact .done left []
    | cons op ts =>
      rw [List.cons_append, chain, chain]
      split
      · exact h.andThen (fun right => ih _) ts
      · exact .done left (op :: ts)

theorem leftAssociative_haltsAt (hb : Bars us) (level : Level)
    {operand operand' : List Token → Reading Expr} (h : HaltsAt us operand operand') :
    HaltsAt us (leftAssociative stop level room operand)
      (leftAssociative stop' level room operand') :=
  h.andThen fun left => chain_haltsAt hb h room left

theorem operation_haltsAt (hb : Bars us) {operand operand' : List Token → Reading Expr}
    (h : HaltsAt us operand operand') :
    HaltsAt us (operation stop room operand) (operation stop' room operand') :=
  leftAssociative_haltsAt hb .equality (leftAssociative_haltsAt hb .comparison
    (leftAssociative_haltsAt hb .sum (leftAssociative_haltsAt hb .product h)))

theorem assignmentAfter_haltsAt (hb : Bars us) (h : Option.Rel (HaltAt us) inner inner')
    (target : Expr) :
    HaltsAt us (assignmentAfter stop inner target) (assignmentAfter stop' inner' target) := by
  intro ts
  cases ts with
  | nil =>
    rw [List.nil_append]
    cases us with
    | nil => exact .done target []
    | cons u us =>
      have hu : u.kind ≠ .mark .equal := hb.kind_ne rfl (.inl rfl)
      rw [assignmentAfter, assignmentAfter, if_neg hu]
      exact .done target []
  | cons equals ts =>
    rw [List.cons_append, assignmentAfter, assignmentAfter]
    split
    · refine (nested_haltsAt h (fun _ _ hr => hr.expression)).andThen ?_ ts
      intro value rest
      cases target with
      | var name => exact .done _ rest
      | _ => exact .failed _ _ rest
    · exact .done target (equals :: ts)

theorem around_haltAt (hb : Bars us) (h : Option.Rel (HaltAt us) inner inner') (room : Nat) :
    HaltAt us (around stop inner room) (around stop' inner' room) where
  operand := operandAround_haltsAt hb h
  expression := (operation_haltsAt hb (operandAround_haltsAt hb h)).andThen
    (assignmentAfter_haltsAt hb h)

theorem withRoom_haltAt (hb : Bars us) (stop stop' : Token) (room : Nat) :
    HaltAt us (withRoom stop room) (withRoom stop' room) := by
  induction room with
  | zero => exact around_haltAt hb .none 0
  | succ room ih => exact around_haltAt hb (.some ih) (room + 1)

end ExprRules

namespace Stmt

open Reading

variable {us : List Token} {stop stop' : Token} {room : Nat}

theorem readClosed_haltsAt (hb : Bars us) (cause : SyntaxCause) (build : Expr → Stmt) :
    HaltsAt us (readClosed stop room cause build) (readClosed stop' room cause build) := by
  have hm := mark_haltsAt stop stop'
    (fun u hu => hb.kind_ne hu (k := .mark .semicolon) (.inr rfl)) cause
  apply (ExprRules.withRoom_haltAt hb stop stop' room).expression.andThen
  intro e
  exact hm.andThen fun _ => done_haltsAt _

theorem readInitializer_haltsAt (hb : Bars us) (name : Token) :
    HaltsAt us (readInitializer stop room name) (readInitializer stop' room name) := by
  have hm := mark_haltsAt stop stop'
    (fun u hu => hb.kind_ne hu (k := .mark .semicolon) (.inr rfl)) .openDeclaration
  intro ts
  cases ts with
  | nil =>
    rw [List.nil_append]
    cases us with
    | nil => exact .failed _ _ []
    | cons u us =>
      have hu : u.kind ≠ .mark .equal := hb.kind_ne rfl (.inl rfl)
      rw [readInitializer, readInitializer, if_neg hu]
      exact hm.andThen (fun _ => done_haltsAt (Stmt.declare name none)) []
  | cons t ts =>
    rw [List.cons_append, readInitializer, readInitializer]
    split
    · exact readClosed_haltsAt hb _ _ ts
    · exact hm.andThen (fun _ => done_haltsAt (Stmt.declare name none)) (t :: ts)

theorem readDeclared_haltsAt (hb : Bars us) :
    HaltsAt us (readDeclared stop room) (readDeclared stop' room) := by
  intro ts
  cases ts with
  | nil =>
    rw [List.nil_append]
    cases us with
    | nil => exact .failed _ _ []
    | cons u us =>
      rw [readDeclared, readDeclared]
      split
      · next name hk =>
        have hin := (hb u rfl).1
        simp [Kind.inExpression, Kind.isName, hk] at hin
      · exact .failed _ _ []
  | cons t ts =>
    rw [List.cons_append, readDeclared, readDeclared]
    split
    · exact readInitializer_haltsAt hb t ts
    · exact .failed _ _ (t :: ts)

/-- Every statement but a block halts there, and has no declarations within it. -/
theorem readAround_haltsAt (hb : Bars us) {inner inner' : Option (List Token → Declaration)}
    {t : Token} (ht : t.kind ≠ .mark .leftBrace) (ts : List Token) :
    Beside us (readAround stop room inner (t :: ts)).reading
      (readAround stop' room inner' (t :: ts ++ us)).reading := by
  rw [List.cons_append, readAround, readAround]
  split
  · exact readDeclared_haltsAt hb ts
  · exact readClosed_haltsAt hb _ _ ts
  · next hk => exact absurd hk ht
  · exact readClosed_haltsAt hb _ _ (t :: ts)

end Stmt

end SmallScript
