import SmallScript.Proofs.Reading

/-!
Reading with more tokens behind. A phrase ends at a token that is left over, or with a mark of its
own, so what follows that token or mark has no part in it, and neither has the stop token.
-/
namespace SmallScript

namespace Reading

/-- The same outcome with more tokens behind those left over. -/
def append (r : Reading α) (us : List Token) : Reading α :=
  match r with
  | done v rest => done v (rest ++ us)
  | failed fault rest => failed fault (rest ++ us)

@[simp] theorem append_done (v : α) (rest us : List Token) :
    (done v rest).append us = done v (rest ++ us) := rfl

@[simp] theorem append_failed (fault : SyntaxFault) (rest us : List Token) :
    (failed fault rest : Reading α).append us = failed fault (rest ++ us) := rfl

/-- Where a token is left over by the first rule, the second does the same with more tokens. -/
def Continues (rule rule' : List Token → Reading α) : Prop :=
  ∀ ts us, (rule ts).rest ≠ [] → rule' (ts ++ us) = (rule ts).append us

/-- Unless the first rule fails for want of tokens, the second does the same with more tokens. -/
def Concludes (rule rule' : List Token → Reading α) : Prop :=
  ∀ ts us, (∀ fault, rule ts ≠ failed fault []) → rule' (ts ++ us) = (rule ts).append us

theorem Concludes.continues {rule rule' : List Token → Reading α} (h : Concludes rule rule') :
    Continues rule rule' := by
  intro ts us hne
  apply h ts us
  intro fault hf
  rw [hf] at hne
  exact hne rfl

theorem fail_continues (stop stop' : Token) (cause : SyntaxCause) :
    Continues (fail stop cause : List Token → Reading α) (fail stop' cause) := by
  intro ts us hne
  cases ts with
  | nil => exact absurd rfl hne
  | cons t ts => rfl

theorem done_continues (f : α) :
    Continues (done f) (done f) := fun _ _ _ => rfl

theorem mark_concludes (stop stop' : Token) (m : Mark) (cause : SyntaxCause) :
    Concludes (mark stop m cause) (mark stop' m cause) := by
  intro ts us hne
  cases ts with
  | nil => exact absurd rfl (hne _)
  | cons t ts =>
    rw [List.cons_append, mark, mark]
    split <;> rfl

theorem Continues.andThen {rule rule' : List Token → Reading α} (h : Continues rule rule')
    {next next' : α → List Token → Reading β} (hn : ∀ v, Continues (next v) (next' v))
    (hs : ∀ v rest, (next v rest).rest <:+ rest) :
    Continues (fun ts => (rule ts).andThen next) fun ts => (rule' ts).andThen next' := by
  intro ts us (hne : ((rule ts).andThen next).rest ≠ [])
  show (rule' (ts ++ us)).andThen next' = ((rule ts).andThen next).append us
  have hr := h ts us
  cases hd : rule ts with
  | failed fault rest =>
    rw [hd] at hne hr
    rw [hr hne]
    rfl
  | done v rest =>
    rw [hd, andThen_done] at hne
    have hrest : rest ≠ [] := by
      intro he
      have hv := hs v rest
      rw [he, List.suffix_nil] at hv
      exact hne (he ▸ hv)
    rw [hd] at hr
    rw [hr hrest, append_done, andThen_done, andThen_done]
    exact hn v rest us hne

/-- A phrase that is closed by a second one needs no token behind it. -/
theorem Continues.concludes_andThen {rule rule' : List Token → Reading α}
    (h : Continues rule rule') {next next' : α → List Token → Reading β}
    (hn : ∀ v, Concludes (next v) (next' v)) (h0 : ∀ v, ∃ fault, next v [] = failed fault []) :
    Concludes (fun ts => (rule ts).andThen next) fun ts => (rule' ts).andThen next' := by
  intro ts us (hne : ∀ fault, (rule ts).andThen next ≠ failed fault [])
  show (rule' (ts ++ us)).andThen next' = ((rule ts).andThen next).append us
  have hr := h ts us
  cases hd : rule ts with
  | failed fault rest =>
    rw [hd] at hne hr
    have hrest : rest ≠ [] := fun he => hne fault (he ▸ rfl)
    rw [hr hrest]
    rfl
  | done v rest =>
    rw [hd, andThen_done] at hne
    have hrest : rest ≠ [] := by
      intro he
      obtain ⟨fault, hf⟩ := h0 v
      exact hne fault (he ▸ hf)
    rw [hd] at hr
    rw [hr hrest, append_done, andThen_done, andThen_done]
    exact hn v rest us hne

theorem Concludes.andThen_done {rule rule' : List Token → Reading α} (h : Concludes rule rule')
    (f : α → β) :
    Concludes (fun ts => (rule ts).andThen fun v rest => .done (f v) rest)
      fun ts => (rule' ts).andThen fun v rest => .done (f v) rest := by
  intro ts us (hne : ∀ fault, (rule ts).andThen (fun v rest => .done (f v) rest) ≠ failed fault [])
  show (rule' (ts ++ us)).andThen (fun v rest => .done (f v) rest) =
    ((rule ts).andThen fun v rest => .done (f v) rest).append us
  have hr : ∀ fault, rule ts ≠ failed fault [] := by
    intro fault hf
    exact hne fault (by rw [hf]; rfl)
  rw [h ts us hr]
  cases rule ts <;> rfl

end Reading

namespace ExprRules

open Reading

/-- Both rules go on as those of the other reader. -/
structure ContinueAs (rules rules' : ExprRules) : Prop where
  advance : rules.Advance
  expression : Continues rules.expression rules'.expression
  operand : Continues rules.operand rules'.operand

variable {stop stop' : Token} {room : Nat} {inner inner' : Option ExprRules}

theorem nested_continues (h : Option.Rel ContinueAs inner inner')
    {rule : ExprRules → List Token → Reading Expr}
    (hr : ∀ rules rules', ContinueAs rules rules' → Continues (rule rules) (rule rules')) :
    Continues (nested stop inner rule) (nested stop' inner' rule) := by
  cases h with
  | none => exact fail_continues stop stop' .tooDeep
  | some h => exact hr _ _ h

theorem operandAround_continues (h : Option.Rel ContinueAs inner inner') :
    Continues (operandAround stop inner) (operandAround stop' inner') := by
  intro ts us hne
  cases ts with
  | nil => exact absurd rfl hne
  | cons t ts =>
    rw [List.cons_append]
    by_cases hp : t.kind.isPrefix
    · simp only [operandAround, hp, if_true] at hne ⊢
      exact (nested_continues h fun _ _ hr => hr.operand).andThen
        (fun _ => done_continues _) (fun _ _ => List.suffix_refl _) ts us hne
    · simp only [operandAround, hp, Bool.false_eq_true, if_false] at hne ⊢
      split at hne
      · have hm (e : Expr) := (mark_concludes stop stop' .rightParen .openGrouping).andThen_done
          fun _ => Expr.grouping e
        exact (nested_continues h fun _ _ hr => hr.expression).andThen
          (fun e => (hm e).continues)
          (fun _ rest => rest_andThen (mark_advances _ _ _ rest).suffix fun _ _ =>
            List.suffix_refl _) ts us hne
      · rfl
      · rfl
      · exact fail_continues stop stop' .missingExpression (t :: ts) us hne

theorem chain_continues {level : Level} {operand operand' : List Token → Reading Expr}
    (h : Continues operand operand') (ha : ∀ ts, (operand ts).Advances ts) (n : Nat) (left : Expr) :
    Continues (chain stop level operand n left) (chain stop' level operand' n left) := by
  induction n generalizing left with
  | zero =>
    intro ts us hne
    cases ts with
    | nil => exact absurd rfl hne
    | cons op ts =>
      rw [List.cons_append, chain, chain]
      split <;> rfl
  | succ n ih =>
    intro ts us hne
    cases ts with
    | nil => exact absurd rfl hne
    | cons op ts =>
      rw [chain] at hne
      rw [List.cons_append, chain, chain]
      split at hne
      · next hop =>
        rw [if_pos hop, if_pos hop]
        exact h.andThen (fun right => ih _) (fun right rest => rest_chain ha n _ rest) ts us hne
      · next hop =>
        rw [if_neg hop, if_neg hop]
        rfl

theorem leftAssociative_continues (level : Level) {operand operand' : List Token → Reading Expr}
    (h : Continues operand operand') (ha : ∀ ts, (operand ts).Advances ts) :
    Continues (leftAssociative stop level room operand)
      (leftAssociative stop' level room operand') :=
  h.andThen (fun left => chain_continues h ha room left)
    fun left rest => rest_chain ha room left rest

theorem operation_continues {operand operand' : List Token → Reading Expr}
    (h : Continues operand operand') (ha : ∀ ts, (operand ts).Advances ts) :
    Continues (operation stop room operand) (operation stop' room operand') :=
  leftAssociative_continues .equality
    (leftAssociative_continues .comparison
      (leftAssociative_continues .sum (leftAssociative_continues .product h ha)
        (leftAssociative_advances ha))
      (leftAssociative_advances (leftAssociative_advances ha)))
    (leftAssociative_advances (leftAssociative_advances (leftAssociative_advances ha)))

theorem inner_advance (h : Option.Rel ContinueAs inner inner') :
    ∀ rules, inner = some rules → rules.Advance := by
  intro rules hr
  cases h with
  | none => cases hr
  | some h =>
    cases hr
    exact h.advance

theorem assignmentAfter_continues (h : Option.Rel ContinueAs inner inner') (target : Expr) :
    Continues (assignmentAfter stop inner target) (assignmentAfter stop' inner' target) := by
  intro ts us hne
  cases ts with
  | nil => exact absurd rfl hne
  | cons equals ts =>
    rw [assignmentAfter] at hne
    rw [List.cons_append, assignmentAfter, assignmentAfter]
    by_cases he : equals.kind = .mark .equal
    · rw [if_pos he] at hne ⊢
      rw [if_pos he]
      refine (nested_continues h fun _ _ hr => hr.expression).andThen ?_ ?_ ts us hne
      · intro value
        cases target <;> exact fun _ _ _ => rfl
      · intro value rest
        cases target <;> exact List.suffix_refl rest
    · rw [if_neg he, if_neg he]
      rfl

theorem around_continue (h : Option.Rel ContinueAs inner inner') (room : Nat) :
    ContinueAs (around stop inner room) (around stop' inner' room) where
  advance := around_advance (inner_advance h) room
  operand := operandAround_continues h
  expression := by
    have ha : ∀ ts, (operandAround stop inner ts).Advances ts :=
      operandAround_advances (inner_advance h)
    exact (operation_continues (operandAround_continues h) ha).andThen
      (assignmentAfter_continues h) (rest_assignmentAfter (inner_advance h))

theorem withRoom_continue (stop stop' : Token) (room : Nat) :
    ContinueAs (withRoom stop room) (withRoom stop' room) := by
  induction room with
  | zero => exact around_continue .none 0
  | succ room ih => exact around_continue (.some ih) (room + 1)

end ExprRules

theorem Expr.read_continues (stop stop' : Token) (room : Nat) :
    Reading.Continues (Expr.read stop room) (Expr.read stop' room) :=
  (ExprRules.withRoom_continue stop stop' room).expression

namespace Stmt

open Reading

variable {stop stop' : Token} {room : Nat}

theorem readClosed_concludes (cause : SyntaxCause) (build : Expr → Stmt) :
    Concludes (readClosed stop room cause build) (readClosed stop' room cause build) :=
  (Expr.read_continues stop stop' room).concludes_andThen
    (fun e => (mark_concludes stop stop' .semicolon cause).andThen_done fun _ => build e)
    fun _ => ⟨_, rfl⟩

theorem readInitializer_concludes (name : Token) :
    Concludes (readInitializer stop room name) (readInitializer stop' room name) := by
  intro ts us hne
  cases ts with
  | nil => exact absurd rfl (hne _)
  | cons t ts =>
    rw [readInitializer] at hne
    rw [List.cons_append, readInitializer, readInitializer]
    by_cases hk : t.kind = .mark .equal
    · rw [if_pos hk] at hne ⊢
      rw [if_pos hk]
      exact readClosed_concludes _ _ ts us hne
    · rw [if_neg hk] at hne ⊢
      rw [if_neg hk]
      exact (mark_concludes stop stop' _ _).andThen_done (fun _ => Stmt.declare name none)
        (t :: ts) us hne

theorem readDeclared_concludes :
    Concludes (readDeclared stop room) (readDeclared stop' room) := by
  intro ts us hne
  cases ts with
  | nil => exact absurd rfl (hne _)
  | cons t ts =>
    rw [readDeclared] at hne
    rw [List.cons_append, readDeclared, readDeclared]
    split at hne
    · exact readInitializer_concludes t ts us hne
    · rfl

end Stmt

end SmallScript
