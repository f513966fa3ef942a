import SmallScript.Proofs.Grammar
import SmallScript.Proofs.Reading

/-!
How far reading goes. Whether an expression is read or fails, only tokens are taken that may stand
in one. So a statement that fails has not gone past a semicolon, unless it is a block.
-/
namespace SmallScript

/-- A token of this kind may stand in an expression. -/
def Kind.inExpression (k : Kind) : Bool :=
  k.isName || k.isPrefix || k.level?.isSome || k.constant?.isSome || k == .mark .equal ||
    k == .mark .leftParen || k == .mark .rightParen

theorem Kind.ne_semicolon_of_inExpression {k : Kind} (h : k.inExpression) :
    k ≠ .mark .semicolon := by
  intro hk
  subst hk
  cases h

namespace Reading

/-- All tokens taken are of such kinds. -/
def Takes (p : Kind → Prop) (r : Reading α) (ts : List Token) : Prop :=
  ∃ taken, ts = taken ++ r.rest ∧ ∀ t ∈ taken, p t.kind

variable {p : Kind → Prop}

theorem takes_of_rest_eq {r : Reading α} {ts : List Token} (h : r.rest = ts) : r.Takes p ts :=
  ⟨[], h.symm, List.forall_mem_nil _⟩

theorem Takes.cons {r : Reading α} {ts : List Token} (h : r.Takes p ts) {t : Token}
    (ht : p t.kind) : r.Takes p (t :: ts) := by
  obtain ⟨taken, hts, hp⟩ := h
  exact ⟨t :: taken, by rw [hts, List.cons_append], List.forall_mem_cons.mpr ⟨ht, hp⟩⟩

theorem Takes.mono {q : Kind → Prop} {r : Reading α} {ts : List Token} (h : r.Takes p ts)
    (hpq : ∀ k, p k → q k) : r.Takes q ts := by
  obtain ⟨taken, hts, hp⟩ := h
  exact ⟨taken, hts, fun t ht => hpq t.kind (hp t ht)⟩

theorem Takes.suffix {r : Reading α} {ts : List Token} (h : r.Takes p ts) : r.rest <:+ ts := by
  obtain ⟨taken, hts, _⟩ := h
  exact ⟨taken, hts.symm⟩

theorem Takes.andThen {r : Reading α} {ts : List Token} (h : r.Takes p ts)
    {next : α → List Token → Reading β} (hn : ∀ v rest, (next v rest).Takes p rest) :
    (r.andThen next).Takes p ts := by
  cases r with
  | failed fault rest => exact h
  | done v rest =>
    obtain ⟨taken, hts, hp⟩ := h
    obtain ⟨more, hrest, hq⟩ := hn v rest
    rw [rest_done] at hts
    refine ⟨taken ++ more, ?_, List.forall_mem_append.mpr ⟨hp, hq⟩⟩
    rw [andThen_done, List.append_assoc, ← hrest, hts]

/-- A mark that is not there takes nothing, and what would follow it is not read. -/
theorem rest_mark_andThen {stop : Token} {m : Mark} {cause : SyntaxCause} {ts rest : List Token}
    {fault : SyntaxFault} (next : Token → α)
    (h : ((mark stop m cause ts).andThen fun t rest => .done (next t) rest) = failed fault rest) :
    fault = ⟨ts.headD stop, cause⟩ ∧ rest = ts ∧ ∀ t ∈ ts.head?, t.kind ≠ .mark m := by
  unfold mark at h
  split at h
  · next t ts =>
    split at h
    · cases h
    · next hk =>
      cases h
      exact ⟨rfl, rfl, fun u hu => by cases hu; exact hk⟩
  · cases h
    exact ⟨rfl, rfl, nofun⟩

/-- A property of readings that a phrase has if its parts have it. Behind an equals sign, what is no
name in front of it is the fault. -/
structure Compositional (stop : Token) (P : (α : Type) → Reading α → List Token → Prop) : Prop where
  fail {α : Type} (cause : SyntaxCause) (ts : List Token) : P α (fail stop cause ts) ts
  done {α : Type} (v : α) (ts : List Token) : P α (done v ts) ts
  cons {α : Type} {r : Reading α} {ts : List Token} (h : P α r ts) {t : Token}
    (ht : t.kind.inExpression) : P α r (t :: ts)
  andThen {α β : Type} {r : Reading α} {ts : List Token} (h : P α r ts)
    {next : α → List Token → Reading β} (hn : ∀ v rest, P β (next v rest) rest) :
    P β (r.andThen next) ts
  badTarget {r : Reading Expr} {ts : List Token} (h : P Expr r ts) {equals : Token}
    (he : equals.kind = .mark .equal) :
    P Expr (r.andThen fun _ rest => failed ⟨equals, .badTarget⟩ rest) (equals :: ts)

end Reading

namespace ExprRules

open Reading

/-- What both rules read has the property. -/
structure HaveAll (P : (α : Type) → Reading α → List Token → Prop) (rules : ExprRules) : Prop where
  expression : ∀ ts, P Expr (rules.expression ts) ts
  operand : ∀ ts, P Expr (rules.operand ts) ts

variable {stop : Token} {room : Nat} {inner : Option ExprRules}
  {P : (α : Type) → Reading α → List Token → Prop}

theorem mark_compositional (hP : Compositional stop P) {m : Mark}
    (hm : (Kind.mark m).inExpression) (cause : SyntaxCause) (ts : List Token) :
    P Token (mark stop m cause ts) ts := by
  unfold mark
  split
  · split
    · next hk => exact hP.cons (hP.done _ _) (hk ▸ hm)
    · exact hP.fail _ _
  · exact hP.fail _ _

theorem nested_compositional (hP : Compositional stop P)
    (h : Inner (fun _ => HaveAll P) room inner) {rule : ExprRules → List Token → Reading Expr}
    (hr : ∀ rules, HaveAll P rules → ∀ ts, P Expr (rule rules ts) ts) (ts : List Token) :
    P Expr (nested stop inner rule ts) ts := by
  obtain ⟨_, hn⟩ | ⟨_, rules, hs, hn⟩ := nested_cases stop h
  · rw [hn]
    exact hP.fail _ _
  · rw [hn]
    exact hr rules hs ts

theorem operandAround_compositional (hP : Compositional stop P)
    (h : Inner (fun _ => HaveAll P) room inner) (ts : List Token) :
    P Expr (operandAround stop inner ts) ts := by
  unfold operandAround
  split
  · exact hP.fail _ _
  · next t ts =>
    split
    · next hp =>
      have ht : t.kind.inExpression := by simp [Kind.inExpression, hp]
      have ho := nested_compositional hP h (fun _ hr => hr.operand) ts
      exact hP.andThen (hP.cons ho ht) fun _ _ => hP.done _ _
    · split
      · next hk =>
        have ht : t.kind.inExpression := by simp [Kind.inExpression, hk]
        have he := nested_compositional hP h (fun _ hr => hr.expression) ts
        refine hP.andThen (hP.cons he ht) fun e rest => ?_
        have hm := mark_compositional hP (m := .rightParen) rfl .openGrouping rest
        exact hP.andThen hm fun _ _ => hP.done _ _
      · next hk =>
        have ht : t.kind.inExpression := by simp [Kind.inExpression, Kind.isName, hk]
        exact hP.cons (hP.done _ _) ht
      · next hv _ _ =>
        have ht : t.kind.inExpression := by simp [Kind.inExpression, hv]
        exact hP.cons (hP.done _ _) ht
      · exact hP.fail _ _

theorem chain_compositional (hP : Compositional stop P) {level : Level}
    {operand : List Token → Reading Expr} (h : ∀ ts, P Expr (operand ts) ts) (n : Nat) (left : Expr)
    (ts : List Token) : P Expr (chain stop level operand n left ts) ts := by
  induction n generalizing left ts with
  | zero =>
    cases ts with
    | nil => exact hP.done _ _
    | cons op ts =>
      rw [chain]
      split
      · exact hP.fail _ _
      · exact hP.done _ _
  | succ n ih =>
    cases ts with
    | nil => exact hP.done _ _
    | cons op ts =>
      rw [chain]
      split
      · next hop =>
        have ht : op.kind.inExpression := by simp [Kind.inExpression, hop]
        exact hP.andThen (hP.cons (h ts) ht) fun right rest => ih _ rest
      · exact hP.done _ _

theorem leftAssociative_compositional (hP : Compositional stop P) (level : Level)
    {operand : List Token → Reading Expr} (h : ∀ ts, P Expr (operand ts) ts) (ts : List Token) :
    P Expr (leftAssociative stop level room operand ts) ts :=
  hP.andThen (h ts) fun left rest => chain_compositional hP h room left rest

theorem operation_compositional (hP : Compositional stop P) {operand : List Token → Reading Expr}
    (h : ∀ ts, P Expr (operand ts) ts) (ts : List Token) :
    P Expr (operation stop room operand ts) ts :=
  leftAssociative_compositional hP _ (leftAssociative_compositional hP _
    (leftAssociative_compositional hP _ (leftAssociative_compositional hP _ h))) ts

theorem assignmentAfter_compositional (hP : Compositional stop P)
    (h : Inner (fun _ => HaveAll P) room inner) (target : Expr) (ts : List Token) :
    P Expr (assignmentAfter stop inner target ts) ts := by
  unfold assignmentAfter
  split
  · exact hP.done _ _
  · next equals ts =>
    split
    · next he =>
      have hn := nested_compositional hP h (fun _ hr => hr.expression) ts
      cases target with
      | var name =>
        have ht : equals.kind.inExpression := by simp [Kind.inExpression, he]
        exact hP.andThen (hP.cons hn ht) fun _ _ => hP.done _ _
      | _ => exact hP.badTarget hn he
    · exact hP.done _ _

theorem around_compositional (hP : Compositional stop P)
    (h : Inner (fun _ => HaveAll P) room inner) : HaveAll P (around stop inner room) where
  operand := operandAround_compositional hP h
  expression ts :=
    hP.andThen (operation_compositional hP (operandAround_compositional hP h) ts)
      fun target rest => assignmentAfter_compositional hP h target rest

end ExprRules

/-- Such a property all readings of expressions have. -/
theorem Expr.read_compositional {stop : Token} {P : (α : Type) → Reading α → List Token → Prop}
    (hP : Reading.Compositional stop P) (room : Nat) (ts : List Token) :
    P Expr (Expr.read stop room ts) ts :=
  (ExprRules.withRoom_induction (P := fun _ => ExprRules.HaveAll P)
    (fun _ _ => ExprRules.around_compositional hP) room).expression ts

/-- Only tokens of expressions are taken. -/
theorem Reading.takes_compositional (stop : Token) :
    Compositional stop fun _ r ts => r.Takes (fun k => k.inExpression) ts where
  fail _ _ := takes_of_rest_eq rfl
  done _ _ := takes_of_rest_eq rfl
  cons h _ ht := h.cons ht
  andThen h _ hn := h.andThen hn
  badTarget h _ he := (h.cons (by simp [Kind.inExpression, he])).andThen fun _ _ => takes_of_rest_eq rfl

/-- An expression takes only tokens of expressions. -/
theorem Expr.read_takes (stop : Token) (room : Nat) (ts : List Token) :
    (Expr.read stop room ts).Takes (fun k => k.inExpression) ts :=
  Expr.read_compositional (Reading.takes_compositional stop) room ts

namespace Stmt

open Reading

variable {stop : Token} {room : Nat} {ts rest : List Token} {fault : SyntaxFault}

theorem readClosed_failed {cause : SyntaxCause} {build : Expr → Stmt}
    (h : readClosed stop room cause build ts = .failed fault rest) :
    (failed fault rest : Reading Stmt).Takes (fun k => k.inExpression) ts := by
  have ht := Expr.read_takes stop room ts
  rw [readClosed] at h
  cases hr : Expr.read stop room ts with
  | failed _ _ =>
    rw [hr] at h ht
    cases h
    exact ht
  | done e after =>
    rw [hr, andThen_done] at h
    rw [hr] at ht
    obtain ⟨_, rfl, _⟩ := rest_mark_andThen (fun _ => build e) h
    exact ht

theorem readInitializer_failed {name : Token}
    (h : readInitializer stop room name ts = .failed fault rest) :
    (failed fault rest : Reading Stmt).Takes (fun k => k.inExpression) ts := by
  unfold readInitializer at h
  split at h
  · cases h
    exact takes_of_rest_eq rfl
  · next t ts =>
    split at h
    · next hk =>
      have ht : t.kind.inExpression := by simp [Kind.inExpression, hk]
      exact (readClosed_failed h).cons ht
    · obtain ⟨_, rfl, _⟩ := rest_mark_andThen (fun _ => Stmt.declare name none) h
      exact takes_of_rest_eq rfl

theorem readDeclared_failed (h : readDeclared stop room ts = .failed fault rest) :
    (failed fault rest : Reading Stmt).Takes (fun k => k.inExpression) ts := by
  unfold readDeclared at h
  split at h
  · cases h
    exact takes_of_rest_eq rfl
  · next t ts =>
    split at h
    · next hk =>
      have ht : t.kind.inExpression := by simp [Kind.inExpression, Kind.isName, hk]
      exact (readInitializer_failed h).cons ht
    · cases h
      exact takes_of_rest_eq rfl

/-- A block with a level left for it fails where the tokens end. -/
theorem readBlock_some_failed {declare : List Token → Declaration} (hd : Forward declare)
    (h : (readBlock stop (some declare) ts).reading = .failed fault rest) :
    fault = ⟨stop, .openBlock⟩ ∧ rest = [] := by
  have he : closesBlock (Body.read declare closesBlock ts).rest = true := Body.ends_rest rfl hd ts
  obtain ⟨hf, hr, hk⟩ := rest_mark_andThen (fun _ => Stmt.block _) h
  cases hb : (Body.read declare closesBlock ts).rest with
  | nil =>
    rw [hb] at hf hr
    exact ⟨hf, hr⟩
  | cons t after =>
    rw [hb] at he hk
    exact absurd (beq_iff_eq.mp he) (hk t rfl)

/-- A block fails where the tokens end, or at once without a level left to read it. -/
theorem readBlock_failed {inner : Option (List Token → Declaration)}
    (hd : ∀ declare ∈ inner, Forward declare)
    (h : (readBlock stop inner ts).reading = .failed fault rest) :
    (fault = ⟨stop, .openBlock⟩ ∧ rest = []) ∨ (fault = ⟨ts.headD stop, .tooDeep⟩ ∧ rest = ts) := by
  cases inner with
  | none =>
    cases h
    exact .inr ⟨rfl, rfl⟩
  | some declare => exact .inl (readBlock_some_failed (hd declare rfl) h)

/-- A statement that is no block fails before any semicolon. -/
theorem readAround_simple_failed {inner : Option (List Token → Declaration)} {t : Token}
    (ht : t.kind ≠ .mark .leftBrace)
    (h : (readAround stop room inner (t :: ts)).reading = .failed fault rest) :
    (failed fault rest : Reading Stmt).Takes (fun k => k ≠ .mark .semicolon) (t :: ts) := by
  rw [readAround] at h
  split at h
  · next hk =>
    have hts := (readDeclared_failed h).mono fun _ => Kind.ne_semicolon_of_inExpression
    exact hts.cons (by simp [hk])
  · next hk =>
    have hts := (readClosed_failed h).mono fun _ => Kind.ne_semicolon_of_inExpression
    exact hts.cons (by simp [hk])
  · next hk => exact absurd hk ht
  · exact (readClosed_failed h).mono fun _ => Kind.ne_semicolon_of_inExpression

/-- A statement that starts with the brace of a block fails as that block does. -/
theorem readAround_block_failed {inner : Option (List Token → Declaration)}
    (hd : ∀ declare ∈ inner, Forward declare) {t : Token} (ht : t.kind = .mark .leftBrace)
    (h : (readAround stop room inner (t :: ts)).reading = .failed fault rest) :
    (fault = ⟨stop, .openBlock⟩ ∧ rest = []) ∨
      (fault = ⟨ts.headD stop, .tooDeep⟩ ∧ rest = ts) := by
  rw [readAround_block stop room inner ht] at h
  exact readBlock_failed hd h

/-- A statement fails before any semicolon, or as a block that is still open at the end. -/
theorem readAround_failed {inner : Option (List Token → Declaration)}
    (hd : ∀ declare ∈ inner, Forward declare)
    (h : (readAround stop room inner ts).reading = .failed fault rest) :
    (failed fault rest : Reading Stmt).Takes (fun k => k ≠ .mark .semicolon) ts ∨
      (fault = ⟨stop, .openBlock⟩ ∧ rest = []) := by
  cases ts with
  | nil =>
    cases h
    exact .inl (takes_of_rest_eq rfl)
  | cons t ts =>
    by_cases ht : t.kind = .mark .leftBrace
    · obtain ho | ⟨_, hr⟩ := readAround_block_failed hd ht h
      · exact .inr ho
      · have hts : (failed fault rest : Reading Stmt).Takes (fun k => k ≠ .mark .semicolon) ts :=
          takes_of_rest_eq hr
        exact .inl (hts.cons (by simp [ht]))
    · exact .inl (readAround_simple_failed ht h)

end Stmt

end SmallScript
