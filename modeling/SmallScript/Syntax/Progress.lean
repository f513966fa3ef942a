import SmallScript.Syntax.Statement

/-!
Reading goes forward: what is left over is always a suffix of what was given, and a declaration
takes at least one token. Hence a sequence of declarations is read to its very end.
-/
namespace SmallScript

namespace Reading

/-- A reading leaves a suffix of what it was given, and a shorter one if it succeeds. -/
structure Advances (r : Reading α) (ts : List Token) : Prop where
  suffix : r.rest <:+ ts
  shorter : ∀ v rest, r = done v rest → rest.length < ts.length

theorem fail_advances (stop : Token) (cause : SyntaxCause) (ts : List Token) :
    (fail stop cause ts : Reading α).Advances ts :=
  ⟨List.suffix_refl ts, fun _ _ h => by cases h⟩

theorem done_advances (value : α) (t : Token) (rest : List Token) :
    (done value rest).Advances (t :: rest) := by
  refine ⟨List.suffix_cons t rest, ?_⟩
  intro v r h
  cases h
  simp

theorem failed_advances (fault : SyntaxFault) {rest ts : List Token} (h : rest <:+ ts) :
    (failed fault rest : Reading α).Advances ts :=
  ⟨h, fun _ _ h => by cases h⟩

theorem Advances.cons {r : Reading α} {ts : List Token} (h : r.Advances ts) (t : Token) :
    r.Advances (t :: ts) := by
  refine ⟨h.suffix.trans (List.suffix_cons t ts), ?_⟩
  intro v rest hr
  have := h.shorter v rest hr
  simp only [List.length_cons]
  omega

/-- What follows a phrase may take nothing, but must not go back. -/
theorem Advances.andThen {r : Reading α} {ts : List Token} (h : r.Advances ts)
    {next : α → List Token → Reading β} (hn : ∀ v rest, (next v rest).rest <:+ rest) :
    (r.andThen next).Advances ts := by
  cases r with
  | failed fault rest => exact failed_advances fault h.suffix
  | done v rest =>
    have hs := hn v rest
    refine ⟨hs.trans h.suffix, ?_⟩
    intro w rest' hr
    have hl := h.shorter v rest rfl
    rw [andThen_done] at hr
    rw [hr] at hs
    have := hs.length_le
    simp only [rest_done] at this
    omega

theorem rest_andThen {r : Reading α} {ts : List Token} (h : r.rest <:+ ts)
    {next : α → List Token → Reading β} (hn : ∀ v rest, (next v rest).rest <:+ rest) :
    (r.andThen next).rest <:+ ts := by
  cases r with
  | failed fault rest => exact h
  | done v rest => exact (hn v rest).trans h

theorem mark_advances (stop : Token) (m : Mark) (cause : SyntaxCause) (ts : List Token) :
    (mark stop m cause ts).Advances ts := by
  unfold mark
  split
  · split
    · exact done_advances _ _ _
    · exact fail_advances _ _ _
  · exact fail_advances _ _ _

end Reading

namespace ExprRules

open Reading

/-- Both rules advance on every token list. -/
structure Advance (rules : ExprRules) : Prop where
  expression : ∀ ts, (rules.expression ts).Advances ts
  operand : ∀ ts, (rules.operand ts).Advances ts

theorem nested_advances {stop : Token} {inner : Option ExprRules}
    (h : ∀ rules, inner = some rules → rules.Advance)
    {rule : ExprRules → List Token → Reading Expr}
    (hr : ∀ rules : ExprRules, rules.Advance → ∀ ts, (rule rules ts).Advances ts)
    (ts : List Token) : (nested stop inner rule ts).Advances ts := by
  cases inner with
  | none => exact fail_advances _ _ _
  | some rules => exact hr rules (h rules rfl) ts

theorem operandAround_advances {stop : Token} {inner : Option ExprRules}
    (h : ∀ rules, inner = some rules → rules.Advance) (ts : List Token) :
    (operandAround stop inner ts).Advances ts := by
  unfold operandAround
  split
  · exact fail_advances _ _ _
  · next t rest =>
    split
    · exact ((nested_advances h (fun _ hr => hr.operand) rest).cons t).andThen
        fun _ _ => List.suffix_refl _
    · split
      · exact ((nested_advances h (fun _ hr => hr.expression) rest).cons t).andThen
          fun _ rest => rest_andThen (mark_advances _ _ _ rest).suffix fun _ _ =>
            List.suffix_refl _
      · exact done_advances _ _ _
      · exact done_advances _ _ _
      · exact fail_advances _ _ _

theorem rest_chain {stop : Token} {level : Level} {operand : List Token → Reading Expr}
    (h : ∀ ts, (operand ts).Advances ts) (folds : Nat) (left : Expr) (ts : List Token) :
    (chain stop level operand folds left ts).rest <:+ ts := by
  induction folds generalizing left ts with
  | zero =>
    cases ts with
    | nil => exact List.suffix_refl _
    | cons op rest => unfold chain; split <;> exact List.suffix_refl _
  | succ folds ih =>
    cases ts with
    | nil => exact List.suffix_refl _
    | cons op rest =>
      unfold chain
      split
      · exact rest_andThen ((h rest).cons op).suffix fun right after => ih _ after
      · exact List.suffix_refl _

theorem leftAssociative_advances {stop : Token} {level : Level} {room : Nat}
    {operand : List Token → Reading Expr} (h : ∀ ts, (operand ts).Advances ts)
    (ts : List Token) : (leftAssociative stop level room operand ts).Advances ts :=
  (h ts).andThen fun left rest => rest_chain h room left rest

theorem operation_advances {stop : Token} {room : Nat} {operand : List Token → Reading Expr}
    (h : ∀ ts, (operand ts).Advances ts) (ts : List Token) :
    (operation stop room operand ts).Advances ts :=
  leftAssociative_advances (leftAssociative_advances (leftAssociative_advances
    (leftAssociative_advances h))) ts

theorem rest_assignmentAfter {stop : Token} {inner : Option ExprRules}
    (h : ∀ rules, inner = some rules → rules.Advance) (target : Expr) (ts : List Token) :
    (assignmentAfter stop inner target ts).rest <:+ ts := by
  unfold assignmentAfter
  split
  · exact List.suffix_refl _
  · next equals rest =>
    split
    · refine rest_andThen
        ((nested_advances h (fun _ hr => hr.expression) rest).cons equals).suffix ?_
      intro value rest
      split <;> exact List.suffix_refl _
    · exact List.suffix_refl _

theorem around_advance {stop : Token} {inner : Option ExprRules}
    (h : ∀ rules, inner = some rules → rules.Advance) (room : Nat) :
    (around stop inner room).Advance where
  operand := operandAround_advances h
  expression ts := (operation_advances (operandAround_advances h) ts).andThen fun target rest =>
    rest_assignmentAfter h target rest

theorem withRoom_advance (stop : Token) (room : Nat) : (withRoom stop room).Advance := by
  induction room with
  | zero => exact around_advance (fun _ h => by cases h) 0
  | succ room ih => exact around_advance (fun rules h => by cases h; exact ih) (room + 1)

end ExprRules

theorem Expr.read_advances (stop : Token) (room : Nat) (ts : List Token) :
    (Expr.read stop room ts).Advances ts :=
  (ExprRules.withRoom_advance stop room).expression ts

theorem resumeAfter_suffix (dropped : Token) (ts : List Token) :
    resumeAfter dropped ts <:+ ts := by
  induction ts generalizing dropped with
  | nil => exact List.suffix_refl _
  | cons t rest ih =>
    unfold resumeAfter
    split
    · exact List.suffix_refl _
    · exact (ih t).trans (List.suffix_cons t rest)

/-- Recovery drops a token where there is one. -/
theorem recover_suffix (t : Token) (rest : List Token) : recover (t :: rest) <:+ rest :=
  resumeAfter_suffix t rest

namespace Body

/-- Reading goes on from a suffix. -/
theorem rest_readUpTo {declare : List Token → Declaration} {ends : List Token → Bool}
    (h : ∀ ts, (declare ts).rest <:+ ts) (n : Nat) (ts : List Token) :
    (readUpTo declare ends n ts).rest <:+ ts := by
  induction n generalizing ts with
  | zero => exact List.suffix_refl _
  | succ n ih =>
    unfold readUpTo
    split
    · exact List.suffix_refl _
    · exact (ih _).trans (h ts)

/-- The number of declarations allowed for does not matter if it is the number of tokens. -/
theorem readUpTo_eq {declare : List Token → Declaration} {ends : List Token → Bool}
    (he : ends [] = true)
    (h : ∀ ts, ts ≠ [] → (declare ts).rest.length < ts.length) (n : Nat) (ts : List Token)
    (hn : ts.length ≤ n) : readUpTo declare ends n ts = read declare ends ts := by
  induction n using Nat.strongRecOn generalizing ts with
  | _ n ih =>
    cases ts with
    | nil => cases n <;> simp [readUpTo, read, he]
    | cons t rest =>
      cases n with
      | zero => simp at hn
      | succ n =>
        have hl := h (t :: rest) (by simp)
        simp only [List.length_cons] at hn hl
        have e₁ := ih n (by omega) (declare (t :: rest)).rest (by omega)
        have e₂ := ih rest.length (by omega) (declare (t :: rest)).rest (by omega)
        simp only [read, List.length_cons, readUpTo] at e₁ e₂ ⊢
        rw [e₁, e₂]

/-- A sequence that does not end here starts with a declaration. -/
theorem read_eq {declare : List Token → Declaration} {ends : List Token → Bool}
    (he : ends [] = true)
    (h : ∀ ts, ts ≠ [] → (declare ts).rest.length < ts.length) (ts : List Token) :
    read declare ends ts =
      if ends ts then empty ts
      else cons (declare ts) (read declare ends (declare ts).rest) := by
  cases ts with
  | nil => simp [read, readUpTo, he]
  | cons t rest =>
    have hl := h (t :: rest) (by simp)
    simp only [List.length_cons] at hl
    have e := readUpTo_eq he h rest.length (declare (t :: rest)).rest (by omega)
    rw [read, List.length_cons]
    simp only [readUpTo, e]

end Body

namespace Stmt

open Reading

theorem readClosed_advances (stop : Token) (room : Nat) (cause : SyntaxCause)
    (build : Expr → Stmt) (ts : List Token) : (readClosed stop room cause build ts).Advances ts :=
  (Expr.read_advances stop room ts).andThen fun _ rest =>
    rest_andThen (mark_advances _ _ _ rest).suffix fun _ _ => List.suffix_refl _

theorem readInitializer_advances (stop : Token) (room : Nat) (name : Token) (ts : List Token) :
    (readInitializer stop room name ts).Advances ts := by
  unfold readInitializer
  split
  · exact fail_advances _ _ _
  · next t rest =>
    split
    · exact (readClosed_advances stop room _ _ rest).cons t
    · exact (mark_advances _ _ _ _).andThen fun _ _ => List.suffix_refl _

theorem readDeclared_advances (stop : Token) (room : Nat) (ts : List Token) :
    (readDeclared stop room ts).Advances ts := by
  unfold readDeclared
  split
  · exact fail_advances _ _ _
  · next t rest =>
    split
    · exact (readInitializer_advances stop room t rest).cons t
    · exact fail_advances _ _ _

theorem readBlock_advances {stop : Token} {declare : Option (List Token → Declaration)}
    (h : ∀ d, declare = some d → ∀ ts, (d ts).rest <:+ ts) (ts : List Token) :
    (readBlock stop declare ts).reading.Advances ts := by
  unfold readBlock
  split
  · exact fail_advances _ _ _
  · next d =>
    have hs : (Body.read d closesBlock ts).rest <:+ ts :=
      Body.rest_readUpTo (h d rfl) ts.length ts
    have hm := (mark_advances stop .rightBrace .openBlock (Body.read d closesBlock ts).rest).andThen
      fun _ rest =>
        List.suffix_refl (done (block (Body.read d closesBlock ts).statements) rest).rest
    refine ⟨hm.suffix.trans hs, ?_⟩
    intro v rest hr
    exact Nat.lt_of_lt_of_le (hm.shorter v rest hr) hs.length_le

theorem readAround_advances {stop : Token} {room : Nat}
    {declare : Option (List Token → Declaration)}
    (h : ∀ d, declare = some d → ∀ ts, (d ts).rest <:+ ts) (ts : List Token) :
    (readAround stop room declare ts).reading.Advances ts := by
  unfold readAround
  split
  · exact fail_advances _ _ _
  · next t rest =>
    split
    · exact (readDeclared_advances stop room rest).cons t
    · exact (readClosed_advances stop room _ _ rest).cons t
    · exact (readBlock_advances h rest).cons t
    · exact readClosed_advances stop room _ _ _

end Stmt

/-- A declaration leaves a suffix of what it was given, and takes a token where there is one. -/
theorem Attempt.rest_declaration {a : Attempt} {ts : List Token} (h : a.reading.Advances ts) :
    a.declaration.rest <:+ ts ∧ (ts ≠ [] → a.declaration.rest.length < ts.length) := by
  unfold Attempt.declaration
  split
  · next s rest hr =>
    exact ⟨by simpa [hr] using h.suffix, fun _ => h.shorter s rest hr⟩
  · next fault rest hr =>
    have hs : rest <:+ ts := by simpa [hr] using h.suffix
    cases rest with
    | nil => exact ⟨hs, fun hne => List.length_pos_iff.mpr hne⟩
    | cons t rest =>
      have hd := recover_suffix t rest
      refine ⟨hd.trans ((List.suffix_cons t rest).trans hs), fun _ => ?_⟩
      have := hd.length_le
      have := hs.length_le
      simp only [List.length_cons] at *
      omega

theorem Declaration.rest_read (stop : Token) (room : Nat) (ts : List Token) :
    (Declaration.read stop room ts).rest <:+ ts ∧
      (ts ≠ [] → (Declaration.read stop room ts).rest.length < ts.length) := by
  induction room generalizing ts with
  | zero => exact Attempt.rest_declaration (Stmt.readAround_advances (fun _ h => by cases h) ts)
  | succ room ih =>
    refine Attempt.rest_declaration (Stmt.readAround_advances ?_ ts)
    intro d hd ts
    cases hd
    exact (ih ts).1

/-- A program is read one declaration after another, to the end. -/
theorem parseBody_cons (stop t : Token) (rest : List Token) :
    parseBody stop (t :: rest) =
      .cons (Declaration.read stop maxNesting (t :: rest))
        (parseBody stop (Declaration.read stop maxNesting (t :: rest)).rest) := by
  rw [parseBody, Body.read_eq rfl fun ts => (Declaration.rest_read stop maxNesting ts).2]
  rfl

end SmallScript
