import SmallScript.Proofs.Relocation

/-!
Reading tokens on other lines. No rule looks at a line, so tokens that are moved to other lines are
read as before, and only the tokens in what is read move with them.
-/
namespace SmallScript

variable {move : Nat → Nat}

namespace Reading

/-- The outcome for tokens that are moved, where `f` moves those in a phrase. -/
def relocate (move : Nat → Nat) (f : α → β) (r : Reading α) : Reading β :=
  match r with
  | done v rest => done (f v) (rest.map (Token.relocate move))
  | failed fault rest => failed (fault.relocate move) (rest.map (Token.relocate move))

/-- The second rule reads moved tokens as the first reads them where they were. -/
def Moves (move : Nat → Nat) (f : α → β) (rule : List Token → Reading α)
    (rule' : List Token → Reading β) : Prop :=
  ∀ ts, rule' (ts.map (Token.relocate move)) = (rule ts).relocate move f

theorem fail_moves (f : α → β) (stop : Token) (cause : SyntaxCause) :
    Moves move f (fail stop cause) (fail (stop.relocate move) cause) := by
  intro ts
  cases ts <;> rfl

theorem mark_moves (stop : Token) (m : Mark) (cause : SyntaxCause) :
    Moves move (Token.relocate move) (mark stop m cause) (mark (stop.relocate move) m cause) := by
  intro ts
  cases ts with
  | nil => rfl
  | cons t ts =>
    rw [List.map_cons, mark, mark, Token.kind_relocate]
    split <;> rfl

theorem Moves.andThen {f : α → α'} {g : β → β'} {rule : List Token → Reading α}
    {rule' : List Token → Reading α'} (h : Moves move f rule rule')
    {next : α → List Token → Reading β} {next' : α' → List Token → Reading β'}
    (hn : ∀ v, Moves move g (next v) (next' (f v))) :
    Moves move g (fun ts => (rule ts).andThen next) fun ts => (rule' ts).andThen next' := by
  intro ts
  show (rule' (ts.map (Token.relocate move))).andThen next' =
    ((rule ts).andThen next).relocate move g
  rw [h ts]
  cases rule ts with
  | done v rest => exact hn v rest
  | failed fault rest => rfl

end Reading

namespace ExprRules

open Reading

/-- Both rules read moved tokens as those of the other reader do where they were. -/
structure Move (move : Nat → Nat) (rules rules' : ExprRules) : Prop where
  expression : Moves move (Expr.relocate move) rules.expression rules'.expression
  operand : Moves move (Expr.relocate move) rules.operand rules'.operand

variable {stop : Token} {room : Nat} {inner inner' : Option ExprRules}

theorem nested_moves (h : Option.Rel (Move move) inner inner')
    {rule : ExprRules → List Token → Reading Expr}
    (hr : ∀ rules rules', Move move rules rules' →
      Moves move (Expr.relocate move) (rule rules) (rule rules')) :
    Moves move (Expr.relocate move) (nested stop inner rule)
      (nested (stop.relocate move) inner' rule) := by
  cases h with
  | none => exact fail_moves _ stop .tooDeep
  | some h => exact hr _ _ h

theorem operandAround_moves (h : Option.Rel (Move move) inner inner') :
    Moves move (Expr.relocate move) (operandAround stop inner)
      (operandAround (stop.relocate move) inner') := by
  intro ts
  cases ts with
  | nil => rfl
  | cons t ts =>
    rw [List.map_cons, operandAround, operandAround, Token.kind_relocate]
    split
    · exact (nested_moves h fun _ _ hr => hr.operand).andThen (fun _ _ => rfl) ts
    · split
      · refine (nested_moves h fun _ _ hr => hr.expression).andThen (fun e => ?_) ts
        exact (mark_moves stop .rightParen .openGrouping).andThen fun _ _ => rfl
      · rfl
      · rfl
      · exact fail_moves _ stop .missingExpression (t :: ts)

theorem chain_moves {level : Level} {operand operand' : List Token → Reading Expr}
    (h : Moves move (Expr.relocate move) operand operand') (folds : Nat) (left : Expr) :
    Moves move (Expr.relocate move) (chain stop level operand folds left)
      (chain (stop.relocate move) level operand' folds (left.relocate move)) := by
  induction folds generalizing left with
  | zero =>
    intro ts
    cases ts with
    | nil => rfl
    | cons op ts =>
      rw [List.map_cons, chain, chain, Token.kind_relocate]
      split <;> rfl
  | succ folds ih =>
    intro ts
    cases ts with
    | nil => rfl
    | cons op ts =>
      rw [List.map_cons, chain, chain, Token.kind_relocate]
      split
      · exact h.andThen (fun right => ih (.binary left op right)) ts
      · rfl

theorem leftAssociative_moves (level : Level) {operand operand' : List Token → Reading Expr}
    (h : Moves move (Expr.relocate move) operand operand') :
    Moves move (Expr.relocate move) (leftAssociative stop level room operand)
      (leftAssociative (stop.relocate move) level room operand') :=
  h.andThen fun left => chain_moves h room left

theorem operation_moves {operand operand' : List Token → Reading Expr}
    (h : Moves move (Expr.relocate move) operand operand') :
    Moves move (Expr.relocate move) (operation stop room operand)
      (operation (stop.relocate move) room operand') :=
  leftAssociative_moves .equality <| leftAssociative_moves .comparison <|
    leftAssociative_moves .sum <| leftAssociative_moves .product h

theorem assignmentAfter_moves (h : Option.Rel (Move move) inner inner') (target : Expr) :
    Moves move (Expr.relocate move) (assignmentAfter stop inner target)
      (assignmentAfter (stop.relocate move) inner' (target.relocate move)) := by
  intro ts
  cases ts with
  | nil => rfl
  | cons equals ts =>
    rw [List.map_cons, assignmentAfter, assignmentAfter, Token.kind_relocate]
    split
    · refine (nested_moves h fun _ _ hr => hr.expression).andThen (fun value rest => ?_) ts
      cases target <;> rfl
    · rfl

theorem around_moves (h : Option.Rel (Move move) inner inner') (room : Nat) :
    Move move (around stop inner room) (around (stop.relocate move) inner' room) where
  operand := operandAround_moves h
  expression := (operation_moves (operandAround_moves h)).andThen (assignmentAfter_moves h)

theorem withRoom_moves (stop : Token) (room : Nat) :
    Move move (withRoom stop room) (withRoom (stop.relocate move) room) := by
  induction room with
  | zero => exact around_moves .none 0
  | succ room ih => exact around_moves (.some ih) (room + 1)

end ExprRules

theorem Expr.read_moves (stop : Token) (room : Nat) :
    Reading.Moves move (Expr.relocate move) (Expr.read stop room)
      (Expr.read (stop.relocate move) room) :=
  (ExprRules.withRoom_moves stop room).expression

theorem resumeAfter_relocate (dropped : Token) (ts : List Token) :
    resumeAfter (dropped.relocate move) (ts.map (Token.relocate move)) =
      (resumeAfter dropped ts).map (Token.relocate move) := by
  induction ts generalizing dropped with
  | nil => rfl
  | cons t ts ih =>
    rw [List.map_cons, resumeAfter, resumeAfter, Token.kind_relocate, Token.kind_relocate]
    split
    · rfl
    · exact ih t

theorem recover_relocate (ts : List Token) :
    recover (ts.map (Token.relocate move)) = (recover ts).map (Token.relocate move) := by
  cases ts with
  | nil => rfl
  | cons t ts => exact resumeAfter_relocate t ts

/-- The outcome for tokens that are moved. -/
def Attempt.relocate (move : Nat → Nat) (a : Attempt) : Attempt :=
  ⟨a.reading.relocate move (Stmt.relocate move), a.recovered.map (SyntaxFault.relocate move)⟩

/-- The outcome for tokens that are moved. -/
def Declaration.relocate (move : Nat → Nat) (d : Declaration) : Declaration :=
  ⟨d.statement?.map (Stmt.relocate move), d.faults.map (SyntaxFault.relocate move),
    d.rest.map (Token.relocate move)⟩

/-- The outcome for tokens that are moved. -/
def Body.relocate (move : Nat → Nat) (b : Body) : Body :=
  ⟨Stmt.relocateAll move b.statements, b.faults.map (SyntaxFault.relocate move),
    b.rest.map (Token.relocate move)⟩

theorem Attempt.declaration_relocate (a : Attempt) :
    (a.relocate move).declaration = a.declaration.relocate move := by
  obtain ⟨reading, recovered⟩ := a
  cases reading with
  | done s rest => rfl
  | failed fault rest =>
    simp only [declaration, relocate, Reading.relocate, Declaration.relocate, recover_relocate,
      List.map_append, List.map_singleton, Option.map_none]

theorem Body.cons_relocate (first : Declaration) (others : Body) :
    (cons first others).relocate move = cons (first.relocate move) (others.relocate move) := by
  simp only [cons, relocate, Declaration.relocate, Stmt.relocateAll_append, List.map_append]
  cases first.statement? <;> rfl

/-- Declarations are read of moved tokens as they are where the tokens were. -/
def Declaration.Moves (move : Nat → Nat) (declare declare' : List Token → Declaration) : Prop :=
  ∀ ts, declare' (ts.map (Token.relocate move)) = (declare ts).relocate move

theorem Body.readUpTo_relocate {declare declare' : List Token → Declaration}
    (h : Declaration.Moves move declare declare') {ends : List Token → Bool}
    (he : ∀ ts, ends (ts.map (Token.relocate move)) = ends ts) (n : Nat) (ts : List Token) :
    readUpTo declare' ends n (ts.map (Token.relocate move)) =
      (readUpTo declare ends n ts).relocate move := by
  induction n generalizing ts with
  | zero => rfl
  | succ n ih =>
    rw [readUpTo, readUpTo, he, h ts]
    split
    · rfl
    · rw [cons_relocate, ← ih]
      rfl

theorem Body.read_relocate {declare declare' : List Token → Declaration}
    (h : Declaration.Moves move declare declare') {ends : List Token → Bool}
    (he : ∀ ts, ends (ts.map (Token.relocate move)) = ends ts) (ts : List Token) :
    read declare' ends (ts.map (Token.relocate move)) = (read declare ends ts).relocate move := by
  rw [read, read, List.length_map]
  exact readUpTo_relocate h he ts.length ts

theorem closesBlock_relocate (ts : List Token) :
    closesBlock (ts.map (Token.relocate move)) = closesBlock ts := by
  cases ts <;> rfl

namespace Stmt

open Reading

variable {stop : Token} {room : Nat} {inner inner' : Option (List Token → Declaration)}

theorem readClosed_moves (cause : SyntaxCause) {build build' : Expr → Stmt}
    (hb : ∀ e, build' (e.relocate move) = (build e).relocate move) :
    Moves move (Stmt.relocate move) (readClosed stop room cause build)
      (readClosed (stop.relocate move) room cause build') := by
  refine (Expr.read_moves stop room).andThen fun e => ?_
  refine (mark_moves stop .semicolon cause).andThen fun _ rest => ?_
  rw [hb e]
  rfl

theorem readInitializer_moves (name : Token) :
    Moves move (Stmt.relocate move) (readInitializer stop room name)
      (readInitializer (stop.relocate move) room (name.relocate move)) := by
  intro ts
  cases ts with
  | nil => rfl
  | cons t ts =>
    rw [List.map_cons, readInitializer, readInitializer, Token.kind_relocate]
    split
    · exact readClosed_moves .openDeclaration (fun _ => rfl) ts
    · exact (mark_moves stop .semicolon .openDeclaration).andThen (fun _ _ => rfl) (t :: ts)

theorem readDeclared_moves :
    Moves move (Stmt.relocate move) (readDeclared stop room)
      (readDeclared (stop.relocate move) room) := by
  intro ts
  cases ts with
  | nil => rfl
  | cons t ts =>
    rw [List.map_cons, readDeclared, readDeclared, Token.kind_relocate]
    split
    · exact readInitializer_moves t ts
    · exact fail_moves _ stop .missingName (t :: ts)

theorem readBlock_relocate (h : Option.Rel (Declaration.Moves move) inner inner')
    (ts : List Token) :
    readBlock (stop.relocate move) inner' (ts.map (Token.relocate move)) =
      (readBlock stop inner ts).relocate move := by
  cases h with
  | none => exact congrArg Attempt.simple (fail_moves _ stop .tooDeep ts)
  | @some declare declare' h =>
    have hb := Body.read_relocate h closesBlock_relocate ts
    simp only [readBlock, hb]
    refine congrArg (Attempt.mk · _) ?_
    exact (mark_moves stop .rightBrace .openBlock).andThen (fun _ _ => rfl)
      (Body.read declare closesBlock ts).rest

theorem readAround_relocate (h : Option.Rel (Declaration.Moves move) inner inner')
    (ts : List Token) :
    readAround (stop.relocate move) room inner' (ts.map (Token.relocate move)) =
      (readAround stop room inner ts).relocate move := by
  cases ts with
  | nil => rfl
  | cons t ts =>
    rw [List.map_cons, readAround, readAround, Token.kind_relocate]
    split
    · exact congrArg Attempt.simple (readDeclared_moves ts)
    · exact congrArg Attempt.simple (readClosed_moves .openPrint (fun _ => rfl) ts)
    · exact readBlock_relocate h ts
    · exact congrArg Attempt.simple
        (readClosed_moves .openExpression (fun _ => rfl) (t :: ts))

end Stmt

theorem Declaration.read_moves (stop : Token) (room : Nat) :
    Declaration.Moves move (Declaration.read stop room)
      (Declaration.read (stop.relocate move) room) := by
  induction room with
  | zero =>
    intro ts
    rw [read, read, Stmt.readAround_relocate .none, Attempt.declaration_relocate]
  | succ room ih =>
    intro ts
    rw [read, read, Stmt.readAround_relocate (.some ih), Attempt.declaration_relocate]

/-- Tokens that are moved to other lines spell the same program there. -/
theorem parseBody_relocate (stop : Token) (ts : List Token) :
    parseBody (stop.relocate move) (ts.map (Token.relocate move)) =
      (parseBody stop ts).relocate move :=
  Body.read_relocate (Declaration.read_moves stop maxNesting) (fun ts => by cases ts <;> rfl) ts

end SmallScript
