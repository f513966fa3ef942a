import SmallScript.Syntax.Reading
import SmallScript.Syntax.Tree

/-!
Reading expressions. Chains of binary operators fold to the left, prefix operators and assignments
to the right. Groupings, prefix operators and assignments nest, and so does each fold of a chain;
`room` is how many levels of nesting are left.
-/
namespace SmallScript

/-- The levels of binary operators, the loosest first. -/
inductive Level where
  | equality
  | comparison
  | sum
  | product
  deriving DecidableEq, Repr

/-- The level of a binary operator. -/
def Kind.level? : Kind → Option Level
  | .mark .equalEqual | .mark .bangEqual => some .equality
  | .mark .greater | .mark .greaterEqual | .mark .less | .mark .lessEqual => some .comparison
  | .mark .plus | .mark .minus => some .sum
  | .mark .slash | .mark .star => some .product
  | _ => none

/-- A prefix operator. -/
def Kind.isPrefix : Kind → Bool
  | .mark .bang | .mark .minus => true
  | _ => false

/-- The value that a token of this kind stands for in an expression. -/
def Kind.constant? : Kind → Option Value
  | .keyword .falseWord => some (.boolean false)
  | .keyword .trueWord => some (.boolean true)
  | .keyword .nilWord => some .nil
  | .number x => some (.number x)
  | .string s => some (.string s)
  | _ => none

/-- The rules that nest, for the same number of levels left. -/
structure ExprRules where
  expression : List Token → Reading Expr
  operand : List Token → Reading Expr

namespace ExprRules

/-- Read a phrase one level further in, where there is such a level. -/
def nested (stop : Token) (inner : Option ExprRules)
    (rule : ExprRules → List Token → Reading Expr) (ts : List Token) : Reading Expr :=
  match inner with
  | some rules => rule rules ts
  | none => .fail stop .tooDeep ts

/-- An operand of a binary operator: prefix operators, then a grouping, a name or a literal. -/
def operandAround (stop : Token) (inner : Option ExprRules) (ts : List Token) : Reading Expr :=
  match ts with
  | [] => .fail stop .missingExpression ts
  | t :: rest =>
    if t.kind.isPrefix then
      (nested stop inner operand rest).andThen fun e rest => .done (.unary t e) rest
    else
      match t.kind, t.kind.constant? with
      | .mark .leftParen, _ =>
        (nested stop inner expression rest).andThen fun e rest =>
          (Reading.mark stop .rightParen .openGrouping rest).andThen fun _ rest =>
            .done (.grouping e) rest
      | .identifier _, _ => .done (.var t) rest
      | _, some v => .done (.literal v) rest
      | _, none => .fail stop .missingExpression ts

/-- Fold the operators of one level to the left, at most `folds` of them. -/
def chain (stop : Token) (level : Level) (operand : List Token → Reading Expr) :
    Nat → Expr → List Token → Reading Expr
  | _, left, [] => .done left []
  | 0, left, op :: rest =>
    if op.kind.level? = some level then .fail stop .tooDeep (op :: rest)
    else .done left (op :: rest)
  | folds + 1, left, op :: rest =>
    if op.kind.level? = some level then
      (operand rest).andThen fun right rest =>
        chain stop level operand folds (.binary left op right) rest
    else .done left (op :: rest)

/-- Operands of one level with its operators between them. -/
def leftAssociative (stop : Token) (level : Level) (room : Nat)
    (operand : List Token → Reading Expr) (ts : List Token) : Reading Expr :=
  (operand ts).andThen (chain stop level operand room)

/-- An expression without an assignment outside its groupings. -/
def operation (stop : Token) (room : Nat) (operand : List Token → Reading Expr) :
    List Token → Reading Expr :=
  leftAssociative stop .equality room <| leftAssociative stop .comparison room <|
    leftAssociative stop .sum room <| leftAssociative stop .product room operand

/-- What follows the first operation of an expression: the value of an assignment, or nothing. -/
def assignmentAfter (stop : Token) (inner : Option ExprRules) (target : Expr) (ts : List Token) :
    Reading Expr :=
  match ts with
  | [] => .done target []
  | equals :: rest =>
    if equals.kind = .mark .equal then
      (nested stop inner expression rest).andThen fun value rest =>
        match target with
        | .var name => .done (.assign name value) rest
        | _ => .failed ⟨equals, .badTarget⟩ rest
    else .done target ts

/-- The rules around those of the next level in. -/
def around (stop : Token) (inner : Option ExprRules) (room : Nat) : ExprRules where
  operand := operandAround stop inner
  expression ts :=
    (operation stop room (operandAround stop inner) ts).andThen (assignmentAfter stop inner)

/-- The rules with this many levels left. -/
def withRoom (stop : Token) : Nat → ExprRules
  | 0 => around stop none 0
  | room + 1 => around stop (some (withRoom stop room)) (room + 1)

end ExprRules

/-- Read an expression with this many levels of nesting left. -/
def Expr.read (stop : Token) (room : Nat) : List Token → Reading Expr :=
  (ExprRules.withRoom stop room).expression

end SmallScript
