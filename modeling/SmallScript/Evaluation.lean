import SmallScript.Scope
import SmallScript.Syntax.Tree

/-!
Evaluation of expressions: operands from left to right before their operator, in a scope that
assignments change as they are met. A fault ends evaluation but undoes nothing.
-/
namespace SmallScript

/-- Apply a prefix operator. -/
def applyUnary (op : Token) (v : Value) : Except Fault Value :=
  match op.kind, v with
  | .mark .minus, .number x => .ok (.number (-x))
  | .mark .minus, _ => .error (.operand op .number)
  | .mark .bang, v => .ok (.boolean !v.isTruthy)
  | _, _ => .error (.unknownOperator op)

/-- Apply an operation on numbers. -/
def applyNumeric (op : Token) (f : Float → Float → Value) (l r : Value) : Except Fault Value :=
  match l, r with
  | .number x, .number y => .ok (f x y)
  | _, _ => .error (.operand op .numbers)

/-- Add numbers or join strings. -/
def applyPlus (op : Token) (l r : Value) : Except Fault Value :=
  match l, r with
  | .number x, .number y => .ok (.number (x + y))
  | .string s, .string t => .ok (.string (s ++ t))
  | _, _ => .error (.operand op .numbersOrStrings)

/-- Apply a binary operator. -/
def applyBinary (op : Token) (l r : Value) : Except Fault Value :=
  match op.kind with
  | .mark .equalEqual => .ok (.boolean (l.equals r))
  | .mark .bangEqual => .ok (.boolean !l.equals r)
  | .mark .plus => applyPlus op l r
  | .mark .minus => applyNumeric op (fun x y => .number (x - y)) l r
  | .mark .slash => applyNumeric op (fun x y => .number (x / y)) l r
  | .mark .star => applyNumeric op (fun x y => .number (x * y)) l r
  | .mark .greater => applyNumeric op (fun x y => .boolean (decide (y < x))) l r
  | .mark .greaterEqual => applyNumeric op (fun x y => .boolean (decide (y ≤ x))) l r
  | .mark .less => applyNumeric op (fun x y => .boolean (decide (x < y))) l r
  | .mark .lessEqual => applyNumeric op (fun x y => .boolean (decide (x ≤ y))) l r
  | _ => .error (.unknownOperator op)

/-- The outcome of an evaluation, and the scope it leaves behind. -/
structure Evaluation where
  result : Except Fault Value
  scope : Scope

def evaluate : Expr → Scope → Evaluation
  | .literal v, s => ⟨.ok v, s⟩
  | .grouping e, s => evaluate e s
  | .unary op e, s =>
    let operand := evaluate e s
    match operand.result with
    | .ok v => ⟨applyUnary op v, operand.scope⟩
    | .error f => ⟨.error f, operand.scope⟩
  | .binary l op r, s =>
    let left := evaluate l s
    match left.result with
    | .ok v =>
      let right := evaluate r left.scope
      match right.result with
      | .ok w => ⟨applyBinary op v w, right.scope⟩
      | .error f => ⟨.error f, right.scope⟩
    | .error f => ⟨.error f, left.scope⟩
  | .var name, s => ⟨s.lookup name, s⟩
  | .assign name e, s =>
    let value := evaluate e s
    match value.result with
    | .ok v =>
      match value.scope.assign name v with
      | .ok t => ⟨.ok v, t⟩
      | .error f => ⟨.error f, value.scope⟩
    | .error f => ⟨.error f, value.scope⟩

end SmallScript
