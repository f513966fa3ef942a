import SmallScript.Diagnostic
import SmallScript.Token

/-!
What can go wrong while a program runs.
-/
namespace SmallScript

/-- What an operator asks of its operands. -/
inductive OperandCause where
  | number
  | numbers
  | numbersOrStrings
  deriving DecidableEq, Repr

def OperandCause.message : OperandCause → String
  | number => "Operand must be a number."
  | numbers => "Operands must be numbers."
  | numbersOrStrings => "Operands must be two numbers or two strings."

/-- What ends an evaluation early. -/
inductive Fault where
  | operand (operator : Token) (cause : OperandCause)
  | undefined (name : Token)
  /-- A token that is no operator in its place. No program that is read from source has one. -/
  | unknownOperator (operator : Token)
  deriving DecidableEq, Repr

namespace Fault

/-- The token at which the fault arose. -/
def token : Fault → Token
  | operand op _ => op
  | undefined name => name
  | unknownOperator op => op

def message : Fault → String
  | operand _ cause => cause.message
  | undefined name => "Undefined variable '" ++ name.lexeme ++ "'."
  | unknownOperator op => "Unknown operator '" ++ op.lexeme ++ "'."

def diagnostic (f : Fault) : Diagnostic :=
  ⟨f.token.line, " at '" ++ f.token.lexeme ++ "'", f.message⟩

end Fault

end SmallScript
