import SmallScript.Token

/-!
Syntax trees. Operators and names are kept as tokens, so that a fault can say where it arose.
-/
namespace SmallScript

inductive Expr where
  | literal (value : Value)
  | grouping (inner : Expr)
  | unary (operator : Token) (operand : Expr)
  | binary (left : Expr) (operator : Token) (right : Expr)
  | var (name : Token)
  | assign (name : Token) (value : Expr)
  deriving DecidableEq, Repr

inductive Stmt where
  | print (value : Expr)
  | expression (value : Expr)
  /-- A declaration; without an initializer the name stands for `nil`. -/
  | declare (name : Token) (initializer : Option Expr)
  | block (body : List Stmt)
  deriving Repr

namespace Expr

/-- The tree in prefix form, each node in parentheses. -/
def dump : Expr → String
  | literal v => v.text
  | grouping e => "(group " ++ e.dump ++ ")"
  | unary op e => "(" ++ op.lexeme ++ " " ++ e.dump ++ ")"
  | binary l op r => "(" ++ op.lexeme ++ " " ++ l.dump ++ " " ++ r.dump ++ ")"
  | var name => name.lexeme
  | assign name e => "(assign " ++ name.lexeme ++ " " ++ e.dump ++ ")"

end Expr

mutual

/-- The tree in prefix form, each node in parentheses. -/
def Stmt.dump : Stmt → String
  | .print e => "(print " ++ e.dump ++ ")"
  | .expression e => "(expr " ++ e.dump ++ ")"
  | .declare name (some e) => "(var " ++ name.lexeme ++ " " ++ e.dump ++ ")"
  | .declare name none => "(var " ++ name.lexeme ++ ")"
  | .block body => "(block" ++ Stmt.dumpAll body ++ ")"

/-- Statements in prefix form, each after a space. -/
def Stmt.dumpAll : List Stmt → String
  | [] => ""
  | s :: rest => " " ++ s.dump ++ Stmt.dumpAll rest

end

end SmallScript
