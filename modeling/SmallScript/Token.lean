import SmallScript.Value

/-!
Tokens: what a piece of source text counts as, the text itself and the line it ends on.
-/
namespace SmallScript

/-- Punctuation and operators. -/
inductive Mark where
  | leftParen | rightParen | leftBrace | rightBrace
  | comma | dot | minus | plus | semicolon | slash | star
  | bang | bangEqual | equal | equalEqual
  | greater | greaterEqual | less | lessEqual
  deriving DecidableEq, Repr

namespace Mark

def all : List Mark :=
  [leftParen, rightParen, leftBrace, rightBrace, comma, dot, minus, plus, semicolon, slash, star,
    bang, bangEqual, equal, equalEqual, greater, greaterEqual, less, lessEqual]

def text : Mark → String
  | leftParen => "("
  | rightParen => ")"
  | leftBrace => "\x7b"
  | rightBrace => "\x7d"
  | comma => ","
  | dot => "."
  | minus => "-"
  | plus => "+"
  | semicolon => ";"
  | slash => "/"
  | star => "*"
  | bang => "!"
  | bangEqual => "!="
  | equal => "="
  | equalEqual => "=="
  | greater => ">"
  | greaterEqual => ">="
  | less => "<"
  | lessEqual => "<="

def name : Mark → String
  | leftParen => "LEFT_PAREN"
  | rightParen => "RIGHT_PAREN"
  | leftBrace => "LEFT_BRACE"
  | rightBrace => "RIGHT_BRACE"
  | comma => "COMMA"
  | dot => "DOT"
  | minus => "MINUS"
  | plus => "PLUS"
  | semicolon => "SEMICOLON"
  | slash => "SLASH"
  | star => "STAR"
  | bang => "BANG"
  | bangEqual => "BANG_EQUAL"
  | equal => "EQUAL"
  | equalEqual => "EQUAL_EQUAL"
  | greater => "GREATER"
  | greaterEqual => "GREATER_EQUAL"
  | less => "LESS"
  | lessEqual => "LESS_EQUAL"

theorem mem_all (m : Mark) : m ∈ all := by cases m <;> decide

end Mark

/-- The reserved words. Some have no use in the grammar yet, but none can be a name. -/
inductive Keyword where
  | andWord | classWord | elseWord | falseWord | forWord | funWord | ifWord | nilWord
  | orWord | printWord | returnWord | superWord | thisWord | trueWord | varWord | whileWord
  deriving DecidableEq, Repr

namespace Keyword

def all : List Keyword :=
  [andWord, classWord, elseWord, falseWord, forWord, funWord, ifWord, nilWord, orWord, printWord,
    returnWord, superWord, thisWord, trueWord, varWord, whileWord]

def text : Keyword → String
  | andWord => "and"
  | classWord => "class"
  | elseWord => "else"
  | falseWord => "false"
  | forWord => "for"
  | funWord => "fun"
  | ifWord => "if"
  | nilWord => "nil"
  | orWord => "or"
  | printWord => "print"
  | returnWord => "return"
  | superWord => "super"
  | thisWord => "this"
  | trueWord => "true"
  | varWord => "var"
  | whileWord => "while"

def name : Keyword → String
  | andWord => "AND"
  | classWord => "CLASS"
  | elseWord => "ELSE"
  | falseWord => "FALSE"
  | forWord => "FOR"
  | funWord => "FUN"
  | ifWord => "IF"
  | nilWord => "NIL"
  | orWord => "OR"
  | printWord => "PRINT"
  | returnWord => "RETURN"
  | superWord => "SUPER"
  | thisWord => "THIS"
  | trueWord => "TRUE"
  | varWord => "VAR"
  | whileWord => "WHILE"

theorem mem_all (k : Keyword) : k ∈ all := by cases k <;> decide

/-- The keyword spelled by a word, if it is reserved. -/
def ofText? (word : String) : Option Keyword := all.find? fun k => k.text == word

end Keyword

/-- What a token is. Names and literals carry what they stand for. -/
inductive Kind where
  | mark (m : Mark)
  | keyword (k : Keyword)
  | identifier (name : String)
  | string (contents : String)
  | number (value : Float)
  | stop
  deriving DecidableEq, Repr

namespace Kind

def name : Kind → String
  | mark m => m.name
  | keyword k => k.name
  | identifier _ => "IDENTIFIER"
  | string _ => "STRING"
  | number _ => "NUMBER"
  | stop => "EOF"

/-- A word is the keyword it spells, and a name if it spells none. -/
def ofWord (word : String) : Kind :=
  match Keyword.ofText? word with
  | some k => .keyword k
  | none => .identifier word

end Kind

structure Token where
  kind : Kind
  lexeme : String
  line : Nat
  deriving DecidableEq, Repr

namespace Token

/-- The token at the end of a source, on its last line. -/
def stop (line : Nat) : Token := ⟨.stop, "", line⟩

/-- The value of a number or string literal. -/
def literal? (t : Token) : Option Value :=
  match t.kind with
  | .number x => some (.number x)
  | .string s => some (.string s)
  | _ => none

/-- Where a message about this token points. -/
def location (t : Token) : String :=
  match t.kind with
  | .stop => " at end"
  | _ => " at '" ++ t.lexeme ++ "'"

/-- Kind, lexeme and literal, with `nil` for a token that is no literal. -/
def text (t : Token) : String :=
  t.kind.name ++ " " ++ t.lexeme ++ " " ++ (t.literal?.getD .nil).text

end Token
end SmallScript
