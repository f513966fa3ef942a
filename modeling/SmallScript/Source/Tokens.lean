import SmallScript.Diagnostic
import SmallScript.Source.Piece

/-!
The tokens of a source and the faults in its text, each with the line on which its piece ends.
-/
namespace SmallScript

/-- What makes a piece of text no part of the language. -/
inductive LexicalCause where
  | unexpectedCharacter
  | unterminatedString
  deriving DecidableEq, Repr

def LexicalCause.message : LexicalCause → String
  | unexpectedCharacter => "Unexpected character."
  | unterminatedString => "Unterminated string."

structure LexicalFault where
  cause : LexicalCause
  line : Nat
  deriving DecidableEq, Repr

/-- A fault in the text is reported by its line alone. -/
def LexicalFault.diagnostic (f : LexicalFault) : Diagnostic := ⟨f.line, "", f.cause.message⟩

/-- The line that shows a fault in the text of a source that is not run. -/
def LexicalFault.text (f : LexicalFault) : String :=
  "[line " ++ toString f.line ++ "] Error: " ++ f.cause.message

namespace Piece

/-- The token of a piece that ends on a line. -/
def token? (line : Nat) : Piece → Option Token
  | lexeme kind spelling => some ⟨kind, String.ofList spelling, line⟩
  | _ => none

/-- The fault in a piece that ends on a line. -/
def fault? (line : Nat) : Piece → Option LexicalFault
  | stray _ => some ⟨.unexpectedCharacter, line⟩
  | unclosed _ => some ⟨.unterminatedString, line⟩
  | _ => none

end Piece

/-- The outcome of reading a source text. The tokens end with a stop token. -/
structure Tokenized where
  tokens : List Token
  faults : List LexicalFault
  deriving DecidableEq, Repr

/-- The tokens and faults of pieces, read from the given line on. What a piece gives is on the line
that the piece leads to, and the stop token is on the line that they all lead to. -/
def Piece.scan (line : Nat) : List Piece → Tokenized
  | [] => ⟨[.stop line], []⟩
  | p :: ps =>
    let line := line + p.breaks
    let rest := scan line ps
    { tokens := (p.token? line).toList ++ rest.tokens
      faults := (p.fault? line).toList ++ rest.faults }

/-- The tokens and faults of a source. A fault costs only its own piece. -/
def tokenize (source : String) : Tokenized := Piece.scan 1 (pieces source.toList)

end SmallScript
