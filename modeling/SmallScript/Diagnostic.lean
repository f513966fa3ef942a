/-!
Messages about a program, in the one form in which they are reported.
-/
namespace SmallScript

/-- A message about a line of the source. The location may be empty. -/
structure Diagnostic where
  line : Nat
  location : String
  message : String
  deriving DecidableEq, Repr

/-- The line a message is reported as. -/
def Diagnostic.text (d : Diagnostic) : String :=
  "[line " ++ toString d.line ++ "] Error" ++ d.location ++ ": " ++ d.message

end SmallScript
