import SmallScript.Diagnostic
import SmallScript.Token

/-!
Reading a phrase from the front of a token list. A reading either gives the phrase or a fault, and
in both cases the tokens that are still to be read.
-/
namespace SmallScript

/-- What the grammar asked for and did not find. -/
inductive SyntaxCause where
  | missingExpression
  | missingName
  | badTarget
  | tooDeep
  | openGrouping
  | openBlock
  | openDeclaration
  | openPrint
  | openExpression
  deriving DecidableEq, Repr

def SyntaxCause.message : SyntaxCause → String
  | missingExpression => "Expect expression."
  | missingName => "Expect variable name."
  | badTarget => "Invalid assignment target."
  | tooDeep => "Too much nesting."
  | openGrouping => "Expect ')' after expression."
  | openBlock => "Expect '\x7d' after block."
  | openDeclaration => "Expect ';' after variable declaration."
  | openPrint => "Expect ';' after value."
  | openExpression => "Expect ';' after expression."

/-- A fault in the arrangement of tokens, and the token that shows it. -/
structure SyntaxFault where
  token : Token
  cause : SyntaxCause
  deriving DecidableEq, Repr

def SyntaxFault.diagnostic (f : SyntaxFault) : Diagnostic :=
  ⟨f.token.line, f.token.location, f.cause.message⟩

/-- The line that shows a fault in the syntax of a source that is not run. -/
def SyntaxFault.text (f : SyntaxFault) : String :=
  "[line " ++ toString f.token.line ++ "] Error" ++ f.token.location ++ ": " ++ f.cause.message

inductive Reading (α : Type) where
  | done (value : α) (rest : List Token)
  | failed (fault : SyntaxFault) (rest : List Token)
  deriving Repr

namespace Reading

/-- The tokens still to be read. -/
def rest : Reading α → List Token
  | done _ rest => rest
  | failed _ rest => rest

/-- Go on reading after a phrase, unless it failed. -/
def andThen (r : Reading α) (next : α → List Token → Reading β) : Reading β :=
  match r with
  | done value rest => next value rest
  | failed fault rest => failed fault rest

@[simp] theorem andThen_done (value : α) (rest : List Token)
    (next : α → List Token → Reading β) : (done value rest).andThen next = next value rest := rfl

@[simp] theorem andThen_failed (fault : SyntaxFault) (rest : List Token)
    (next : α → List Token → Reading β) :
    (failed fault rest : Reading α).andThen next = failed fault rest := rfl

@[simp] theorem rest_done (value : α) (ts : List Token) : (done value ts).rest = ts := rfl

@[simp] theorem rest_failed (fault : SyntaxFault) (ts : List Token) :
    (failed fault ts : Reading α).rest = ts := rfl

/-- A fault at the token to be read next, which is `stop` once all others are read. -/
def fail (stop : Token) (cause : SyntaxCause) (ts : List Token) : Reading α :=
  failed ⟨ts.headD stop, cause⟩ ts

/-- Read one mark. -/
def mark (stop : Token) (m : Mark) (cause : SyntaxCause) (ts : List Token) : Reading Token :=
  match ts with
  | t :: rest => if t.kind = .mark m then done t rest else fail stop cause ts
  | [] => fail stop cause ts

end Reading

end SmallScript
