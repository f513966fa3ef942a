import SmallScript.Syntax.Expression

/-!
Reading statements and programs. A declaration that fails is left out; its fault is kept, and
reading resumes after the next semicolon or at the next word that starts a statement.
-/
namespace SmallScript

/-- The most levels of nesting that a program may have at any place. -/
def maxNesting : Nat := 200

/-- The words at which a statement may start, whatever stands before them. -/
def Kind.startsStatement : Kind → Bool
  | .keyword .classWord | .keyword .funWord | .keyword .varWord | .keyword .forWord
  | .keyword .ifWord | .keyword .whileWord | .keyword .printWord | .keyword .returnWord => true
  | _ => false

/-- The tokens from which reading resumes, given the token dropped last. -/
def resumeAfter (dropped : Token) : List Token → List Token
  | [] => []
  | t :: rest =>
    if dropped.kind = .mark .semicolon ∨ t.kind.startsStatement then t :: rest
    else resumeAfter t rest

/-- The tokens from which reading resumes after a fault. At least one token is dropped. -/
def recover : List Token → List Token
  | [] => []
  | t :: rest => resumeAfter t rest

/-- The outcome of reading a statement, and the faults of the declarations within it. -/
structure Attempt where
  reading : Reading Stmt
  recovered : List SyntaxFault

/-- The outcome of reading a declaration: a statement or none, all faults met, and the rest. -/
structure Declaration where
  statement? : Option Stmt
  faults : List SyntaxFault
  rest : List Token

/-- The outcome of reading a sequence of declarations. -/
structure Body where
  statements : List Stmt
  faults : List SyntaxFault
  rest : List Token

namespace Attempt

/-- A statement without declarations within it. -/
def simple (reading : Reading Stmt) : Attempt := ⟨reading, []⟩

/-- Recover from a statement that failed. -/
def declaration (a : Attempt) : Declaration :=
  match a.reading with
  | .done s rest => ⟨some s, a.recovered, rest⟩
  | .failed fault rest => ⟨none, a.recovered ++ [fault], recover rest⟩

end Attempt

/-- The tokens end, or the next one closes a block. -/
def closesBlock : List Token → Bool
  | [] => true
  | t :: _ => t.kind == .mark .rightBrace

namespace Body

/-- No declarations before these tokens. -/
def empty (ts : List Token) : Body := ⟨[], [], ts⟩

/-- A declaration and then the others. -/
def cons (first : Declaration) (others : Body) : Body :=
  ⟨first.statement?.toList ++ others.statements, first.faults ++ others.faults, others.rest⟩

/-- Read at most `n` declarations, up to where `ends` holds. -/
def readUpTo (declare : List Token → Declaration) (ends : List Token → Bool) :
    Nat → List Token → Body
  | 0, ts => empty ts
  | n + 1, ts =>
    if ends ts then empty ts
    else
      let first := declare ts
      cons first (readUpTo declare ends n first.rest)

/-- Read declarations up to where `ends` holds. No sequence has more declarations than tokens. -/
def read (declare : List Token → Declaration) (ends : List Token → Bool) (ts : List Token) :
    Body :=
  readUpTo declare ends ts.length ts

end Body

namespace Stmt

/-- Read an expression and the semicolon after it. -/
def readClosed (stop : Token) (room : Nat) (cause : SyntaxCause) (build : Expr → Stmt)
    (ts : List Token) : Reading Stmt :=
  (Expr.read stop room ts).andThen fun e rest =>
    (Reading.mark stop .semicolon cause rest).andThen fun _ rest => .done (build e) rest

/-- Read what follows the name in a declaration. -/
def readInitializer (stop : Token) (room : Nat) (name : Token) (ts : List Token) : Reading Stmt :=
  match ts with
  | [] => .fail stop .openDeclaration ts
  | t :: rest =>
    if t.kind = .mark .equal then
      readClosed stop room .openDeclaration (fun e => .declare name (some e)) rest
    else
      (Reading.mark stop .semicolon .openDeclaration ts).andThen fun _ rest =>
        .done (.declare name none) rest

/-- Read what follows the word that starts a declaration. -/
def readDeclared (stop : Token) (room : Nat) (ts : List Token) : Reading Stmt :=
  match ts with
  | [] => .fail stop .missingName ts
  | t :: rest =>
    match t.kind with
    | .identifier _ => readInitializer stop room t rest
    | _ => .fail stop .missingName ts

/-- Read what follows the brace that opens a block. -/
def readBlock (stop : Token) (declare : Option (List Token → Declaration)) (ts : List Token) :
    Attempt :=
  match declare with
  | none => .simple (.fail stop .tooDeep ts)
  | some declare =>
    let body := Body.read declare closesBlock ts
    { reading := (Reading.mark stop .rightBrace .openBlock body.rest).andThen fun _ rest =>
        .done (.block body.statements) rest
      recovered := body.faults }

/-- Read a statement, given how declarations are read one level further in. -/
def readAround (stop : Token) (room : Nat) (declare : Option (List Token → Declaration))
    (ts : List Token) : Attempt :=
  match ts with
  | [] => .simple (.fail stop .missingExpression ts)
  | t :: rest =>
    match t.kind with
    | .keyword .varWord => .simple (readDeclared stop room rest)
    | .keyword .printWord => .simple (readClosed stop room .openPrint .print rest)
    | .mark .leftBrace => readBlock stop declare rest
    | _ => .simple (readClosed stop room .openExpression .expression ts)

end Stmt

/-- Read a declaration with this many levels of nesting left. -/
def Declaration.read (stop : Token) : Nat → List Token → Declaration
  | 0, ts => (Stmt.readAround stop 0 none ts).declaration
  | room + 1, ts =>
    (Stmt.readAround stop (room + 1) (some (Declaration.read stop room)) ts).declaration

/-- The outcome of reading a program. -/
structure Parsed where
  program : List Stmt
  faults : List SyntaxFault

/-- Read the declarations before the end of a token list, the stop token there being `stop`. -/
def parseBody (stop : Token) (ts : List Token) : Body :=
  Body.read (Declaration.read stop maxNesting) List.isEmpty ts

/-- Read a program. A token list ends at its first stop token; without one, it ends as it is. -/
def parse (ts : List Token) : Parsed :=
  let body := parseBody ((ts.find? fun t => t.kind == .stop).getD (.stop 1))
    (ts.takeWhile fun t => t.kind != .stop)
  ⟨body.statements, body.faults⟩

end SmallScript
