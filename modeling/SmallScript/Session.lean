import SmallScript.Execution
import SmallScript.Source.Tokens
import SmallScript.Syntax.Statement

/-!
A session runs sources one after another in the same globals. What can be read of a source is run
even when some of it is faulty.
-/
namespace SmallScript

/-- A source as read: its statements, and the faults in its text and then in its syntax. -/
structure Script where
  program : List Stmt
  faults : List Diagnostic

namespace Script

def ofSource (source : String) : Script :=
  let text := tokenize source
  let parsed := parse text.tokens
  { program := parsed.program
    faults := text.faults.map LexicalFault.diagnostic ++ parsed.faults.map SyntaxFault.diagnostic }

/-- The statements in prefix form, one on a line. -/
def dump (s : Script) : List String := s.program.map Stmt.dump

end Script

/-- What is shown of a source that is only read: its statements, and its faults each in its own
words. -/
structure Listing where
  lines : List String
  faults : List String

def Listing.ofSource (source : String) : Listing :=
  let text := tokenize source
  { lines := (Script.ofSource source).dump
    faults := text.faults.map LexicalFault.text ++ (parse text.tokens).faults.map SyntaxFault.text }

/-- What went wrong in a run. -/
structure Status where
  hadError : Bool
  hadRuntimeError : Bool
  deriving DecidableEq, Repr

namespace ExitCode

/-- The command line makes no sense. -/
def usage : Nat := 64

/-- The script has faults in its text or syntax. -/
def syntaxError : Nat := 65

/-- The script cannot be read. -/
def noInput : Nat := 66

/-- The script failed while it ran. -/
def runtimeError : Nat := 70

end ExitCode

/-- The exit code that a run asks for. A fault in the source outweighs one in its execution. -/
def Status.exitCode? (s : Status) : Option Nat :=
  if s.hadError then some ExitCode.syntaxError
  else if s.hadRuntimeError then some ExitCode.runtimeError
  else none

/-- What a run prints and reports, and the scope it leaves behind. -/
structure Run where
  output : List String
  reports : List Diagnostic
  status : Status
  scope : Scope

/-- Run a source: report all its faults, then execute what was read. -/
def run (source : String) (s : Scope) : Run :=
  let script := Script.ofSource source
  let x := executeAll script.program s
  { output := x.output
    reports := script.faults ++ (x.fault?.map Fault.diagnostic).toList
    status := ⟨!script.faults.isEmpty, x.fault?.isSome⟩
    scope := x.scope }

/-- Run sources in turn, each in the scope that the one before leaves behind. -/
def runAll : List String → Scope → List Run
  | [], _ => []
  | source :: rest, s =>
    let first := run source s
    first :: runAll rest first.scope

end SmallScript
