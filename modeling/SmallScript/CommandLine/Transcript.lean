import SmallScript.CommandLine.Arguments
import SmallScript.CommandLine.Lines
import SmallScript.Session

/-!
What the program writes and how it ends, for a script and at the prompt.
-/
namespace SmallScript

/-- What a process writes to its two outputs, and its exit code. -/
structure Transcript where
  output : String
  errors : String
  code : Nat
  deriving DecidableEq, Repr

/-- Why a script cannot be read. -/
inductive ReadFault where
  | notFound
  | isDirectory
  | notText
  | other (reason : String)
  deriving DecidableEq, Repr

def ReadFault.message : ReadFault → String
  | notFound => "No such file or directory (os error 2)"
  | isDirectory => "Is a directory (os error 21)"
  | notText => "stream did not contain valid UTF-8"
  | other reason => reason

/-- The lines written for one source, the exit code it asks for, and the scope left behind. -/
structure Answer where
  output : List String
  errors : List String
  code? : Option Nat
  scope : Scope

/-- Run a source, or only print what was read of it. -/
def Answer.toSource (dump : Bool) (source : String) (s : Scope) : Answer :=
  if dump then
    let listing := Listing.ofSource source
    { output := listing.lines
      errors := listing.faults
      code? := if listing.faults.isEmpty then none else some ExitCode.syntaxError
      scope := s }
  else
    let r := run source s
    { output := r.output
      errors := r.reports.map Diagnostic.text
      code? := r.status.exitCode?
      scope := r.scope }

namespace Transcript

/-- The transcript of a script, given its bytes or why there are none. -/
def ofScript (dump : Bool) (name : String) (contents : Except ReadFault (List UInt8)) :
    Transcript :=
  let text := contents.bind fun bytes =>
    match decodeText? bytes with
    | some text => .ok text
    | none => .error .notText
  match text with
  | .error fault =>
    ⟨"", "Could not read '" ++ name ++ "': " ++ fault.message ++ "\n", ExitCode.noInput⟩
  | .ok source =>
    let answer := Answer.toSource dump source .empty
    ⟨unlines answer.output, unlines answer.errors, answer.code?.getD 0⟩

/-- What the prompt writes before it reads a line. -/
def promptText : String := "> "

/-- The transcript of a prompt that is given these lines, from a scope on. The last prompt stays
without an answer. -/
def ofPrompt (dump : Bool) : List String → Scope → Transcript
  | [], _ => ⟨promptText, "", 0⟩
  | line :: rest, s =>
    let answer := Answer.toSource dump line s
    let others := ofPrompt dump rest answer.scope
    ⟨promptText ++ unlines answer.output ++ others.output,
      unlines answer.errors ++ others.errors, others.code⟩

end Transcript

namespace Refusal

def helpText : String := unlines [
  "treelox ",
  "Tree-walking interpreter for a small scripting language",
  "",
  "USAGE:",
  "    treelox [FLAGS] [script]",
  "",
  "FLAGS:",
  "        --ast        Print the parsed program instead of running it",
  "    -h, --help       Prints help information",
  "    -V, --version    Prints version information",
  "",
  "ARGS:",
  "    <script>    Script to run; starts a prompt when omitted"]

def versionText : String := "treelox \n"

/-- What the program writes instead of running. -/
def transcript : Refusal → Transcript
  | help => ⟨helpText, "", 0⟩
  | version => ⟨versionText, "", 0⟩
  | unknownArgument a => ⟨"", "error: unexpected argument '" ++ a ++ "'\n", ExitCode.usage⟩
  | repeatedFlag => ⟨"", "error: the argument '--ast' cannot be repeated\n", ExitCode.usage⟩

end Refusal

/-- The transcript of a process, given what each file holds and the bytes on its input. -/
def Transcript.ofProcess (arguments : List String)
    (contents : String → Except ReadFault (List UInt8)) (input : List UInt8) : Transcript :=
  match Options.read arguments with
  | .error refusal => refusal.transcript
  | .ok options =>
    match options.script? with
    | some name => .ofScript options.dump name (contents name)
    | none => .ofPrompt options.dump (linesOf input) .empty

end SmallScript
