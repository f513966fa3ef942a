/-!
Command-line arguments: one flag, which may stand anywhere, and at most one script.
-/
namespace SmallScript

/-- What a command line asks for. -/
structure Options where
  /-- Print the parsed program instead of running it. -/
  dump : Bool
  /-- The script to run; without one, a prompt starts. -/
  script? : Option String
  deriving DecidableEq, Repr

/-- Why a command line leads to no run. -/
inductive Refusal where
  | help
  | version
  | unknownArgument (argument : String)
  | repeatedFlag
  deriving DecidableEq, Repr

namespace Options

/-- What the arguments read so far amount to. -/
structure Progress where
  flags : Nat
  script? : Option String
  /-- A lone `--` has been read, so that all further arguments are positional. -/
  onlyScripts : Bool

/-- The name of a long option: what stands between its dashes and an equals sign. -/
def longName (argument : List Char) : List Char :=
  (argument.dropWhile (· == '-')).takeWhile (· != '=')

/-- Read a positional argument. There is room for one. -/
def Progress.positional (p : Progress) (argument : String) : Except Refusal Progress :=
  match p.script? with
  | none => .ok { p with script? := some argument }
  | some _ => .error (.unknownArgument argument)

/-- Read an option that starts with two dashes. -/
def Progress.long (p : Progress) (argument : String) : Except Refusal Progress :=
  let name := String.ofList (longName argument.toList)
  if name = "ast" then .ok { p with flags := p.flags + 1 }
  else if name = "help" then .error .help
  else if name = "version" then .error .version
  else .error (.unknownArgument argument)

/-- Read one argument. Of a group of short options the first decides. -/
def Progress.read (p : Progress) (argument : String) : Except Refusal Progress :=
  if p.onlyScripts then p.positional argument
  else
    match argument.toList with
    | ['-', '-'] => .ok { p with onlyScripts := true }
    | '-' :: '-' :: _ => p.long argument
    | '-' :: 'h' :: _ => .error .help
    | '-' :: 'V' :: _ => .error .version
    | '-' :: _ :: _ => .error (.unknownArgument argument)
    | _ => p.positional argument

def Progress.readAll (p : Progress) : List String → Except Refusal Progress
  | [] => .ok p
  | argument :: rest =>
    match p.read argument with
    | .ok q => q.readAll rest
    | .error r => .error r

/-- Read the arguments after the name of the program. A repeated flag is refused last. -/
def read (arguments : List String) : Except Refusal Options :=
  match Progress.readAll ⟨0, none, false⟩ arguments with
  | .ok p => if p.flags ≤ 1 then .ok ⟨p.flags == 1, p.script?⟩ else .error .repeatedFlag
  | .error r => .error r

end Options
end SmallScript
