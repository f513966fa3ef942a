import SmallScript.CommandLine.Transcript

/-!
The program: reads files and the terminal, and writes what the transcripts say.
-/
namespace SmallScript

/-- Write a transcript and end with its code. -/
def finish (t : Transcript) : IO UInt32 := do
  (← IO.getStdout).putStr t.output
  (← IO.getStderr).putStr t.errors
  return t.code.toUInt32

/-- The bytes of a file, or why they cannot be read. -/
def readScript (name : String) : IO (Except ReadFault (List UInt8)) := do
  try
    let bytes ← IO.FS.readBinFile name
    return .ok bytes.toList
  catch
    | .noFileOrDirectory .. => return .error .notFound
    | .inappropriateType .. => return .error .isDirectory
    | fault => return .error (.other (toString fault))

/-- The bytes of the next line of a stream with its ending, after those already read, the latest
first. There are none at the end. -/
partial def readLine (stream : IO.FS.Stream) (back : List UInt8) : IO (List UInt8) := do
  match (← stream.read 1).toList with
  | [] => return back.reverse
  | b :: _ => if b = 10 then return (b :: back).reverse else readLine stream (b :: back)

/-- Answer lines until there are no more, or one is not text. -/
partial def prompt (dump : Bool) (s : Scope) : IO Unit := do
  let stdout ← IO.getStdout
  stdout.putStr Transcript.promptText
  stdout.flush
  match linesOf (← readLine (← IO.getStdin) []) with
  | [] => return
  | line :: _ =>
    let answer := Answer.toSource dump line s
    stdout.putStr (unlines answer.output)
    (← IO.getStderr).putStr (unlines answer.errors)
    prompt dump answer.scope

end SmallScript

def main (arguments : List String) : IO UInt32 := do
  match SmallScript.Options.read arguments with
  | .error refusal => SmallScript.finish refusal.transcript
  | .ok options =>
    match options.script? with
    | some name =>
      SmallScript.finish (.ofScript options.dump name (← SmallScript.readScript name))
    | none =>
      SmallScript.prompt options.dump .empty
      return 0
