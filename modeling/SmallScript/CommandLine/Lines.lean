/-!
Lines of text in a run of bytes. A line ends at a newline byte, whatever the bytes before it mean.
-/
namespace SmallScript

/-- The text that bytes encode, if they are UTF-8. -/
def decodeText? (bytes : List UInt8) : Option String :=
  String.fromUTF8? ⟨bytes.toArray⟩

/-- Bytes cut after every newline. -/
def cutLines : List UInt8 → List (List UInt8)
  | [] => []
  | b :: rest =>
    if b = 10 then [b] :: cutLines rest
    else
      match cutLines rest with
      | [] => [[b]]
      | line :: lines => (b :: line) :: lines

/-- A line without its ending: a newline, and a carriage return before it. -/
def dropEnding (line : String) : String :=
  match line.toList.reverse with
  | '\n' :: '\r' :: back => String.ofList back.reverse
  | '\n' :: back => String.ofList back.reverse
  | _ => line

/-- The lines up to the first that is not text. -/
def decodeLines : List (List UInt8) → List String
  | [] => []
  | line :: lines =>
    match decodeText? line with
    | some text => dropEnding text :: decodeLines lines
    | none => []

/-- The lines that can be read from bytes. -/
def linesOf (bytes : List UInt8) : List String := decodeLines (cutLines bytes)

/-- Lines as text, each with a newline after it. -/
def unlines (lines : List String) : String :=
  lines.foldr (fun line text => line ++ "\n" ++ text) ""

end SmallScript
