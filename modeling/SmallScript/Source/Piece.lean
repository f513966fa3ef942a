import SmallScript.Token

/-!
Source text cut into pieces by longest match: layout, comments, lexemes, and what is neither.
Nothing is dropped, so the pieces of a source spell it again.
-/
namespace SmallScript

inductive Piece where
  | blank (c : Char)
  | newline
  /-- Two slashes and the rest of the line, less the newline. -/
  | comment (body : List Char)
  | lexeme (kind : Kind) (spelling : List Char)
  /-- A character that can start nothing. -/
  | stray (c : Char)
  /-- A quote with no other after it, and all that follows. -/
  | unclosed (body : List Char)
  deriving DecidableEq, Repr

namespace Piece

def spelling : Piece → List Char
  | blank c => [c]
  | newline => ['\n']
  | comment body => '/' :: '/' :: body
  | lexeme _ spelling => spelling
  | stray c => [c]
  | unclosed body => '"' :: body

/-- The lines by which a piece moves on: one for a newline, and one for each newline that a string
goes over. -/
def breaks : Piece → Nat
  | newline => 1
  | lexeme (.string contents) _ => contents.toList.count '\n'
  | unclosed body => body.count '\n'
  | _ => 0

end Piece

/-- Layout other than a newline. -/
def isBlank (c : Char) : Bool := c == ' ' || c == '\r' || c == '\t'

/-- The characters a name may start with: letters of the Latin alphabet and the underscore. -/
def startsName (c : Char) : Bool := c.isAlpha || c == '_'

/-- The characters a name may go on with. -/
def continuesName (c : Char) : Bool := c.isAlphanum || c == '_'

/-- The mark that a character is on its own. -/
def Mark.ofChar? (c : Char) : Option Mark := Mark.all.find? fun m => m.text.toList == [c]

/-- The mark that this one becomes when an equals sign follows. -/
def Mark.withEqual? : Mark → Option Mark
  | bang => some bangEqual
  | equal => some equalEqual
  | greater => some greaterEqual
  | less => some lessEqual
  | _ => none

/-- Cut after an opening quote. -/
def cutString (rest : List Char) : Piece × List Char :=
  match rest.dropWhile (· != '"') with
  | [] => (.unclosed rest, [])
  | _ :: after =>
    let contents := rest.takeWhile (· != '"')
    (.lexeme (.string (String.ofList contents)) ('"' :: contents ++ ['"']), after)

/-- Cut a number that starts with the digit `c`. A point belongs to it if a digit follows. -/
def cutNumber (c : Char) (rest : List Char) : Piece × List Char :=
  let whole := c :: rest.takeWhile Char.isDigit
  let number (spelling fraction : List Char) : Piece :=
    .lexeme (.number (Decimal.ofDigits whole fraction).toFloat) spelling
  match rest.dropWhile Char.isDigit with
  | '.' :: d :: after =>
    if d.isDigit then
      let fraction := d :: after.takeWhile Char.isDigit
      (number (whole ++ '.' :: fraction) fraction, after.dropWhile Char.isDigit)
    else (number whole [], '.' :: d :: after)
  | after => (number whole [], after)

/-- Cut a word that starts with the character `c`. -/
def cutWord (c : Char) (rest : List Char) : Piece × List Char :=
  let word := c :: rest.takeWhile continuesName
  (.lexeme (.ofWord (String.ofList word)) word, rest.dropWhile continuesName)

/-- Cut a mark that starts with the character `c`, of which it is a mark by itself. -/
def cutMark (m : Mark) (c : Char) (rest : List Char) : Piece × List Char :=
  match m.withEqual?, rest with
  | some m', '=' :: after => (.lexeme (.mark m') [c, '='], after)
  | _, _ => (.lexeme (.mark m) [c], rest)

/-- The first piece of a source that starts with `c`, and the source after it. -/
def cut (c : Char) (rest : List Char) : Piece × List Char :=
  if c = '\n' then (.newline, rest)
  else if isBlank c then (.blank c, rest)
  else if c = '"' then cutString rest
  else if c.isDigit then cutNumber c rest
  else if startsName c then cutWord c rest
  else
    match c, rest with
    | '/', '/' :: line => (.comment (line.takeWhile (· != '\n')), line.dropWhile (· != '\n'))
    | _, _ =>
      match Mark.ofChar? c with
      | some m => cutMark m c rest
      | none => (.stray c, rest)

theorem cutString_spelling (rest : List Char) :
    (cutString rest).1.spelling ++ (cutString rest).2 = '"' :: rest := by
  have h := List.takeWhile_append_dropWhile (p := (· != '"')) (l := rest)
  unfold cutString
  split
  · simp [Piece.spelling]
  · next q after he =>
    have hq : q = '"' := by
      have := List.head?_dropWhile_not (· != '"') rest
      simpa [he] using this
    subst hq
    rw [he] at h
    simpa [Piece.spelling] using h

theorem cutNumber_spelling (c : Char) (rest : List Char) :
    (cutNumber c rest).1.spelling ++ (cutNumber c rest).2 = c :: rest := by
  have h := List.takeWhile_append_dropWhile (p := Char.isDigit) (l := rest)
  unfold cutNumber
  split
  · next d after he =>
    rw [he] at h
    split <;> simp [Piece.spelling, h]
  · simp [Piece.spelling, h]

theorem cutWord_spelling (c : Char) (rest : List Char) :
    (cutWord c rest).1.spelling ++ (cutWord c rest).2 = c :: rest := by
  simp [cutWord, Piece.spelling]

theorem cutMark_spelling (m : Mark) (c : Char) (rest : List Char) :
    (cutMark m c rest).1.spelling ++ (cutMark m c rest).2 = c :: rest := by
  unfold cutMark
  split <;> simp [Piece.spelling]

/-- Cutting loses nothing. -/
theorem cut_spelling (c : Char) (rest : List Char) :
    (cut c rest).1.spelling ++ (cut c rest).2 = c :: rest := by
  unfold cut
  split
  · next h => simp [Piece.spelling, h]
  split
  · simp [Piece.spelling]
  split
  · next h => rw [h]; exact cutString_spelling rest
  split
  · exact cutNumber_spelling c rest
  split
  · exact cutWord_spelling c rest
  split
  · simp [Piece.spelling]
  split
  · exact cutMark_spelling _ c rest
  · simp [Piece.spelling]

/-- No piece is empty. -/
theorem cut_spelling_ne_nil (c : Char) (rest : List Char) : (cut c rest).1.spelling ≠ [] := by
  unfold cut cutString cutNumber cutWord cutMark
  repeat' split
  all_goals simp [Piece.spelling]

theorem cut_rest_length (c : Char) (rest : List Char) :
    (cut c rest).2.length < (c :: rest).length := by
  have h := congrArg List.length (cut_spelling c rest)
  have := List.length_pos_iff.mpr (cut_spelling_ne_nil c rest)
  simp only [List.length_append] at h
  omega

/-- The pieces of a source. -/
def pieces : List Char → List Piece
  | [] => []
  | c :: rest => (cut c rest).1 :: pieces (cut c rest).2
termination_by source => source.length
decreasing_by exact cut_rest_length c rest

@[simp] theorem pieces_nil : pieces [] = [] := by rw [pieces]

theorem pieces_cons (c : Char) (rest : List Char) :
    pieces (c :: rest) = (cut c rest).1 :: pieces (cut c rest).2 := by rw [pieces]

end SmallScript
