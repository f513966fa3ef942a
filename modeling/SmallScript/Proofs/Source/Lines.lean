import Mathlib.Data.List.Basic
import SmallScript.Proofs.Source.Tiling

/-!
Lines of a source. A source is read with one running line, which newlines and strings move on. A
token or a fault is put on the running line, and that is the line of the source on which its piece
ends.
-/
namespace SmallScript

/-- The line on which a text ends that starts on the first line. -/
def lastLine (text : List Char) : Nat := 1 + text.count '\n'

theorem lastLine_append (front text : List Char) :
    lastLine (front ++ text) = lastLine front + text.count '\n' := by
  rw [lastLine, lastLine, List.count_append, Nat.add_assoc]

theorem lastLine_mono {front text : List Char} (h : front <+: text) :
    lastLine front ≤ lastLine text := by
  obtain ⟨rest, rfl⟩ := h
  rw [lastLine_append]
  exact Nat.le_add_right _ _

namespace Piece

theorem count_newline_of_continuesName {w : List Char} (h : ∀ c ∈ w, c.isAlphanum ∨ c = '_') :
    w.count '\n' = 0 :=
  List.count_eq_zero.mpr fun hn => absurd (h _ hn) (by decide)

theorem count_newline_of_isDigits {w : List Char} (h : IsDigits w) : w.count '\n' = 0 :=
  List.count_eq_zero.mpr fun hn => absurd (h.2 _ hn) (by decide)

/-- A piece moves on by the newlines in its text, all of them and each once. -/
theorem WellFormed.count_spelling {p : Piece} (h : p.WellFormed) :
    p.spelling.count '\n' = p.breaks := by
  cases p with
  | newline => rfl
  | blank c =>
    obtain rfl | rfl | rfl : c = ' ' ∨ c = '\r' ∨ c = '\t' := by simpa [WellFormed] using h
    all_goals rfl
  | comment body =>
    have hb : body.count '\n' = 0 := List.count_eq_zero.mpr h
    simp [spelling, breaks, hb]
  | stray c =>
    have hc : c ≠ '\n' := fun hc => h.layout (by simp [hc])
    simp [spelling, breaks, hc]
  | unclosed body => simp [spelling, breaks]
  | lexeme kind spelling =>
    cases h with
    | mark m => cases m <;> rfl
    | keyword k => cases k <;> rfl
    | name hw => exact count_newline_of_continuesName hw.2
    | string => simp [Piece.spelling, breaks, List.count_append]
    | whole hw => exact count_newline_of_isDigits hw
    | fraction hw hf =>
      simp [Piece.spelling, breaks, List.count_append, count_newline_of_isDigits hw,
        count_newline_of_isDigits hf]

/-- From the line on which a text ends, a piece behind it leads to the line on which it ends. -/
theorem WellFormed.lastLine_add {p : Piece} (h : p.WellFormed) (before : List Char) :
    lastLine before + p.breaks = lastLine (before ++ p.spelling) := by
  rw [lastLine_append, h.count_spelling]

/-- The running line is the line on which the text ends that has been read. -/
theorem lineAfter_lastLine {ps : List Piece} (h : ∀ p ∈ ps, p.WellFormed) (before : List Char) :
    lineAfter (lastLine before) ps = lastLine (before ++ ps.flatMap spelling) := by
  induction ps generalizing before with
  | nil => rw [lineAfter, List.flatMap_nil, List.append_nil]
  | cons p ps ih =>
    obtain ⟨hp, hps⟩ := List.forall_mem_cons.mp h
    rw [lineAfter, hp.lastLine_add, ih hps, List.flatMap_cons, List.append_assoc]

end Piece

theorem Tiles.lineAfter_eq {ps : List Piece} {source : List Char} (h : Tiles ps source) :
    Piece.lineAfter 1 ps = lastLine source :=
  (Piece.lineAfter_lastLine h.wellFormed []).trans (congrArg lastLine h.spelled)

/-- The tokens of a source before the stop token. -/
def lexemes (source : String) : List Token := Piece.found Piece.token? 1 (pieces source.toList)

theorem tokens_tokenize (source : String) :
    (tokenize source).tokens = lexemes source ++ [.stop (lastLine source.toList)] := by
  rw [tokenize, Piece.tokens_scan, (tiles_pieces source.toList).lineAfter_eq]
  rfl

theorem faults_tokenize (source : String) :
    (tokenize source).faults = Piece.found Piece.fault? 1 (pieces source.toList) :=
  Piece.faults_scan 1 _

theorem Tiles.lexemes_eq {ps : List Piece} {source : String} (h : Tiles ps source.toList) :
    lexemes source = Piece.found Piece.token? 1 ps := by
  rw [h.eq_pieces]
  rfl

/-- A source in pieces that are all part of the language has no faults in its text. -/
theorem Tiles.faults_eq_nil {ps : List Piece} {source : String} (h : Tiles ps source.toList)
    (hm : ps.filterMap Piece.message? = []) : (tokenize source).faults = [] := by
  rw [faults_tokenize, ← h.eq_pieces]
  rw [← Piece.map_found Piece.map_fault? 1 ps, List.map_eq_nil_iff] at hm
  exact hm

/-- A piece where it stands in a text. -/
structure Placed where
  before : List Char
  piece : Piece

/-- The text up to the end of the piece. -/
def Placed.through (x : Placed) : List Char := x.before ++ x.piece.spelling

namespace Piece

/-- Pieces one after another, the first of them behind the given text. -/
def placed (before : List Char) : List Piece → List Placed
  | [] => []
  | p :: ps => ⟨before, p⟩ :: placed (before ++ p.spelling) ps

/-- What is found in pieces, by the text up to the end of each. -/
theorem found_lastLine (of : Nat → Piece → Option α) {ps : List Piece}
    (h : ∀ p ∈ ps, p.WellFormed) (before : List Char) :
    found of (lastLine before) ps =
      (placed before ps).filterMap fun x => of (lastLine x.through) x.piece := by
  induction ps generalizing before with
  | nil => rfl
  | cons p ps ih =>
    obtain ⟨hp, hps⟩ := List.forall_mem_cons.mp h
    rw [found, hp.lastLine_add, ih hps, placed, List.filterMap_cons, Placed.through]
    cases of (lastLine (before ++ p.spelling)) p <;> rfl

theorem prefix_of_mem_placed {before : List Char} {ps : List Piece} {x : Placed}
    (h : x ∈ placed before ps) :
    before <+: x.before ∧ x.through <+: before ++ ps.flatMap spelling := by
  induction ps generalizing before with
  | nil => cases h
  | cons p ps ih =>
    rw [List.flatMap_cons, ← List.append_assoc]
    obtain rfl | h := List.mem_cons.mp h
    · exact ⟨List.prefix_refl _, List.prefix_append _ _⟩
    · obtain ⟨hb, ht⟩ := ih h
      exact ⟨(List.prefix_append _ _).trans hb, ht⟩

/-- Each piece stands behind the end of those before it. -/
theorem placed_pairwise (before : List Char) (ps : List Piece) :
    (placed before ps).Pairwise fun x y => x.through <+: y.before := by
  induction ps generalizing before with
  | nil => exact .nil
  | cons p ps ih => exact .cons (fun y hy => (prefix_of_mem_placed hy).1) (ih _)

end Piece

namespace Tiles

variable {ps : List Piece} {source : List Char} {of : Nat → Piece → Option α} {line : α → Nat}

/-- What is found in a source, by the text up to the end of each piece. -/
theorem found_eq (h : Tiles ps source) (of : Nat → Piece → Option α) :
    Piece.found of 1 ps =
      (Piece.placed [] ps).filterMap fun x => of (lastLine x.through) x.piece :=
  Piece.found_lastLine of h.wellFormed []

/-- What is found further on is on no earlier line. -/
theorem found_pairwise (h : Tiles ps source) (hl : ∀ n p, ∀ x ∈ of n p, line x = n) :
    (Piece.found of 1 ps).Pairwise fun x y => line x ≤ line y := by
  rw [h.found_eq, List.pairwise_filterMap]
  refine (Piece.placed_pairwise [] ps).imp fun {a b} hab x hx y hy => ?_
  rw [hl _ _ x hx, hl _ _ y hy]
  exact lastLine_mono (hab.trans (List.prefix_append _ _))

/-- Nothing is found below the last line. -/
theorem line_le_of_mem_found (h : Tiles ps source) (hl : ∀ n p, ∀ x ∈ of n p, line x = n) {x : α}
    (hx : x ∈ Piece.found of 1 ps) : line x ≤ lastLine source := by
  rw [h.found_eq, List.mem_filterMap] at hx
  obtain ⟨a, ha, hx⟩ := hx
  rw [hl _ _ x hx, ← h.spelled]
  exact lastLine_mono (Piece.prefix_of_mem_placed ha).2

end Tiles

namespace Piece

theorem line_of_mem_token? (n : Nat) (p : Piece) : ∀ t ∈ p.token? n, t.line = n := by
  intro t ht
  cases p <;> cases ht
  rfl

theorem line_of_mem_fault? (n : Nat) (p : Piece) : ∀ f ∈ p.fault? n, f.line = n := by
  intro f hf
  cases p <;> cases hf
  all_goals rfl

end Piece

/-- What stands in a source as a lexeme, and the line on which it ends. -/
def Placed.lexeme? (x : Placed) : Option (Kind × String × Nat) :=
  match x.piece with
  | .lexeme kind spelling => some (kind, String.ofList spelling, lastLine x.through)
  | _ => none

/-- The fault in a piece of a source. A stray character is on the line of the text before it, and a
string without a second quote on the last line of all. -/
def Placed.fault? (source : List Char) (x : Placed) : Option LexicalFault :=
  match x.piece with
  | .stray _ => some ⟨.unexpectedCharacter, lastLine x.before⟩
  | .unclosed _ => some ⟨.unterminatedString, lastLine source⟩
  | _ => none

namespace Tiles

variable {ps : List Piece} {source : List Char}

/-- A piece of a tiling and the text behind it. -/
theorem of_mem_placed (h : Tiles ps source) {before : List Char} {x : Placed}
    (hx : x ∈ Piece.placed before ps) :
    ∃ rest, x.piece.WellFormed ∧ x.piece.EndsBefore rest ∧ before ++ source = x.through ++ rest := by
  induction h generalizing before with
  | nil => cases hx
  | @cons p ps rest hw he _ ih =>
    rw [← List.append_assoc]
    obtain rfl | hx := List.mem_cons.mp hx
    · exact ⟨rest, hw, he, rfl⟩
    · exact ih hx

theorem fault?_of_mem_placed (h : Tiles ps source) {x : Placed} (hx : x ∈ Piece.placed [] ps) :
    x.piece.fault? (lastLine x.through) = x.fault? source := by
  obtain ⟨rest, hw, he, hs⟩ := h.of_mem_placed hx
  obtain ⟨before, p⟩ := x
  cases p with
  | stray c =>
    have hc : c ≠ '\n' := fun hc => hw.layout (by simp [hc])
    have hl : lastLine (before ++ [c]) = lastLine before := by simp [lastLine, hc]
    exact congrArg (fun n => some (LexicalFault.mk .unexpectedCharacter n)) hl
  | unclosed body =>
    -- an open string goes on to the end of the source
    cases he
    rw [List.nil_append, List.append_nil] at hs
    rw [hs]
    rfl
  | blank | newline | comment | lexeme => rfl

end Tiles

theorem token?_placed (x : Placed) :
    (x.piece.token? (lastLine x.through)).map (fun t => (t.kind, t.lexeme, t.line)) = x.lexeme? := by
  obtain ⟨before, p⟩ := x
  cases p <;> rfl

/-- The tokens before the stop token, by what they stand for and their lines. -/
theorem lexemes_placed (source : String) :
    (lexemes source).map (fun t => (t.kind, t.lexeme, t.line)) =
      (Piece.placed [] (pieces source.toList)).filterMap Placed.lexeme? := by
  rw [lexemes, (tiles_pieces source.toList).found_eq, List.map_filterMap]
  exact List.filterMap_congr fun x _ => token?_placed x

theorem faults_placed (source : String) :
    (tokenize source).faults =
      (Piece.placed [] (pieces source.toList)).filterMap (Placed.fault? source.toList) := by
  have ht := tiles_pieces source.toList
  rw [faults_tokenize, ht.found_eq]
  exact List.filterMap_congr fun _ hx => ht.fault?_of_mem_placed hx

theorem line_le_of_mem_lexemes (source : String) :
    ∀ t ∈ lexemes source, t.line ≤ lastLine source.toList := fun _ hm =>
  (tiles_pieces source.toList).line_le_of_mem_found Piece.line_of_mem_token? hm

/-- The lines of the tokens never go back. -/
theorem tokens_pairwise_line (source : String) :
    (tokenize source).tokens.Pairwise fun t u => t.line ≤ u.line := by
  rw [tokens_tokenize, List.pairwise_append]
  refine ⟨(tiles_pieces source.toList).found_pairwise Piece.line_of_mem_token?,
    List.pairwise_singleton _ _, ?_⟩
  intro t hm u hu
  rw [List.mem_singleton.mp hu]
  exact line_le_of_mem_lexemes source t hm

/-- Lines are exact. A token is on the line of the source on which its lexeme ends, the stop token
on the last, a stray character on its own and a string without a second quote on the last. A piece
moves the running line on by the newlines in its text: one that stands alone, be it behind a comment,
and those in strings. Hence the lines of the tokens never go back, nor do those of the faults, and
none is below that of the stop token. -/
theorem tokenize_lines (source : String) :
    ∃ ps, Tiles ps source.toList ∧
      (tokenize source).tokens.map (fun t => (t.kind, t.lexeme, t.line)) =
        (Piece.placed [] ps).filterMap Placed.lexeme? ++
          [(.stop, "", lastLine source.toList)] ∧
      (tokenize source).faults = (Piece.placed [] ps).filterMap (Placed.fault? source.toList) ∧
      ps.flatMap Piece.spelling = source.toList ∧
      (∀ x ∈ Piece.placed [] ps, x.through <+: source.toList) ∧
      (∀ p ∈ ps, p.spelling.count '\n' = p.breaks) ∧
      ((tokenize source).tokens.Pairwise fun t u => t.line ≤ u.line) ∧
      ((tokenize source).faults.Pairwise fun f g => f.line ≤ g.line) ∧
      (∀ t ∈ (tokenize source).tokens, t.line ≤ lastLine source.toList) ∧
      ∀ f ∈ (tokenize source).faults, f.line ≤ lastLine source.toList := by
  have ht := tiles_pieces source.toList
  refine ⟨pieces source.toList, ht, ?_, faults_placed source, ht.spelled, ?_, ?_,
    tokens_pairwise_line source, ?_, ?_, ?_⟩
  · rw [tokens_tokenize, List.map_append, lexemes_placed]
    rfl
  · intro x hx
    obtain ⟨rest, _, _, hs⟩ := ht.of_mem_placed hx
    exact ⟨rest, hs.symm⟩
  · exact fun p hp => (ht.wellFormed p hp).count_spelling
  · rw [faults_tokenize]
    exact ht.found_pairwise Piece.line_of_mem_fault?
  · rw [tokens_tokenize]
    exact List.forall_mem_append.mpr ⟨line_le_of_mem_lexemes source, by simp [Token.stop]⟩
  · rw [faults_tokenize]
    exact fun f hm => ht.line_le_of_mem_found Piece.line_of_mem_fault? hm

/-- A comment leaves its newline to the count, and a string is where it ends. -/
example : (tokenize "a // b\n\"c\nd\" @\n").tokens.map Token.line = [1, 3, 4] := by decide +kernel

/-- A string that is left open is reported on the last line. -/
theorem line_of_unterminated {source : String} {f : LexicalFault} (h : f ∈ (tokenize source).faults)
    (hc : f.cause = .unterminatedString) : f.line = lastLine source.toList := by
  rw [faults_placed, List.mem_filterMap] at h
  obtain ⟨⟨before, p⟩, _, hx⟩ := h
  cases p <;> cases hx
  · cases hc
  · rfl

end SmallScript
