import SmallScript.Proofs.Grammar.Parse
import SmallScript.Proofs.Numeral
import SmallScript.Proofs.Session

/-!
Literals in a program. A string is printed as it stands between its quotes, and a finite number is
written in such a way that the text, as an expression, is that number again.
-/
namespace SmallScript

/-- A program without faults in its text or syntax that prints one expression. -/
structure Prints (source : String) (e : Expr) : Prop where
  text : (tokenize source).faults = []
  parsed : parse (tokenize source).tokens = ⟨[.print e], []⟩

namespace Prints

variable {source : String} {e : Expr}

theorem program (h : Prints source e) : (Script.ofSource source).program = [.print e] :=
  congrArg Parsed.program h.parsed

theorem run (h : Prints source e) {s : Scope} {v : Value} (he : evaluate e s = ⟨.ok v, s⟩) :
    run source s = ⟨[v.text], [], ⟨false, false⟩, s⟩ := by
  have hf : (Script.ofSource source).faults = [] := by
    rw [Script.ofSource, h.text, h.parsed]
    rfl
  have hx : executeAll [.print e] s = ⟨[v.text], none, s⟩ := by
    rw [executeAll, execute, he]
    rfl
  rw [SmallScript.run, h.program, hf, hx]
  rfl

end Prints

/-- A semicolon and nothing behind it. -/
def ending : List Piece := [.lexeme (.mark .semicolon) [';']]

theorem tiles_ending : Tiles ending [';'] := by
  have he : (Piece.lexeme (.mark .semicolon) [';']).EndsBefore [] := ⟨by simp, by simp⟩
  exact .cons (p := .lexeme (.mark .semicolon) [';']) (.mark .semicolon) he .nil

/-- The pieces of a source that prints what some pieces spell. -/
def printing (ps : List Piece) : List Piece :=
  .lexeme (.keyword .printWord) "print".toList :: .blank ' ' :: (ps ++ ending)

/-- Pieces that a semicolon does not make longer, behind the word and a blank. -/
theorem tiles_printing {ps : List Piece} {w : List Char} (h : Tiles (ps ++ ending) (w ++ [';'])) :
    Tiles (printing ps) ("print " ++ String.ofList w ++ ";").toList := by
  have hsource : ("print " ++ String.ofList w ++ ";").toList =
      "print".toList ++ (' ' :: (w ++ [';'])) := by
    simp
  have hblank : Tiles (.blank ' ' :: (ps ++ ending)) (' ' :: (w ++ [';'])) :=
    .cons (p := .blank ' ') (by simp [Piece.WellFormed]) trivial h
  have hprint : (Piece.lexeme (.keyword .printWord) "print".toList).EndsBefore
      (' ' :: (w ++ [';'])) := by
    intro c hc
    cases hc
    decide
  rw [hsource]
  exact .cons (p := .lexeme (.keyword .printWord) _) (.keyword .printWord) hprint hblank

/-- The tokens are those of the pieces with the word before and a semicolon behind them. -/
theorem found_printing (ps : List Piece) : ∃ n, Piece.found Piece.token? 1 (printing ps) =
    ⟨.keyword .printWord, "print", 1⟩ ::
      (Piece.found Piece.token? 1 ps ++ [⟨.mark .semicolon, ";", n⟩]) := by
  rw [printing, Piece.found, Piece.found, Piece.found_append]
  exact ⟨_, rfl⟩

/-- A source that prints what the tokens of some pieces spell. -/
theorem prints_of_tiles (ps : List Piece) {w : List Char} {e : Expr}
    (ht : Tiles (ps ++ ending) (w ++ [';'])) (hm : ps.filterMap Piece.message? = [])
    (hg : e.Grammatical) (hf : e.Fits maxNesting)
    (hk : (Piece.found Piece.token? 1 ps).map Token.kept = e.tokens) :
    Prints ("print " ++ String.ofList w ++ ";") e := by
  have htiles := tiles_printing ht
  constructor
  · refine htiles.faults_eq_nil ?_
    rw [printing, List.filterMap_cons_none rfl, List.filterMap_cons_none rfl, List.filterMap_append,
      hm]
    rfl
  · obtain ⟨n, hn⟩ := found_printing ps
    have hd : Stmt.DeriveAll maxNesting [.print e] (lexemes ("print " ++ String.ofList w ++ ";")) := by
      refine ⟨⟨hg, trivial⟩, ⟨hf, trivial⟩, ?_⟩
      rw [htiles.lexemes_eq, hn, List.map_cons, List.map_append, hk, Stmt.tokensAll, Stmt.tokens,
        Stmt.tokensAll, List.append_nil]
      rfl
    rw [tokens_tokenize, hd.parse rfl]

/-- A string between quotes. -/
theorem prints_string {text : String} (h : '"' ∉ text.toList) :
    Prints ("print \"" ++ text ++ "\";") (.literal (.string text)) := by
  have hs := Spells.string h
  rw [String.ofList_toList] at hs
  have hsource : "print \"" ++ text ++ "\";" =
      "print " ++ String.ofList ('"' :: (text.toList ++ ['"'])) ++ ";" := by
    refine String.toList_inj.mp ?_
    simp
  rw [hsource]
  have ht := Tiles.cons (p := .lexeme (.string text) _) hs trivial tiles_ending
  exact prints_of_tiles [_] ht rfl trivial trivial rfl

/-- A number ends before a semicolon. -/
theorem tiles_digits (d : Decimal) :
    Tiles (.lexeme (.number d.toFloat) d.digits :: ending) (d.digits ++ [';']) := by
  have he : (Piece.lexeme (.number d.toFloat) d.digits).EndsBefore [';'] := by
    refine ⟨?_, ?_⟩
    · intro c hc
      cases hc
      decide
    · rintro - _ _ ⟨⟩
  exact .cons (p := .lexeme (.number d.toFloat) _) d.spells_digits he tiles_ending

theorem prints_digits (d : Decimal) :
    Prints ("print " ++ String.ofList d.digits ++ ";") (.literal (.number d.toFloat)) :=
  prints_of_tiles [_] (tiles_digits d) rfl trivial trivial rfl

theorem prints_negated (d : Decimal) :
    Prints ("print " ++ String.ofList ('-' :: d.digits) ++ ";")
      (.unary ⟨.mark .minus, "-", 1⟩ (.literal (.number d.toFloat))) :=
  prints_of_tiles [_, _] (tiles_digits d).minus rfl
    (by simp [Expr.Grammatical, Kind.isPrefix, Expr.rank]) (by simp [Expr.Fits, maxNesting]) rfl

/-- Literals are printed as they are written. Between quotes any text without one stands for itself.
The text of a finite number stands for an expression, which gives the same number bit for bit and
prints the same text again. Nothing is reported and no variable is changed. -/
theorem run_print_literal (s : Scope) :
    (∀ text : String, '"' ∉ text.toList →
      run ("print \"" ++ text ++ "\";") s = ⟨[text], [], ⟨false, false⟩, s⟩) ∧
    ∀ x : Float, x.isFinite →
      (∃ e, (Script.ofSource ("print " ++ (Value.number x).text ++ ";")).program = [.print e] ∧
        ∃ y, evaluate e s = ⟨.ok (.number y), s⟩ ∧ y.toBits = x.toBits) ∧
      run ("print " ++ (Value.number x).text ++ ";") s =
        ⟨[(Value.number x).text], [], ⟨false, false⟩, s⟩ := by
  constructor
  · exact fun text h => (prints_string h).run rfl
  · intro x hx
    obtain ⟨d, ⟨ht, hv⟩ | ⟨ht, hv⟩⟩ := numberText_cases hx
    · have hp := prints_digits d
      rw [← ht, ← hv] at hp
      exact ⟨⟨_, hp.program, x, rfl, rfl⟩, hp.run rfl⟩
    · have hp := prints_negated d
      have he : evaluate (.unary ⟨.mark .minus, "-", 1⟩ (.literal (.number d.toFloat))) s =
          ⟨.ok (.number x), s⟩ := by
        rw [hv]
        rfl
      rw [← ht] at hp
      exact ⟨⟨_, hp.program, x, he, rfl⟩, hp.run he⟩

/-- A text that would be a comment and more than one line elsewhere, and the zero that has a sign. -/
theorem run_print_literal_negative_zero :
    '"' ∉ "a // \nü".toList ∧ (Float.ofBits 0x8000000000000000).isFinite ∧
      run "print \"a // \nü\";" .empty = ⟨["a // \nü"], [], ⟨false, false⟩, .empty⟩ ∧
      run "print -0;" .empty = ⟨["-0"], [], ⟨false, false⟩, .empty⟩ ∧
      ∃ e y, (Script.ofSource "print -0;").program = [.print e] ∧
        evaluate e .empty = ⟨.ok (.number y), .empty⟩ ∧ y.toBits = 0x8000000000000000 := by
  have hq : '"' ∉ "a // \nü".toList := by decide
  have hx : (Float.ofBits 0x8000000000000000).isFinite := by decide +kernel
  have ht : (Value.number (Float.ofBits 0x8000000000000000)).text = "-0" := by decide +kernel
  have hb : (Float.ofBits 0x8000000000000000).toBits = 0x8000000000000000 := by decide +kernel
  have hs : "print \"" ++ "a // \nü" ++ "\";" = "print \"a // \nü\";" := by decide +kernel
  have hn : "print " ++ "-0" ++ ";" = "print -0;" := by decide +kernel
  obtain ⟨hstring, hnumber⟩ := run_print_literal .empty
  obtain ⟨⟨e, hp, y, he, hy⟩, hr⟩ := hnumber _ hx
  rw [ht, hn] at hp hr
  exact ⟨hq, hx, hs ▸ hstring _ hq, hr, e, y, hp, he, hy.trans hb⟩

end SmallScript
