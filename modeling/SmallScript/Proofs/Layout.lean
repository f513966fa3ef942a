import SmallScript.Proofs.Session

/-!
Layout. Lexemes are what they are wherever they stand, as long as layout keeps them apart, so a source
may be laid out anew: its tokens are the same on other lines, and a program that has its tokens on
other lines runs as before.
-/
namespace SmallScript

def layoutCharacters : List Char := [' ', '\r', '\t', '\n']

/-- Spaces, tabs, carriage returns and newlines, or nothing. -/
def IsLayout (gap : List Char) : Prop := ∀ c ∈ gap, c ∈ layoutCharacters

/-- Words in order, each with layout behind it, which there must be if another word follows. -/
inductive Spaced : List String → List Char → Prop where
  | nil : Spaced [] []
  | cons {word : String} {words : List String} (gap : List Char) {rest : List Char}
    (hg : IsLayout gap) (hn : words ≠ [] → gap ≠ []) (h : Spaced words rest) :
    Spaced (word :: words) (word.toList ++ (gap ++ rest))

/-- Words in order with layout between, before and behind them. -/
def LaidOut (words : List String) (text : List Char) : Prop :=
  ∃ gap rest, IsLayout gap ∧ Spaced words rest ∧ text = gap ++ rest

/-- Neither a word nor a number goes on with layout, nor does it make an operator another one. -/
theorem layout_apart {c : Char} (h : c ∈ layoutCharacters) :
    ¬ (c.isAlphanum ∨ c = '_') ∧ ¬ c.isDigit ∧ c ∉ ['=', '/', '.'] := by
  obtain rfl | rfl | rfl | rfl : c = ' ' ∨ c = '\r' ∨ c = '\t' ∨ c = '\n' := by
    simpa [layoutCharacters] using h
  all_goals decide

namespace Piece

/-- Layout makes no lexeme before it longer. -/
theorem endsBefore_layout (kind : Kind) (spelling : List Char) {rest : List Char}
    (h : ∀ c ∈ rest.head?, c ∈ layoutCharacters) :
    (lexeme kind spelling).EndsBefore rest := by
  have hne {d : Char} (hd : d ∈ ['=', '/', '.']) : rest.head? ≠ some d :=
    fun hr => (layout_apart (h d hr)).2.2 hd
  cases kind with
  | stop | string => trivial
  | mark m => exact ⟨fun _ => hne (by decide), fun _ => hne (by decide)⟩
  | keyword | identifier => exact fun c hc => (layout_apart (h c hc)).1
  | number =>
    refine ⟨fun c hc => (layout_apart (h c hc)).2.1, ?_⟩
    rintro - d after rfl
    exact absurd rfl (hne (by decide))

/-- A character of layout is a piece of its own, which ends before anything and gives nothing. -/
theorem exists_of_layout {c : Char} (h : c ∈ layoutCharacters) :
    ∃ p : Piece, p.spelling = [c] ∧ p.WellFormed ∧ (∀ rest, p.EndsBefore rest) ∧
      p.kept? = none ∧ p.message? = none := by
  by_cases hc : c = '\n'
  · exact ⟨.newline, by rw [hc]; rfl, trivial, fun _ => trivial, rfl, rfl⟩
  · have hw : (blank c).WellFormed := by simpa [WellFormed, layoutCharacters, hc] using h
    exact ⟨.blank c, rfl, hw, fun _ => trivial, rfl, rfl⟩

end Piece

/-- A text in pieces that are lexemes and layout, the lexemes being those of the tokens. -/
structure Renders (us : List Token) (ps : List Piece) (text : List Char) : Prop where
  tiles : Tiles ps text
  kept : ps.filterMap Piece.kept? = us.map fun t => (t.kind, t.lexeme)
  messages : ps.filterMap Piece.message? = []

namespace Renders

variable {us : List Token} {ps : List Piece} {text : List Char}

theorem layout (h : Renders us ps text) {gap : List Char} (hg : IsLayout gap) :
    ∃ qs, Renders us qs (gap ++ text) := by
  induction gap with
  | nil => exact ⟨ps, h⟩
  | cons c gap ih =>
    obtain ⟨hc, hg⟩ := List.forall_mem_cons.mp hg
    obtain ⟨qs, hr⟩ := ih hg
    obtain ⟨p, hs, hw, he, hk, hm⟩ := Piece.exists_of_layout hc
    have ht := Tiles.cons hw (he _) hr.tiles
    rw [hs] at ht
    refine ⟨p :: qs, ht, ?_, ?_⟩
    · rw [List.filterMap_cons_none hk, hr.kept]
    · rw [List.filterMap_cons_none hm, hr.messages]

theorem lexeme (h : Renders us ps text) {t : Token} (ht : Spells t.kind t.lexeme.toList)
    (hr : ∀ c ∈ text.head?, c ∈ layoutCharacters) :
    Renders (t :: us) (.lexeme t.kind t.lexeme.toList :: ps) (t.lexeme.toList ++ text) := by
  have he := Piece.endsBefore_layout t.kind t.lexeme.toList hr
  refine ⟨.cons (p := .lexeme t.kind t.lexeme.toList) ht he h.tiles, ?_, ?_⟩
  · have hk : (Piece.lexeme t.kind t.lexeme.toList).kept? = some (t.kind, t.lexeme) := by
      rw [Piece.kept?, String.ofList_toList]
    rw [List.filterMap_cons_some hk, h.kept, List.map_cons]
  · rw [List.filterMap_cons_none rfl, h.messages]

end Renders

/-- Each token that is written apart from the others is a piece of the text. -/
theorem Spaced.renders {us : List Token} (hu : ∀ t ∈ us, Spells t.kind t.lexeme.toList)
    {text : List Char} (h : Spaced (us.map Token.lexeme) text) : ∃ ps, Renders us ps text := by
  induction us generalizing text with
  | nil =>
    cases h
    exact ⟨[], .nil, rfl, rfl⟩
  | cons t us ih =>
    cases h with
    | @cons _ _ gap rest hg hn h =>
      obtain ⟨ht, hu⟩ := List.forall_mem_cons.mp hu
      obtain ⟨_, hr⟩ := ih hu h
      obtain ⟨_, hr⟩ := hr.layout hg
      refine ⟨_, hr.lexeme ht fun c hc => ?_⟩
      -- the lexeme stands before layout, unless it is the last and nothing is behind it
      cases gap with
      | cons d gap =>
        cases hc
        exact hg _ List.mem_cons_self
      | nil =>
        have hnil : us.map Token.lexeme = [] := by
          by_contra hne
          exact hn hne rfl
        rw [hnil] at h
        cases h
        cases hc

theorem LaidOut.renders {us : List Token} (hu : ∀ t ∈ us, Spells t.kind t.lexeme.toList)
    {text : List Char} (h : LaidOut (us.map Token.lexeme) text) : ∃ ps, Renders us ps text := by
  obtain ⟨gap, rest, hg, hs, rfl⟩ := h
  obtain ⟨_, hr⟩ := hs.renders hu
  exact hr.layout hg

/-- A source that is laid out anew has the same lexemes and no faults in its text. -/
theorem tokenize_laidOut {source source' : String}
    (h : LaidOut ((lexemes source).map Token.lexeme) source'.toList) :
    (lexemes source').map (fun t => (t.kind, t.lexeme)) =
        (lexemes source).map (fun t => (t.kind, t.lexeme)) ∧
      (tokenize source').faults = [] := by
  obtain ⟨ps, hr⟩ := h.renders (spells_of_mem_lexemes source)
  refine ⟨?_, hr.tiles.faults_eq_nil hr.messages⟩
  rw [hr.tiles.lexemes_eq, Piece.map_found Piece.map_token?, hr.kept]

/-- The tokens of a program and the stop token behind them, all moved. -/
theorem parse_relocate (move : Nat → Nat) {us : List Token} (hu : ∀ t ∈ us, t.kind ≠ .stop)
    {stop : Token} (hs : stop.kind = .stop) :
    parse ((us ++ [stop]).map (Token.relocate move)) =
      ⟨Stmt.relocateAll move (parse (us ++ [stop])).program,
        (parse (us ++ [stop])).faults.map (SyntaxFault.relocate move)⟩ := by
  have hs' : (stop.relocate move).kind = .stop := hs
  rw [List.map_append, List.map_singleton, parse_stop (kind_ne_stop_relocate hu move) hs',
    parse_stop hu hs, parseBody_relocate]
  rfl

/-- All tokens moved to one line differ in nothing but kind and lexeme. -/
theorem map_relocate_eq {us vs : List Token}
    (h : us.map (fun t => (t.kind, t.lexeme)) = vs.map fun t => (t.kind, t.lexeme)) :
    us.map (Token.relocate fun _ => 0) = vs.map (Token.relocate fun _ => 0) := by
  have hm := congrArg (List.map fun x : Kind × String => Token.mk x.1 x.2 0) h
  rwa [List.map_map, List.map_map] at hm

/-- Sources with the same lexemes, and no faults in their text, are read as the same program on
other lines. -/
theorem Script.ofSource_relocate_eq {source source' : String}
    (h : (lexemes source').map (fun t => (t.kind, t.lexeme)) =
      (lexemes source).map fun t => (t.kind, t.lexeme))
    (hf : (tokenize source).faults = []) (hf' : (tokenize source').faults = []) :
    Stmt.relocateAll (fun _ => 0) (ofSource source').program =
        Stmt.relocateAll (fun _ => 0) (ofSource source).program ∧
      (ofSource source').faults.map (Diagnostic.relocate fun _ => 0) =
        (ofSource source).faults.map (Diagnostic.relocate fun _ => 0) := by
  have hp (source : String) := parse_relocate (fun _ => 0) (kind_ne_stop_of_mem_lexemes source)
    (show (Token.stop (lastLine source.toList)).kind = .stop from rfl)
  have hparse := (hp source').symm.trans ((congrArg parse ?_).trans (hp source))
  · obtain ⟨hprogram, hfaults⟩ := Parsed.mk.inj hparse
    have hd := congrArg (List.map SyntaxFault.diagnostic) hfaults
    rw [List.map_map, List.map_map] at hd
    rw [ofSource, ofSource, hf, hf', tokens_tokenize, tokens_tokenize, List.map_nil, List.nil_append,
      List.nil_append, List.map_map, List.map_map]
    exact ⟨hprogram, hd⟩
  · rw [List.map_append, List.map_append, map_relocate_eq h]
    rfl

/-- Programs that are the same but for their lines do the same. -/
theorem executeAll_relocate_eq {body body' : List Stmt} {move : Nat → Nat}
    (h : Stmt.relocateAll move body' = Stmt.relocateAll move body) (s : Scope) :
    (executeAll body' s).relocate move = (executeAll body s).relocate move := by
  rw [← executeAll_relocate, ← executeAll_relocate, h]

/-- The same run with its reports moved. -/
def Run.relocate (move : Nat → Nat) (r : Run) : Run :=
  { r with reports := r.reports.map (Diagnostic.relocate move) }

theorem run_relocate (move : Nat → Nat) (source : String) (s : Scope) :
    (run source s).relocate move =
      let faults := (Script.ofSource source).faults.map (Diagnostic.relocate move)
      let x := (executeAll (Script.ofSource source).program s).relocate move
      { output := x.output
        reports := faults ++ (x.fault?.map Fault.diagnostic).toList
        status := ⟨!faults.isEmpty, x.fault?.isSome⟩
        scope := x.scope } := by
  simp only [Run.relocate, run, Execution.relocate, reports_relocate, List.map_append,
    List.isEmpty_map, Option.isSome_map]

/-- Layout does not matter. The tokens of a source without faults in its text may be written in order
with any layout between them, before and behind: the text has the same tokens but for their lines,
and it runs as the source does, with the same reports but for their lines. -/
theorem run_laidOut (source source' : String) (hf : (tokenize source).faults = [])
    (h : LaidOut ((tokenize source).tokens.dropLast.map Token.lexeme) source'.toList) :
    (tokenize source').faults = [] ∧
      (tokenize source').tokens.map (fun t => (t.kind, t.lexeme)) =
        (tokenize source).tokens.map (fun t => (t.kind, t.lexeme)) ∧
      ∀ s : Scope, (run source' s).output = (run source s).output ∧
        (run source' s).scope = (run source s).scope ∧
        (run source' s).status = (run source s).status ∧
        (run source' s).reports.map (fun d => (d.location, d.message)) =
          (run source s).reports.map fun d => (d.location, d.message) := by
  rw [tokens_tokenize source, List.dropLast_concat] at h
  obtain ⟨ht, hf'⟩ := tokenize_laidOut h
  refine ⟨hf', ?_, fun s => ?_⟩
  · rw [tokens_tokenize, tokens_tokenize, List.map_append, List.map_append, ht]
    rfl
  obtain ⟨hp, hd⟩ := Script.ofSource_relocate_eq ht hf hf'
  have hr : (run source' s).relocate (fun _ => 0) = (run source s).relocate fun _ => 0 := by
    rw [run_relocate, run_relocate, hd, executeAll_relocate_eq hp s]
  obtain ⟨houtput, hreports, hstatus, hscope⟩ := Run.mk.inj hr
  refine ⟨houtput, hscope, hstatus, ?_⟩
  have hm := congrArg (List.map fun d => (d.location, d.message)) hreports
  rwa [List.map_map, List.map_map] at hm

/-- A string with a newline and two slashes in it, and operators that stand close to what is before
and behind them. The minus has no number to work on, and its line is another one. -/
theorem run_laidOut_apart :
    (tokenize "print-\"//\n\"<=1.5;//c").faults = [] ∧
      LaidOut ((tokenize "print-\"//\n\"<=1.5;//c").tokens.dropLast.map Token.lexeme)
        "\tprint\n- \"//\n\" <=\r\n1.5\t;".toList ∧
      (run "\tprint\n- \"//\n\" <=\r\n1.5\t;" .empty).status = ⟨false, true⟩ ∧
      (run "\tprint\n- \"//\n\" <=\r\n1.5\t;" .empty).reports.map
          (fun d => (d.location, d.message)) = [(" at '-'", "Operand must be a number.")] := by
  have hf : (tokenize "print-\"//\n\"<=1.5;//c").faults = [] := by decide +kernel
  have hw : (tokenize "print-\"//\n\"<=1.5;//c").tokens.dropLast.map Token.lexeme =
      ["print", "-", "\"//\n\"", "<=", "1.5", ";"] := by decide +kernel
  have hg : ∀ gap ∈ [['\t'], ['\n'], [' '], ['\r', '\n'], []], IsLayout gap := by
    simp [IsLayout, layoutCharacters]
  have h : LaidOut ((tokenize "print-\"//\n\"<=1.5;//c").tokens.dropLast.map Token.lexeme)
      "\tprint\n- \"//\n\" <=\r\n1.5\t;".toList := by
    rw [hw]
    refine ⟨['\t'], _, hg _ (by simp), ?_, rfl⟩
    exact .cons ['\n'] (hg _ (by simp)) (by simp) <|
      .cons [' '] (hg _ (by simp)) (by simp) <|
      .cons [' '] (hg _ (by simp)) (by simp) <|
      .cons ['\r', '\n'] (hg _ (by simp)) (by simp) <|
      .cons ['\t'] (hg _ (by simp)) (by simp) <|
      .cons [] (hg _ (by simp)) (by simp) .nil
  obtain ⟨-, -, hr⟩ := run_laidOut _ _ hf h
  obtain ⟨-, -, hstatus, hreports⟩ := hr .empty
  exact ⟨hf, h, hstatus.trans (by decide +kernel), hreports.trans (by decide +kernel)⟩

end SmallScript
