import Mathlib.Data.List.TakeWhile
import SmallScript.Source.Tokens

/-!
The lexical grammar without a scanner: which texts are lexemes and of what kind, and where a piece
must not end. A source has exactly one tiling by such pieces, and cutting finds it.
-/
namespace SmallScript

/-- A letter or an underscore, and then letters, digits and underscores. -/
def IsWord (w : List Char) : Prop :=
  (∃ c ∈ w.head?, c.isAlpha ∨ c = '_') ∧ ∀ c ∈ w, c.isAlphanum ∨ c = '_'

/-- Digits, and at least one. -/
def IsDigits (w : List Char) : Prop := w ≠ [] ∧ ∀ c ∈ w, c.isDigit

/-- The lexemes of each kind. -/
inductive Spells : Kind → List Char → Prop where
  | mark (m : Mark) : Spells (.mark m) m.text.toList
  | keyword (k : Keyword) : Spells (.keyword k) k.text.toList
  | name {w : List Char} (h : IsWord w) (hk : ∀ k : Keyword, k.text.toList ≠ w) :
    Spells (.identifier (String.ofList w)) w
  | string {contents : List Char} (h : '"' ∉ contents) :
    Spells (.string (String.ofList contents)) ('"' :: (contents ++ ['"']))
  | whole {w : List Char} (h : IsDigits w) : Spells (.number (Decimal.ofDigits w []).toFloat) w
  | fraction {w f : List Char} (hw : IsDigits w) (hf : IsDigits f) :
    Spells (.number (Decimal.ofDigits w f).toFloat) (w ++ '.' :: f)

/-- A character with which no lexeme begins, and no layout or comment either. -/
structure StartsNothing (c : Char) : Prop where
  layout : c ∉ [' ', '\r', '\t', '\n']
  quote : c ≠ '"'
  digit : ¬ c.isDigit
  letter : ¬ (c.isAlpha ∨ c = '_')
  mark : ∀ m : Mark, m.text.toList.head? ≠ some c

namespace Piece

/-- What a piece of each sort is made of. -/
def WellFormed : Piece → Prop
  | blank c => c ∈ [' ', '\r', '\t']
  | newline => True
  | comment body => '\n' ∉ body
  | lexeme kind spelling => Spells kind spelling
  | stray c => StartsNothing c
  | unclosed body => '"' ∉ body

/-- The piece may end before this text, which does not make it longer. -/
def EndsBefore : Piece → List Char → Prop
  | comment _, rest => ∀ c ∈ rest.head?, c = '\n'
  | lexeme (.mark m) _, rest =>
    (m ∈ [.bang, .equal, .less, .greater] → rest.head? ≠ some '=') ∧
      (m = .slash → rest.head? ≠ some '/')
  | lexeme (.keyword _) _, rest => ∀ c ∈ rest.head?, ¬ (c.isAlphanum ∨ c = '_')
  | lexeme (.identifier _) _, rest => ∀ c ∈ rest.head?, ¬ (c.isAlphanum ∨ c = '_')
  | lexeme (.number _) spelling, rest =>
    (∀ c ∈ rest.head?, ¬ c.isDigit) ∧
      ('.' ∉ spelling → ∀ d after, rest = '.' :: d :: after → ¬ d.isDigit)
  | unclosed _, rest => rest = []
  | _, _ => True

end Piece

/-- A text laid out in pieces, each as long as it can be. -/
inductive Tiles : List Piece → List Char → Prop where
  | nil : Tiles [] []
  | cons {p : Piece} {ps : List Piece} {rest : List Char} (h : p.WellFormed) (he : p.EndsBefore rest)
    (ht : Tiles ps rest) : Tiles (p :: ps) (p.spelling ++ rest)

theorem Tiles.spelled {ps : List Piece} {source : List Char} (h : Tiles ps source) :
    ps.flatMap Piece.spelling = source := by
  induction h with
  | nil => rfl
  | cons _ _ _ ih => rw [List.flatMap_cons, ih]

theorem Tiles.wellFormed {ps : List Piece} {source : List Char} (h : Tiles ps source) :
    ∀ p ∈ ps, p.WellFormed := by
  induction h with
  | nil => exact List.forall_mem_nil _
  | cons hw _ _ ih => exact List.forall_mem_cons.mpr ⟨hw, ih⟩

theorem startsName_iff {c : Char} : startsName c ↔ c.isAlpha ∨ c = '_' := by simp [startsName]

theorem continuesName_iff {c : Char} : continuesName c ↔ c.isAlphanum ∨ c = '_' := by
  simp [continuesName]

/-- The longest front whose characters all pass a test, where it is followed by one that does not. -/
theorem span_append (test : Char → Bool) {w : List Char} (rest : List Char) (hw : ∀ c ∈ w, test c)
    (hr : ∀ c ∈ rest.head?, ¬ test c) :
    (w ++ rest).takeWhile test = w ∧ (w ++ rest).dropWhile test = rest := by
  rw [List.takeWhile_append_of_pos hw, List.dropWhile_append_of_pos hw]
  cases rest with
  | nil => simp
  | cons c rest =>
    have hc : test c = false := by simpa using hr c rfl
    simp [hc]

theorem not_of_mem_head?_dropWhile (test : Char → Bool) (rest : List Char) :
    ∀ c ∈ (rest.dropWhile test).head?, ¬ test c := by
  intro c hc
  have := List.head?_dropWhile_not test rest
  rw [Option.mem_def.mp hc] at this
  simpa using this

namespace Mark

theorem text_of_ofChar? {c : Char} {m : Mark} (h : ofChar? c = some m) : m.text.toList = [c] := by
  simpa using List.find?_some h

/-- A mark is one character, or one such mark and an equals sign. -/
theorem text_cases (m : Mark) :
    (∃ c, m.text.toList = [c] ∧ ofChar? c = some m) ∨
      ∃ c n, m.text.toList = [c, '='] ∧ ofChar? c = some n ∧ n.withEqual? = some m := by
  cases m
  case bangEqual => exact .inr ⟨'!', bang, rfl, rfl, rfl⟩
  case equalEqual => exact .inr ⟨'=', equal, rfl, rfl, rfl⟩
  case greaterEqual => exact .inr ⟨'>', greater, rfl, rfl, rfl⟩
  case lessEqual => exact .inr ⟨'<', less, rfl, rfl, rfl⟩
  all_goals exact .inl ⟨_, rfl, rfl⟩

theorem isSome_ofChar? (m : Mark) : ∀ c ∈ m.text.toList.head?, (ofChar? c).isSome := by
  intro c hc
  obtain ⟨d, ht, hd⟩ | ⟨d, n, ht, hd, -⟩ := m.text_cases
  all_goals
    rw [ht] at hc
    cases hc
    rw [hd, Option.isSome_some]

theorem text_withEqual? {m n : Mark} (h : m.withEqual? = some n) :
    n.text.toList = m.text.toList ++ ['='] := by
  unfold withEqual? at h
  split at h <;> cases h <;> rfl

theorem isSome_withEqual? {m : Mark} : m.withEqual?.isSome ↔ m ∈ [bang, equal, less, greater] := by
  cases m <;> decide

/-- What an equals sign has made longer is made longer by nothing else. -/
theorem withEqual?_longest {m n : Mark} (h : m.withEqual? = some n) :
    n ∉ [bang, equal, less, greater] ∧ n ≠ slash := by
  unfold withEqual? at h
  split at h <;> cases h <;> decide

/-- No mark begins as another sort of piece does, but for the slash of a comment. -/
theorem ofChar?_apart {c : Char} {m : Mark} (h : ofChar? c = some m) :
    c ≠ '\n' ∧ isBlank c = false ∧ c ≠ '"' ∧ c.isDigit = false ∧ startsName c = false := by
  have ht := text_of_ofChar? h
  cases m <;> simp [text] at ht <;> subst ht <;> decide

end Mark

/-- What a word may go on with begins no layout and no string. -/
theorem continuesName_apart {c : Char} (h : continuesName c) :
    c ≠ '\n' ∧ isBlank c = false ∧ c ≠ '"' := by
  have hne {d : Char} (hd : continuesName d = false) : c ≠ d := by
    rintro rfl
    rw [h] at hd
    cases hd
  refine ⟨hne (by decide), ?_, hne (by decide)⟩
  simp only [isBlank, Bool.or_eq_false_iff, beq_eq_false_iff_ne]
  exact ⟨⟨hne (by decide), hne (by decide)⟩, hne (by decide)⟩

theorem continuesName_of_isDigit {c : Char} (h : c.isDigit) : continuesName c := by
  simp [continuesName, Char.isAlphanum, h]

theorem continuesName_of_startsName {c : Char} (h : startsName c) : continuesName c := by
  refine continuesName_iff.mpr ((startsName_iff.mp h).imp_left fun ha => ?_)
  simp [Char.isAlphanum, ha]

theorem not_isDigit_of_startsName {c : Char} (h : startsName c) : c.isDigit = false := by
  have hd : c.isDigit = (decide (48 ≤ c.val) && decide (c.val ≤ 57)) := rfl
  have ha : c.isAlpha = (decide (65 ≤ c.val ∧ c.val ≤ 90) ||
      (decide (97 ≤ c.val) && decide (c.val ≤ 122))) := rfl
  obtain h | rfl := startsName_iff.mp h
  · simp only [ha, hd, Bool.or_eq_true, Bool.and_eq_true, Bool.and_eq_false_iff, decide_eq_true_eq,
      decide_eq_false_iff_not, UInt32.le_iff_toNat_le, UInt32.reduceToNat] at h ⊢
    omega
  · decide

theorem cut_digit {c : Char} (h : c.isDigit) (rest : List Char) : cut c rest = cutNumber c rest := by
  obtain ⟨hn, hb, hq⟩ := continuesName_apart (continuesName_of_isDigit h)
  simp [cut, hn, hb, hq, h]

theorem cut_word {c : Char} (h : startsName c) (rest : List Char) : cut c rest = cutWord c rest := by
  obtain ⟨hn, hb, hq⟩ := continuesName_apart (continuesName_of_startsName h)
  simp [cut, hn, hb, hq, not_isDigit_of_startsName h, h]

/-- A mark is cut as a mark, unless it is the first slash of two. -/
theorem cut_mark {c : Char} {m : Mark} (h : Mark.ofChar? c = some m) {rest : List Char}
    (hs : m = .slash → rest.head? ≠ some '/') : cut c rest = cutMark m c rest := by
  obtain ⟨hn, hb, hq, hd, hl⟩ := Mark.ofChar?_apart h
  simp only [cut, hn, hb, hq, hd, hl, if_false, Bool.false_eq_true]
  split
  · have hm : m = .slash := by
      have := Mark.text_of_ofChar? h
      cases m <;> simp [Mark.text] at this
      rfl
    exact absurd rfl (hs hm)
  · rw [h]

theorem Keyword.text_of_ofText? {word : String} {k : Keyword} (h : ofText? word = some k) :
    k.text = word := by
  simpa using List.find?_some h

theorem Spells.word {w : List Char} (h : IsWord w) : Spells (.ofWord (String.ofList w)) w := by
  unfold Kind.ofWord
  split
  · next k hk =>
    have hw : k.text.toList = w := by rw [Keyword.text_of_ofText? hk, String.toList_ofList]
    rw [← hw]
    exact .keyword k
  · next hk =>
    refine .name h fun k hw => ?_
    have := List.find?_eq_none.mp hk k k.mem_all
    rw [← hw, String.ofList_toList] at this
    simp at this

theorem Piece.endsBefore_word {word : String} {w rest : List Char} :
    (lexeme (.ofWord word) w).EndsBefore rest ↔ ∀ c ∈ rest.head?, ¬ (c.isAlphanum ∨ c = '_') := by
  unfold Kind.ofWord
  split <;> rfl

/-- What is cut is a piece, and what is left does not make it longer. -/
def Piece.Fits (front : Piece × List Char) : Prop :=
  front.1.WellFormed ∧ front.1.EndsBefore front.2

theorem cutString_fits (rest : List Char) : Piece.Fits (cutString rest) := by
  unfold cutString
  split
  · next h =>
    rw [List.dropWhile_eq_nil_iff] at h
    exact ⟨fun hq => absurd (h _ hq) (by decide), rfl⟩
  · exact ⟨.string fun hq => absurd (List.mem_takeWhile_imp hq) (by decide), trivial⟩

theorem isDigits_takeWhile {c : Char} (h : c.isDigit) (rest : List Char) :
    IsDigits (c :: rest.takeWhile Char.isDigit) := by
  refine ⟨List.cons_ne_nil _ _, List.forall_mem_cons.mpr ⟨h, fun d hd => ?_⟩⟩
  exact List.mem_takeWhile_imp hd

theorem cutNumber_fits {c : Char} (h : c.isDigit) (rest : List Char) :
    Piece.Fits (cutNumber c rest) := by
  have hw := isDigits_takeWhile h rest
  have hr := not_of_mem_head?_dropWhile Char.isDigit rest
  unfold cutNumber
  split
  · next d after he =>
    split
    · next hd =>
      refine ⟨.fraction hw (isDigits_takeWhile hd after), not_of_mem_head?_dropWhile _ _, fun hp => ?_⟩
      exact absurd (List.mem_append_right _ List.mem_cons_self) hp
    · next hd =>
      rw [he] at hr
      refine ⟨.whole hw, hr, ?_⟩
      rintro - d' after' ⟨⟩
      exact hd
  · next he =>
    exact ⟨.whole hw, hr, fun _ d after hp => absurd hp (he d after)⟩

theorem cutWord_fits {c : Char} (h : startsName c) (rest : List Char) :
    Piece.Fits (cutWord c rest) := by
  have hw : IsWord (c :: rest.takeWhile continuesName) := by
    refine ⟨⟨c, rfl, startsName_iff.mp h⟩, List.forall_mem_cons.mpr ⟨?_, fun d hd => ?_⟩⟩
    · exact continuesName_iff.mp (continuesName_of_startsName h)
    · exact continuesName_iff.mp (List.mem_takeWhile_imp hd)
  refine ⟨.word hw, Piece.endsBefore_word.mpr fun d hd => ?_⟩
  rw [← continuesName_iff]
  exact not_of_mem_head?_dropWhile _ _ d hd

theorem cutMark_fits {m : Mark} {c : Char} (h : Mark.ofChar? c = some m) {rest : List Char}
    (hs : m = .slash → rest.head? ≠ some '/') : Piece.Fits (cutMark m c rest) := by
  have hc := Mark.text_of_ofChar? h
  unfold cutMark
  split
  · next m' after he =>
    have ht : m'.text.toList = [c, '='] := by rw [Mark.text_withEqual? he, hc]; rfl
    obtain ⟨hl, hsl⟩ := Mark.withEqual?_longest he
    refine ⟨?_, fun hm => absurd hm hl, fun hm => absurd hm hsl⟩
    rw [← ht]
    exact .mark m'
  · next hn =>
    refine ⟨?_, fun hm => ?_, hs⟩
    · rw [← hc]
      exact .mark m
    · obtain ⟨m', hm'⟩ := Option.isSome_iff_exists.mp (Mark.isSome_withEqual?.mpr hm)
      intro hr
      obtain ⟨after, rfl⟩ := List.head?_eq_some_iff.mp hr
      exact hn m' after hm' rfl

theorem cut_fits (c : Char) (rest : List Char) : Piece.Fits (cut c rest) := by
  unfold cut
  split
  · exact ⟨trivial, trivial⟩
  -- the tests that come before say of a stray character what it does not start
  next hn =>
  split
  · next hb =>
    refine ⟨?_, trivial⟩
    simpa [Piece.WellFormed, isBlank, or_assoc] using hb
  next hb =>
  split
  · exact cutString_fits rest
  next hq =>
  split
  · next hd => exact cutNumber_fits hd rest
  next hd =>
  split
  · next hl => exact cutWord_fits hl rest
  next hl =>
  split
  · next line =>
    refine ⟨fun h => absurd (List.mem_takeWhile_imp h) (by decide), fun d hd => ?_⟩
    simpa using not_of_mem_head?_dropWhile _ _ d hd
  · next hs =>
    split
    · next m hm =>
      refine cutMark_fits hm fun hslash hr => ?_
      subst hslash
      obtain ⟨line, rfl⟩ := List.head?_eq_some_iff.mp hr
      have hc : ['/'] = [c] := Mark.text_of_ofChar? hm
      cases hc
      exact hs line rfl rfl
    · next hm =>
      refine ⟨⟨?_, hq, hd, fun h => hl (startsName_iff.mpr h), fun m hc => ?_⟩, trivial⟩
      · simpa [isBlank, or_assoc, hn] using hb
      · have hs := m.isSome_ofChar? c hc
        rw [hm] at hs
        cases hs

/-- A piece is what is cut from any source that begins with it and does not make it longer. -/
def Piece.IsCut (p : Piece) (rest : List Char) : Prop :=
  ∃ c w, p.spelling = c :: w ∧ cut c (w ++ rest) = (p, rest)

theorem isCut_string {contents : List Char} (h : '"' ∉ contents) (rest : List Char) :
    Piece.IsCut (.lexeme (.string (String.ofList contents)) ('"' :: (contents ++ ['"']))) rest := by
  refine ⟨'"', contents ++ ['"'], rfl, ?_⟩
  obtain ⟨ht, hd⟩ := span_append (· != '"') ('"' :: rest)
    (fun c hc => bne_iff_ne.mpr (ne_of_mem_of_not_mem hc h)) (by simp)
  change cutString (contents ++ ['"'] ++ rest) = _
  rw [List.append_assoc, List.singleton_append]
  unfold cutString
  rw [hd, ht]
  rfl

theorem isCut_unclosed {body : List Char} (h : '"' ∉ body) : Piece.IsCut (.unclosed body) [] := by
  refine ⟨'"', body, rfl, ?_⟩
  have hd : body.dropWhile (· != '"') = [] :=
    List.dropWhile_eq_nil_iff.mpr fun c hc => bne_iff_ne.mpr (ne_of_mem_of_not_mem hc h)
  change cutString (body ++ []) = _
  unfold cutString
  rw [List.append_nil, hd]

theorem isCut_comment {body rest : List Char} (h : '\n' ∉ body) (hr : ∀ c ∈ rest.head?, c = '\n') :
    Piece.IsCut (.comment body) rest := by
  refine ⟨'/', '/' :: body, rfl, ?_⟩
  obtain ⟨ht, hd⟩ := span_append (· != '\n') rest
    (fun c hc => bne_iff_ne.mpr (ne_of_mem_of_not_mem hc h)) (by simpa using hr)
  change (Piece.comment ((body ++ rest).takeWhile (· != '\n')),
    (body ++ rest).dropWhile (· != '\n')) = _
  rw [ht, hd]

theorem isCut_word {w rest : List Char} (h : IsWord w)
    (hr : ∀ c ∈ rest.head?, ¬ (c.isAlphanum ∨ c = '_')) :
    Piece.IsCut (.lexeme (.ofWord (String.ofList w)) w) rest := by
  obtain ⟨⟨c, hc, hs⟩, hw⟩ := h
  obtain ⟨w, rfl⟩ := List.head?_eq_some_iff.mp hc
  refine ⟨c, w, rfl, ?_⟩
  obtain ⟨ht, hd⟩ := span_append continuesName rest
    (fun d hd => continuesName_iff.mpr (hw d (List.mem_cons_of_mem c hd)))
    (fun d hd => continuesName_iff.not.mpr (hr d hd))
  rw [cut_word (startsName_iff.mpr hs), cutWord, ht, hd]

theorem IsDigits.exists_cons {w : List Char} (h : IsDigits w) :
    ∃ c v, w = c :: v ∧ c.isDigit ∧ ∀ d ∈ v, d.isDigit := by
  obtain ⟨hn, hw⟩ := h
  obtain ⟨c, v, rfl⟩ := List.exists_cons_of_ne_nil hn
  exact ⟨c, v, rfl, List.forall_mem_cons.mp hw⟩

theorem IsDigits.point_not_mem {w : List Char} (h : IsDigits w) : '.' ∉ w :=
  fun hp => absurd (h.2 _ hp) (by decide)

theorem isCut_whole {w rest : List Char} (h : IsDigits w) (hr : ∀ c ∈ rest.head?, ¬ c.isDigit)
    (hp : ∀ d after, rest = '.' :: d :: after → ¬ d.isDigit) :
    Piece.IsCut (.lexeme (.number (Decimal.ofDigits w []).toFloat) w) rest := by
  obtain ⟨c, v, rfl, hc, hv⟩ := h.exists_cons
  refine ⟨c, v, rfl, ?_⟩
  obtain ⟨ht, hd⟩ := span_append _ rest hv hr
  rw [cut_digit hc]
  unfold cutNumber
  rw [hd, ht]
  split
  · next d after => rw [if_neg (hp d after rfl)]
  · rfl

theorem isCut_fraction {w f rest : List Char} (hw : IsDigits w) (hf : IsDigits f)
    (hr : ∀ c ∈ rest.head?, ¬ c.isDigit) :
    Piece.IsCut (.lexeme (.number (Decimal.ofDigits w f).toFloat) (w ++ '.' :: f)) rest := by
  obtain ⟨c, v, rfl, hc, hv⟩ := hw.exists_cons
  obtain ⟨d, u, rfl, hd, hu⟩ := hf.exists_cons
  refine ⟨c, v ++ '.' :: d :: u, rfl, ?_⟩
  obtain ⟨htw, hdw⟩ := span_append Char.isDigit ('.' :: d :: (u ++ rest)) hv (by simp)
  obtain ⟨htf, hdf⟩ := span_append _ rest hu hr
  rw [cut_digit hc, List.append_assoc, List.cons_append, List.cons_append]
  unfold cutNumber
  simp only [hdw, htw, htf, hdf, if_pos hd]

theorem isCut_mark {m : Mark} {rest : List Char}
    (he : (Piece.lexeme (.mark m) m.text.toList).EndsBefore rest) :
    Piece.IsCut (.lexeme (.mark m) m.text.toList) rest := by
  obtain ⟨hl, hs⟩ := he
  obtain ⟨c, ht, hc⟩ | ⟨c, n, ht, hc, hn⟩ := m.text_cases
  · refine ⟨c, [], ht, ?_⟩
    rw [List.nil_append, cut_mark hc hs, ht]
    unfold cutMark
    split
    · next m' after hm =>
      exact absurd rfl (hl (Mark.isSome_withEqual?.mp (Option.isSome_iff_exists.mpr ⟨m', hm⟩)))
    · rfl
  · refine ⟨c, ['='], ht, ?_⟩
    rw [cut_mark hc (by simp), ht]
    unfold cutMark
    rw [hn]
    rfl

theorem isCut_stray {c : Char} (h : StartsNothing c) (rest : List Char) :
    Piece.IsCut (.stray c) rest := by
  refine ⟨c, [], rfl, ?_⟩
  have hb : isBlank c = false := by
    have := h.layout
    simp only [List.mem_cons, List.not_mem_nil, or_false, not_or] at this
    simp [isBlank, this]
  have hn : c ≠ '\n' := by
    rintro rfl
    exact h.layout (by simp)
  have hl : startsName c = false := by simpa using startsName_iff.not.mpr h.letter
  have hm : Mark.ofChar? c = none := by
    refine Option.eq_none_iff_forall_not_mem.mpr fun m hm => h.mark m ?_
    rw [Mark.text_of_ofChar? hm]
    rfl
  rw [List.nil_append]
  simp only [cut, hn, hb, h.quote, h.digit, hl, if_false, Bool.false_eq_true]
  split
  · exact absurd rfl (h.mark .slash)
  · rw [hm]

theorem Keyword.isWord_text (k : Keyword) : IsWord k.text.toList := by
  have ha : k.text.toList.all continuesName := by cases k <;> rfl
  refine ⟨?_, fun c hc => continuesName_iff.mp (List.all_eq_true.mp ha c hc)⟩
  cases k <;> exact ⟨_, rfl, by decide⟩

theorem Keyword.ofWord_text (k : Keyword) :
    Kind.ofWord (String.ofList k.text.toList) = .keyword k := by
  cases k <;> decide

theorem Kind.ofWord_of_ne {w : List Char} (h : ∀ k : Keyword, k.text.toList ≠ w) :
    ofWord (String.ofList w) = .identifier (String.ofList w) := by
  unfold ofWord
  split
  · next k hk => exact absurd (by rw [Keyword.text_of_ofText? hk, String.toList_ofList]) (h k)
  · rfl

theorem Piece.WellFormed.isCut {p : Piece} {rest : List Char} (h : p.WellFormed)
    (he : p.EndsBefore rest) : p.IsCut rest := by
  cases p with
  | blank c =>
    refine ⟨c, [], rfl, ?_⟩
    obtain rfl | rfl | rfl : c = ' ' ∨ c = '\r' ∨ c = '\t' := by simpa [WellFormed] using h
    all_goals rfl
  | newline => exact ⟨'\n', [], rfl, rfl⟩
  | comment body => exact isCut_comment h he
  | lexeme kind spelling =>
    cases h with
    | mark m => exact isCut_mark he
    | keyword k =>
      rw [← k.ofWord_text]
      exact isCut_word k.isWord_text he
    | name h hk =>
      rw [← Kind.ofWord_of_ne hk]
      exact isCut_word h he
    | string h => exact isCut_string h rest
    | whole h => exact isCut_whole h he.1 (he.2 h.point_not_mem)
    | fraction hw hf => exact isCut_fraction hw hf he.1
  | stray c => exact isCut_stray h rest
  | unclosed body =>
    cases he
    exact isCut_unclosed h

theorem tiles_pieces (source : List Char) : Tiles (pieces source) source := by
  fun_induction pieces source with
  | case1 => exact .nil
  | case2 c rest ih =>
    obtain ⟨hw, he⟩ := cut_fits c rest
    have := Tiles.cons hw he ih
    rwa [cut_spelling] at this

theorem Tiles.eq_pieces {ps : List Piece} {source : List Char} (h : Tiles ps source) :
    ps = pieces source := by
  induction h with
  | nil => rw [pieces_nil]
  | cons hw he _ ih =>
    obtain ⟨c, w, hs, hc⟩ := hw.isCut he
    rw [hs, List.cons_append, pieces_cons, hc, ← ih]

/-- An equals sign goes with the mark before it, and a comment begins no string. -/
example : pieces ['<', '=', '=', '/', '/', '"'] =
    [.lexeme (.mark .lessEqual) ['<', '='], .lexeme (.mark .equal) ['='], .comment ['"']] := by
  decide +kernel

/-- A lexeme by itself is the only piece of its text. -/
theorem Spells.pieces_eq {k : Kind} {w : List Char} (h : Spells k w) : pieces w = [.lexeme k w] := by
  have he : (Piece.lexeme k w).EndsBefore [] := by cases k <;> simp [Piece.EndsBefore]
  have ht := Tiles.cons (p := .lexeme k w) h he .nil
  rw [Piece.spelling, List.append_nil] at ht
  exact ht.eq_pieces.symm

/-- What a lexeme stands for is seen from its text. -/
theorem Spells.unique {w : List Char} {k k' : Kind} (h : Spells k w) (h' : Spells k' w) :
    k = k' := by
  have hp := h.pieces_eq.symm.trans h'.pieces_eq
  simpa using hp

namespace Piece

/-- What a token tells of its piece, the line apart. -/
def kept? : Piece → Option (Kind × String)
  | lexeme kind spelling => some (kind, String.ofList spelling)
  | _ => none

/-- What is said of a piece that is no part of the language. -/
def message? : Piece → Option String
  | stray _ => some "Unexpected character."
  | unclosed _ => some "Unterminated string."
  | _ => none

theorem map_token? (line : Nat) (p : Piece) :
    (p.token? line).map (fun t => (t.kind, t.lexeme)) = p.kept? := by
  cases p <;> rfl

theorem map_fault? (line : Nat) (p : Piece) :
    (p.fault? line).map (fun f => f.diagnostic.message) = p.message? := by
  cases p <;> rfl

/-- What is found in pieces, read from the given line on. -/
def found (of : Nat → Piece → Option α) (line : Nat) : List Piece → List α
  | [] => []
  | p :: ps => (of (line + p.breaks) p).toList ++ found of (line + p.breaks) ps

/-- The line that pieces lead to. -/
def lineAfter (line : Nat) : List Piece → Nat
  | [] => line
  | p :: ps => lineAfter (line + p.breaks) ps

theorem tokens_scan (line : Nat) (ps : List Piece) :
    (scan line ps).tokens = found token? line ps ++ [.stop (lineAfter line ps)] := by
  induction ps generalizing line with
  | nil => rfl
  | cons p ps ih => rw [scan, ih, ← List.append_assoc, found, lineAfter]

theorem faults_scan (line : Nat) (ps : List Piece) :
    (scan line ps).faults = found fault? line ps := by
  induction ps generalizing line with
  | nil => rfl
  | cons p ps ih => rw [scan, ih, found]

/-- What does not depend on the lines is the same with them and without. -/
theorem map_found {of : Nat → Piece → Option α} {view : α → β} {what : Piece → Option β}
    (h : ∀ line p, (of line p).map view = what p) (line : Nat) (ps : List Piece) :
    (found of line ps).map view = ps.filterMap what := by
  induction ps generalizing line with
  | nil => rfl
  | cons p ps ih =>
    rw [found, List.map_append, ih, List.filterMap_cons, ← h (line + p.breaks) p]
    cases of (line + p.breaks) p <;> rfl

end Piece

/-- Tokens and faults come from the only way to lay a source out in pieces as long as they can be:
a token from each lexeme, whose text says what it is, a fault from each piece that is no part of
the language, and the stop token at the end. -/
theorem tokenize_longest_match (source : String) :
    (∃ ps, Tiles ps source.toList ∧ (∀ qs, Tiles qs source.toList → qs = ps) ∧
      ps.flatMap Piece.spelling = source.toList ∧
      (tokenize source).tokens.map (fun t => (t.kind, t.lexeme)) =
        ps.filterMap Piece.kept? ++ [(.stop, "")] ∧
      (tokenize source).faults.map (fun f => f.diagnostic.message) = ps.filterMap Piece.message?) ∧
    ∀ w k k', Spells k w → Spells k' w → k = k' := by
  have ht := tiles_pieces source.toList
  refine ⟨⟨pieces source.toList, ht, fun qs hq => hq.eq_pieces, ht.spelled, ?_, ?_⟩,
    fun w k k' => Spells.unique⟩
  · rw [tokenize, Piece.tokens_scan, List.map_append, Piece.map_found Piece.map_token?]
    rfl
  · rw [tokenize, Piece.faults_scan, Piece.map_found Piece.map_fault?]

end SmallScript
