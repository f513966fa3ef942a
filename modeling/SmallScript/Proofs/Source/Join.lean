import SmallScript.Proofs.Relocation
import SmallScript.Proofs.Source.Lines

/-!
Sources joined by a newline. A newline ends every piece but a string, so unless the first source
leaves one open, the tokens and faults of both are those of each, with the second moved down.
-/
namespace SmallScript

/-- What may end before a text may end before it and a newline. -/
theorem Piece.EndsBefore.newline {p : Piece} {rest : List Char} (h : p.EndsBefore rest)
    (hp : ∀ body, p ≠ .unclosed body) (more : List Char) :
    p.EndsBefore (rest ++ '\n' :: more) := by
  have hh (c : Char) (hc : c ∈ (rest ++ '\n' :: more).head?) : c ∈ rest.head? ∨ c = '\n' := by
    cases rest with
    | nil => exact .inr (Option.some.inj hc).symm
    | cons d rest => exact .inl hc
  have hne {d : Char} (hd : d ≠ '\n') (h : rest.head? ≠ some d) :
      (rest ++ '\n' :: more).head? ≠ some d := fun hc => (hh d hc).elim h hd
  cases p with
  | blank | newline | stray => trivial
  | comment => exact fun c hc => (hh c hc).elim (h c) id
  | unclosed body => exact absurd rfl (hp body)
  | lexeme kind spelling =>
    cases kind with
    | stop | string => trivial
    | mark m => exact ⟨fun hm => hne (by decide) (h.1 hm), fun hm => hne (by decide) (h.2 hm)⟩
    | keyword | identifier =>
      intro c hc
      obtain hc | rfl := hh c hc
      · exact h c hc
      · decide
    | number =>
      refine ⟨fun c hc => ?_, fun hs d after hr => ?_⟩
      · obtain hc | rfl := hh c hc
        · exact h.1 c hc
        · decide
      · match rest, hr with
        | [], hr => cases hr
        | [_], hr =>
          cases hr
          decide
        | _ :: _ :: _, hr =>
          cases hr
          exact h.2 hs _ _ rfl

/-- Two tilings make one, with the newline for a piece between them. -/
theorem Tiles.join {ps qs : List Piece} {first second : List Char} (h : Tiles ps first)
    (hp : ∀ body, Piece.unclosed body ∉ ps) (h' : Tiles qs second) :
    Tiles (ps ++ .newline :: qs) (first ++ '\n' :: second) := by
  induction h with
  | nil => exact .cons (p := .newline) trivial trivial h'
  | @cons p ps rest hw he _ ih =>
    rw [List.cons_append, List.append_assoc]
    refine .cons hw (he.newline ?_ second) (ih ?_)
    · rintro body rfl
      exact hp body List.mem_cons_self
    · exact fun body hb => hp body (List.mem_cons_of_mem p hb)

theorem pieces_join {first : List Char} (h : ∀ body, Piece.unclosed body ∉ pieces first)
    (second : List Char) :
    pieces (first ++ '\n' :: second) = pieces first ++ .newline :: pieces second :=
  ((tiles_pieces first).join h (tiles_pieces second)).eq_pieces.symm

namespace Piece

variable {of : Nat → Piece → Option α}

theorem found_append (line : Nat) (ps qs : List Piece) :
    found of line (ps ++ qs) = found of line ps ++ found of (lineAfter line ps) qs := by
  induction ps generalizing line with
  | nil => rfl
  | cons p ps ih => rw [List.cons_append, found, found, ih, List.append_assoc, lineAfter]

/-- What is found in pieces that stand on later lines is the same on later lines. -/
theorem found_add {moved : α → α} {lines : Nat}
    (h : ∀ line p, of (line + lines) p = (of line p).map moved) (line : Nat) (ps : List Piece) :
    found of (line + lines) ps = (found of line ps).map moved := by
  induction ps generalizing line with
  | nil => rfl
  | cons p ps ih =>
    rw [found, found, Nat.add_right_comm, ih, h, List.map_append]
    cases of (line + p.breaks) p <;> rfl

/-- What is found in two sources with a newline between them. -/
theorem found_join {moved : α → α} {first : List Char} (second : List Char)
    (hp : ∀ body, unclosed body ∉ pieces first) (hn : ∀ line, of line newline = none)
    (h : ∀ line p, of (line + (first.count '\n' + 1)) p = (of line p).map moved) :
    found of 1 (pieces (first ++ '\n' :: second)) =
      found of 1 (pieces first) ++ (found of 1 (pieces second)).map moved := by
  have hl : lastLine first + newline.breaks = 1 + (first.count '\n' + 1) := rfl
  rw [pieces_join hp, found_append, (tiles_pieces first).lineAfter_eq, found, hn, hl, found_add h]
  rfl

theorem mem_found (of : Nat → Piece → Option α) {p : Piece} {ps : List Piece} (h : p ∈ ps)
    (line : Nat) :
    ∃ n, ∀ x ∈ of n p, x ∈ found of line ps := by
  induction ps generalizing line with
  | nil => cases h
  | cons q ps ih =>
    rw [found]
    obtain rfl | h := List.mem_cons.mp h
    · exact ⟨_, fun x hx => List.mem_append_left _ (Option.mem_toList.mpr hx)⟩
    · obtain ⟨n, hx⟩ := ih h (line + q.breaks)
      exact ⟨n, fun x hm => List.mem_append_right _ (hx x hm)⟩

theorem exists_of_mem_found {x : α} {ps : List Piece} {line : Nat} (h : x ∈ found of line ps) :
    ∃ p ∈ ps, ∃ n, of n p = some x := by
  induction ps generalizing line with
  | nil => cases h
  | cons q ps ih =>
    rw [found, List.mem_append, Option.mem_toList] at h
    obtain hq | h := h
    · exact ⟨q, List.mem_cons_self, _, hq⟩
    · obtain ⟨p, hp, hx⟩ := ih h
      exact ⟨p, List.mem_cons_of_mem q hp, hx⟩

theorem token?_relocate (move : Nat → Nat) (line : Nat) (p : Piece) :
    p.token? (move line) = (p.token? line).map (Token.relocate move) := by
  cases p <;> rfl

theorem fault?_relocate (move : Nat → Nat) (line : Nat) (p : Piece) :
    p.fault? (move line) = (p.fault? line).map (LexicalFault.relocate move) := by
  cases p <;> rfl

end Piece

theorem Spells.ne_stop {k : Kind} {w : List Char} (h : Spells k w) : k ≠ .stop := by
  cases h <;> exact Kind.noConfusion

theorem spells_of_mem_lexemes (source : String) :
    ∀ t ∈ lexemes source, Spells t.kind t.lexeme.toList := by
  intro t ht
  obtain ⟨p, hp, n, hn⟩ := Piece.exists_of_mem_found ht
  have hw := (tiles_pieces source.toList).wellFormed p hp
  cases p <;> cases hn
  rw [String.toList_ofList]
  exact hw

theorem kind_ne_stop_of_mem_lexemes (source : String) : ∀ t ∈ lexemes source, t.kind ≠ .stop :=
  fun t ht => (spells_of_mem_lexemes source t ht).ne_stop

theorem unclosed_not_mem {source : String}
    (h : ∀ f ∈ (tokenize source).faults, f.cause ≠ .unterminatedString) (body : List Char) :
    Piece.unclosed body ∉ pieces source.toList := by
  intro hb
  rw [faults_tokenize] at h
  obtain ⟨n, hx⟩ := Piece.mem_found Piece.fault? hb 1
  exact h _ (hx _ rfl) rfl

/-- How far a source moves down when another is put before it. -/
def linesBefore (first : String) : Nat := first.toList.count '\n' + 1

theorem tokenize_join (first second : String)
    (h : ∀ f ∈ (tokenize first).faults, f.cause ≠ .unterminatedString) :
    (tokenize (first ++ "\n" ++ second)).tokens = lexemes first ++
        (tokenize second).tokens.map (Token.relocate (· + linesBefore first)) ∧
      (tokenize (first ++ "\n" ++ second)).faults = (tokenize first).faults ++
        (tokenize second).faults.map (LexicalFault.relocate (· + linesBefore first)) := by
  have hj : (first ++ "\n" ++ second).toList = first.toList ++ '\n' :: second.toList := by simp
  have hp := unclosed_not_mem h
  constructor
  · have hl : lastLine (first.toList ++ '\n' :: second.toList) =
        lastLine second.toList + linesBefore first := by
      rw [lastLine_append, List.count_cons_self, lastLine, lastLine, linesBefore]
      omega
    have ht := Piece.found_join second.toList hp (fun _ => rfl)
      (Piece.token?_relocate (· + linesBefore first))
    rw [tokens_tokenize, tokens_tokenize, lexemes, hj, ht, hl, List.map_append, List.append_assoc]
    rfl
  · rw [faults_tokenize, faults_tokenize, faults_tokenize, hj]
    exact Piece.found_join second.toList hp (fun _ => rfl)
      (Piece.fault?_relocate (· + linesBefore first))

/-- Sources one below the other. What stands behind a newline is read as it is alone, on lines that
are lower by those before it, whatever it is, exactly if what stands before leaves no string open. -/
theorem tokenize_newline (first : String) :
    (∀ f ∈ (tokenize first).faults, f.cause ≠ .unterminatedString) ↔
      ∀ second, tokenize (first ++ "\n" ++ second) =
        { tokens := (tokenize first).tokens.dropLast ++ (tokenize second).tokens.map fun t =>
            { t with line := t.line + (first.toList.count '\n' + 1) }
          faults := (tokenize first).faults ++ (tokenize second).faults.map fun f =>
            { f with line := f.line + (first.toList.count '\n' + 1) } } := by
  constructor
  · intro h second
    obtain ⟨ht, hf⟩ := tokenize_join first second h
    have hd : (tokenize first).tokens.dropLast = lexemes first := by
      rw [tokens_tokenize, List.dropLast_concat]
    rw [hd]
    cases hj : tokenize (first ++ "\n" ++ second)
    rw [hj] at ht hf
    exact congrArg₂ Tokenized.mk ht hf
  · -- an open string would have to be reported on the last line of either source
    intro h f hm hc
    have hfaults := congrArg Tokenized.faults (h "")
    have hj : f ∈ (tokenize (first ++ "\n" ++ "")).faults := by
      rw [hfaults]
      exact List.mem_append_left _ hm
    have hline : lastLine first.toList = lastLine (first ++ "\n" ++ "").toList :=
      (line_of_unterminated hm hc).symm.trans (line_of_unterminated hj hc)
    simp [lastLine] at hline

end SmallScript
