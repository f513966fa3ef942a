import SmallScript.Proofs.Grammar.Parse
import SmallScript.Proofs.Reading.Append
import SmallScript.Proofs.Reading.Extent

/-!
What follows a program does not change how it is read, nor do its faults change how that is read. A
fault that is not at the very end is over at the next semicolon, so where one ends the program, or
there are no faults at all, reading goes over to what follows as if it were begun anew there.
-/
namespace SmallScript

/-- The last of these tokens is a semicolon, if there is one. -/
def Closed (ts : List Token) : Prop := ∀ t ∈ ts.getLast?, t.kind = .mark .semicolon

theorem Closed.suffix {rest ts : List Token} (h : Closed ts) (hs : rest <:+ ts) : Closed rest := by
  obtain ⟨taken, rfl⟩ := hs
  intro t ht
  apply h
  rw [List.getLast?_append, Option.mem_def.mp ht]
  rfl

/-- What takes no semicolon does not take all of some tokens that end with one. -/
theorem Closed.rest_ne_nil {r : Reading α} {ts : List Token} (h : Closed ts) (hne : ts ≠ [])
    (ht : r.Takes (fun k => k ≠ .mark .semicolon) ts) : r.rest ≠ [] := by
  intro hr
  obtain ⟨taken, hts, hk⟩ := ht
  rw [hr, List.append_nil] at hts
  rw [hts] at h hne
  exact hk _ (List.getLast_mem hne) (h _ (List.getLast?_eq_some_getLast hne))

/-- Recovery ends at the last semicolon at the latest. -/
theorem resumeAfter_append {dropped : Token} {ts : List Token} (h : Closed (dropped :: ts))
    (us : List Token) : resumeAfter dropped (ts ++ us) = resumeAfter dropped ts ++ us := by
  induction ts generalizing dropped with
  | nil =>
    have hk : dropped.kind = .mark .semicolon := h dropped rfl
    cases us with
    | nil => rfl
    | cons u us => exact if_pos (.inl hk)
  | cons t ts ih =>
    rw [List.cons_append, resumeAfter, resumeAfter]
    split
    · rfl
    · exact ih (h.suffix (List.suffix_cons dropped (t :: ts)))

theorem recover_append {ts : List Token} (h : Closed ts) (hne : ts ≠ []) (us : List Token) :
    recover (ts ++ us) = recover ts ++ us := by
  cases ts with
  | nil => exact absurd rfl hne
  | cons t ts => exact resumeAfter_append h us

/-- Whatever follows these tokens has no part in these faults: there are none, or the tokens end
with a semicolon and no fault is at their end. -/
def Sealed (faults : List SyntaxFault) (ts : List Token) : Prop :=
  faults = [] ∨ Closed ts ∧ ∀ f ∈ faults, f.token.kind ≠ .stop

theorem Sealed.mono {faults faults' : List SyntaxFault} {ts ts' : List Token}
    (h : Sealed faults ts) (hf : faults' ⊆ faults) (hs : ts' <:+ ts) : Sealed faults' ts' := by
  obtain h0 | ⟨hc, hk⟩ := h
  · exact .inl (List.subset_nil.mp (h0 ▸ hf))
  · exact .inr ⟨hc.suffix hs, fun f hmem => hk f (hf hmem)⟩

/-- The same outcome with more tokens behind those left over. -/
def Attempt.append (a : Attempt) (us : List Token) : Attempt :=
  { a with reading := a.reading.append us }

/-- The same outcome with more tokens behind those left over. -/
def Declaration.append (d : Declaration) (us : List Token) : Declaration :=
  { d with rest := d.rest ++ us }

theorem Attempt.declaration_append {a : Attempt}
    (h : ∀ fault rest, a.reading = .failed fault rest → Closed rest ∧ rest ≠ [])
    (us : List Token) : (a.append us).declaration = a.declaration.append us := by
  obtain ⟨reading, recovered⟩ := a
  cases reading with
  | done s rest => rfl
  | failed fault rest =>
    obtain ⟨hc, hne⟩ := h fault rest rfl
    have hr := recover_append hc hne us
    simp only [Attempt.append, Reading.append_failed, Attempt.declaration, hr, Declaration.append]

/-- The second reader of declarations does the same as the first with more tokens, unless these may
have a part in a fault. -/
structure Seals (declare declare' : List Token → Declaration) : Prop where
  forward : Forward declare
  forward' : Forward declare'
  append : ∀ ts us, Sealed (declare ts).faults ts → declare' (ts ++ us) = (declare ts).append us

namespace Body

/-- Two sequences, the second of which is read from where the first ends. -/
def followedBy (b c : Body) : Body := ⟨b.statements ++ c.statements, b.faults ++ c.faults, c.rest⟩

theorem empty_followedBy (ts : List Token) (b : Body) : (empty ts).followedBy b = b := rfl

theorem cons_followedBy (first : Declaration) (others b : Body) :
    (cons first others).followedBy b = cons first (others.followedBy b) := by
  simp only [cons, followedBy, List.append_assoc]

/-- Reading goes over from some tokens to those that follow them as if it were begun anew there. -/
theorem read_append {declare declare' : List Token → Declaration} {ends : List Token → Bool}
    (he : ends [] = true) (hends : ∀ t ts us, ends (t :: ts ++ us) = ends (t :: ts))
    (h : Seals declare declare') (ts us : List Token)
    (hs : Sealed (read declare ends ts).faults ts) :
    read declare' ends (ts ++ us) =
      (read declare ends ts).followedBy
        (read declare' ends ((read declare ends ts).rest ++ us)) := by
  revert hs
  refine read_induction he h.forward (P := fun ts b => Sealed b.faults ts →
    read declare' ends (ts ++ us) = b.followedBy (read declare' ends (b.rest ++ us))) ?_ ?_ ts
  · intro ts _ _
    rw [empty_followedBy]
    rfl
  · intro ts others hfalse ih hs
    have hfirst := h.append ts us (hs.mono (List.subset_append_left _ _) (List.suffix_refl ts))
    have hothers := ih (hs.mono (List.subset_append_right _ _) (h.forward.suffix ts))
    have hne : ends (ts ++ us) = false := by
      cases ts with
      | nil => rw [he] at hfalse; cases hfalse
      | cons t ts => rw [hends, hfalse]
    rw [read_eq he h.forward'.shorter, hne, hfirst, cons_followedBy]
    simp only [Bool.false_eq_true, if_false, Declaration.append]
    rw [hothers]
    rfl

/-- A block's body that ends at a brace ends there, whatever follows. -/
theorem read_closesBlock_append {declare declare' : List Token → Declaration}
    (h : Seals declare declare') (ts us : List Token)
    (hs : Sealed (read declare closesBlock ts).faults ts)
    (hne : (read declare closesBlock ts).rest ≠ []) :
    read declare' closesBlock (ts ++ us) =
      { read declare closesBlock ts with rest := (read declare closesBlock ts).rest ++ us } := by
  have hends : closesBlock (read declare closesBlock ts).rest = true :=
    ends_rest rfl h.forward ts
  have hrest : closesBlock ((read declare closesBlock ts).rest ++ us) = true := by
    cases hr : (read declare closesBlock ts).rest with
    | nil => exact absurd hr hne
    | cons t after =>
      rw [hr] at hends
      exact hends
  rw [read_append rfl (fun _ _ _ => rfl) h ts us hs,
    read_eq rfl h.forward'.shorter (_ ++ us), hrest]
  simp only [if_true, followedBy, empty, List.append_nil]

end Body

namespace Stmt

open Reading

variable {stop stop' : Token} {room : Nat} {inner inner' : Option (List Token → Declaration)}

theorem readBlock_append (h : Option.Rel Seals inner inner') (ts us : List Token)
    (hs : Sealed (readBlock stop inner ts).recovered ts)
    (hne : ∀ fault, (readBlock stop inner ts).reading ≠ .failed fault []) :
    readBlock stop' inner' (ts ++ us) = (readBlock stop inner ts).append us := by
  cases h with
  | none =>
    have hts : ts ≠ [] := by
      intro ht
      exact hne _ (by rw [ht]; rfl)
    have hf := fail_continues (α := Stmt) stop stop' .tooDeep ts us hts
    simp only [readBlock, hf]
    rfl
  | @some declare declare' h =>
    have hrest : (Body.read declare closesBlock ts).rest ≠ [] := by
      intro hr
      refine hne ⟨stop, .openBlock⟩ ?_
      simp only [readBlock, hr]
      rfl
    have hb := Body.read_closesBlock_append h ts us hs hrest
    have hm := (mark_concludes stop stop' .rightBrace .openBlock).andThen_done
      (fun _ => Stmt.block (Body.read declare closesBlock ts).statements)
      (Body.read declare closesBlock ts).rest us hne
    simp only [readBlock, hb, Attempt.append]
    rw [← hm]

theorem readAround_append (h : Option.Rel Seals inner inner') (ts us : List Token)
    (hs : Sealed (readAround stop room inner ts).recovered ts)
    (hne : ∀ fault, (readAround stop room inner ts).reading ≠ .failed fault []) :
    readAround stop' room inner' (ts ++ us) = (readAround stop room inner ts).append us := by
  cases ts with
  | nil => exact absurd rfl (hne _)
  | cons t ts =>
    rw [readAround] at hs hne
    rw [List.cons_append, readAround, readAround]
    split at hne
    · rw [readDeclared_concludes ts us hne]
      rfl
    · rw [readClosed_concludes _ _ ts us hne]
      rfl
    · next hk =>
      simp only [hk] at hs
      exact readBlock_append h ts us (hs.mono (List.Subset.refl _) (List.suffix_cons t ts)) hne
    · rw [← List.cons_append, readClosed_concludes _ _ (t :: ts) us hne]
      rfl

end Stmt

/-- A fault that is not at the end leaves tokens over, and they still end with a semicolon. -/
theorem rest_of_sealed {stop : Token} (hstop : stop.kind = .stop) {room : Nat}
    {inner : Option (List Token → Declaration)} (hd : ∀ declare ∈ inner, Forward declare)
    {ts rest : List Token} {fault : SyntaxFault}
    (hs : Sealed (Stmt.readAround stop room inner ts).declaration.faults ts)
    (hr : (Stmt.readAround stop room inner ts).reading = .failed fault rest) :
    Closed rest ∧ rest ≠ [] := by
  simp only [Attempt.declaration, hr] at hs
  obtain h0 | ⟨hc, hk⟩ := hs
  · exact absurd (List.append_eq_nil_iff.mp h0).2 (List.cons_ne_nil _ _)
  · have hf := hk fault (List.mem_append_right _ (List.mem_singleton_self fault))
    obtain ht | ⟨hfault, _⟩ := Stmt.readAround_failed hd hr
    · refine ⟨hc.suffix ht.suffix, hc.rest_ne_nil ?_ ht⟩
      intro hts
      rw [hts] at hr
      cases hr
      exact hf hstop
    · rw [hfault] at hf
      exact absurd hstop hf

/-- A declaration is the same with more tokens, unless these may have a part in its faults. -/
theorem declaration_append {stop : Token} (hstop : stop.kind = .stop) (stop' : Token) {room : Nat}
    {inner inner' : Option (List Token → Declaration)} (h : Option.Rel Seals inner inner')
    (ts us : List Token) (hs : Sealed (Stmt.readAround stop room inner ts).declaration.faults ts) :
    (Stmt.readAround stop' room inner' (ts ++ us)).declaration =
      (Stmt.readAround stop room inner ts).declaration.append us := by
  have hd : ∀ declare ∈ inner, Forward declare := by
    intro declare hmem
    cases h with
    | none => cases hmem
    | some h =>
      cases hmem
      exact h.forward
  have hrest (fault : SyntaxFault) (rest : List Token)
      (hr : (Stmt.readAround stop room inner ts).reading = .failed fault rest) :=
    rest_of_sealed hstop hd hs hr
  have hsealed : Sealed (Stmt.readAround stop room inner ts).recovered ts := by
    refine hs.mono ?_ (List.suffix_refl ts)
    rw [Attempt.declaration]
    split
    · exact List.Subset.refl _
    · exact List.subset_append_left _ _
  rw [Stmt.readAround_append h ts us hsealed fun fault hf => (hrest fault [] hf).2 rfl,
    Attempt.declaration_append hrest us]

theorem Declaration.read_seals {stop : Token} (hstop : stop.kind = .stop) (stop' : Token)
    (room : Nat) : Seals (Declaration.read stop room) (Declaration.read stop' room) := by
  induction room with
  | zero =>
    exact ⟨read_forward stop 0, read_forward stop' 0, declaration_append hstop stop' .none⟩
  | succ room ih =>
    exact ⟨read_forward stop (room + 1), read_forward stop' (room + 1),
      declaration_append hstop stop' (.some ih)⟩

theorem parseBody_append {stop : Token} (hstop : stop.kind = .stop) (stop' : Token)
    (ts us : List Token) (hs : Sealed (parseBody stop ts).faults ts) :
    parseBody stop' (ts ++ us) = (parseBody stop ts).followedBy (parseBody stop' us) := by
  have h := Declaration.read_seals hstop stop' maxNesting
  have hr : (Body.read (Declaration.read stop maxNesting) List.isEmpty ts).rest = [] :=
    rest_parseBody stop ts
  rw [parseBody, Body.read_append rfl (fun _ _ _ => rfl) h ts us hs, hr, List.nil_append]
  rfl

theorem find?_stop {us : List Token} (h : ∀ t ∈ us, t.kind ≠ .stop) (rest : List Token) :
    (us ++ rest).find? (fun t => t.kind == .stop) = rest.find? fun t => t.kind == .stop := by
  rw [List.find?_append, List.find?_eq_none.mpr (by simpa using h), Option.none_or]

/-- A token list is read up to its first stop token. -/
theorem parse_before_stop {us : List Token} (h : ∀ t ∈ us, t.kind ≠ .stop) {stop : Token}
    (hs : stop.kind = .stop) (rest : List Token) :
    parse (us ++ stop :: rest) =
      ⟨(parseBody stop us).statements, (parseBody stop us).faults⟩ := by
  have hf : (stop :: rest).find? (fun t => t.kind == .stop) = some stop := by simp [hs]
  rw [parse, find?_stop h, hf, takeWhile_ne_stop h hs]
  rfl

theorem parse_stop {us : List Token} (h : ∀ t ∈ us, t.kind ≠ .stop) {stop : Token}
    (hs : stop.kind = .stop) :
    parse (us ++ [stop]) = ⟨(parseBody stop us).statements, (parseBody stop us).faults⟩ :=
  parse_before_stop h hs []

/-- Faults are contained. Where the tokens of one program have no fault, or end with a semicolon and
have no fault at their end, another program behind them is read as it is alone, and so are they. -/
theorem parse_append (a b : List Token) (stop : Token) (ha : ∀ t ∈ a, t.kind ≠ .stop)
    (hs : stop.kind = .stop)
    (h : (parse (a ++ [stop])).faults = [] ∨
      (∃ t ∈ a.getLast?, t.kind = .mark .semicolon) ∧
        ∀ f ∈ (parse (a ++ [stop])).faults, f.token.kind ≠ .stop) :
    parse (a ++ b) =
      ⟨(parse (a ++ [stop])).program ++ (parse b).program,
        (parse (a ++ [stop])).faults ++ (parse b).faults⟩ := by
  have hstop : parse (a ++ [stop]) =
      ⟨(parseBody stop a).statements, (parseBody stop a).faults⟩ := by
    have hf : [stop].find? (fun t => t.kind == .stop) = some stop := by simp [hs]
    rw [parse, find?_stop ha, hf, takeWhile_ne_stop ha hs]
    rfl
  rw [hstop] at h ⊢
  have hsealed : Sealed (parseBody stop a).faults a := by
    obtain h0 | ⟨⟨t, ht, hk⟩, hf⟩ := h
    · exact .inl h0
    · refine .inr ⟨?_, hf⟩
      intro u hu
      rw [Option.mem_unique hu ht]
      exact hk
  have htake : (a ++ b).takeWhile (fun t => t.kind != .stop) =
      a ++ b.takeWhile fun t => t.kind != .stop :=
    List.takeWhile_append_of_pos (by simpa using ha)
  rw [parse, find?_stop ha, htake]
  simp only [parseBody_append hs _ a _ hsealed]
  rfl

/-- A fault within a block and one at an assignment do not reach the program behind them. -/
theorem parse_append_faulty :
    parse ([⟨.mark .leftBrace, "\x7b", 1⟩, ⟨.keyword .printWord, "print", 1⟩,
        ⟨.mark .semicolon, ";", 1⟩, ⟨.mark .rightBrace, "\x7d", 1⟩, ⟨.keyword .nilWord, "nil", 2⟩,
        ⟨.mark .equal, "=", 2⟩, ⟨.keyword .trueWord, "true", 2⟩, ⟨.mark .semicolon, ";", 2⟩] ++
        [⟨.keyword .printWord, "print", 3⟩, ⟨.keyword .nilWord, "nil", 3⟩,
        ⟨.mark .semicolon, ";", 3⟩, ⟨.keyword .printWord, "print", 3⟩, ⟨.stop, "", 3⟩]) =
      ⟨[.block [], .print (.literal .nil)],
        [⟨⟨.mark .semicolon, ";", 1⟩, .missingExpression⟩, ⟨⟨.mark .equal, "=", 2⟩, .badTarget⟩,
          ⟨⟨.stop, "", 3⟩, .missingExpression⟩]⟩ :=
  (parse_append _ _ ⟨.stop, "", 2⟩ (by decide) rfl (.inr ⟨⟨_, rfl, rfl⟩, by decide⟩)).trans rfl

end SmallScript
