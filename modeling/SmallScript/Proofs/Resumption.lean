import SmallScript.Proofs.Containment
import SmallScript.Proofs.Reading.Barrier

/-!
Reading resumes at the next word that starts a statement, unless the fault is met only there: then
that word is the token that recovery drops, and the statement that it starts is lost.
-/
namespace SmallScript

theorem Kind.startsStatement_bars {k : Kind} (h : k.startsStatement) :
    k.inExpression = false ∧ k ≠ .mark .semicolon := by
  unfold startsStatement at h
  split at h
  case h_9 => cases h
  all_goals exact ⟨rfl, by simp⟩

theorem bars_of_startsStatement {u : Token} (h : u.kind.startsStatement) (us : List Token) :
    Bars (u :: us) := by
  intro t ht
  cases ht
  exact Kind.startsStatement_bars h

/-- Recovery that starts before such a word ends there at the latest. -/
theorem resumeAfter_of_startsStatement {u : Token} (h : u.kind.startsStatement) (us : List Token)
    (dropped : Token) (ts : List Token) :
    resumeAfter dropped (ts ++ u :: us) = resumeAfter dropped ts ++ u :: us := by
  induction ts generalizing dropped with
  | nil => exact if_pos (.inr h)
  | cons t ts ih =>
    rw [List.cons_append, resumeAfter, resumeAfter]
    split
    · rfl
    · exact ih t

theorem recover_of_startsStatement {u : Token} (h : u.kind.startsStatement) (us : List Token)
    {ts : List Token} (hne : ts ≠ []) : recover (ts ++ u :: us) = recover ts ++ u :: us := by
  cases ts with
  | nil => exact absurd rfl hne
  | cons t ts => exact resumeAfter_of_startsStatement h us t ts

/-- Recovery from the start of a simple statement ends behind its semicolon. -/
theorem resumeAfter_semicolon {dropped t : Token} {taken : List Token}
    (hd : dropped.kind ≠ .mark .semicolon) (ht : ∀ u ∈ taken, u.kind.inExpression)
    (hs : t.kind = .mark .semicolon) (rest : List Token) :
    resumeAfter dropped (taken ++ t :: rest) = rest := by
  induction taken generalizing dropped with
  | nil =>
    have hn : ¬ (dropped.kind = .mark .semicolon ∨ t.kind.startsStatement) := by
      rw [hs]
      simp [hd, Kind.startsStatement]
    rw [List.nil_append, resumeAfter, if_neg hn]
    cases rest with
    | nil => rfl
    | cons u rest => exact if_pos (.inl hs)
  | cons u taken ih =>
    -- neither a semicolon nor a word that starts a statement is in an expression
    obtain ⟨hu, ht⟩ := List.forall_mem_cons.mp ht
    have hn : ¬ (dropped.kind = .mark .semicolon ∨ u.kind.startsStatement) := by
      rintro (h | h)
      · exact hd h
      · rw [(Kind.startsStatement_bars h).1] at hu
        cases hu
    rw [List.cons_append, resumeAfter, if_neg hn]
    exact ih (Kind.ne_semicolon_of_inExpression hu) ht

namespace Stmt

open Reading

variable {stop : Token} {room : Nat} {ts rest : List Token} {st : Stmt}

theorem readClosed_done {cause : SyntaxCause} {build : Expr → Stmt}
    (h : readClosed stop room cause build ts = .done st rest) :
    ∃ taken t, ts = taken ++ t :: rest ∧ (∀ u ∈ taken, u.kind.inExpression) ∧
      t.kind = .mark .semicolon := by
  obtain ⟨e, after, he, hm⟩ := andThen_eq_done.mp h
  obtain ⟨t, after', hmark, hdone⟩ := andThen_eq_done.mp hm
  obtain ⟨rfl, ht⟩ := mark_eq_done.mp hmark
  cases hdone
  obtain ⟨taken, hts, htaken⟩ := Expr.read_takes stop room ts
  rw [he] at hts
  exact ⟨taken, t, hts, htaken, ht⟩

theorem readInitializer_done {name : Token}
    (h : readInitializer stop room name ts = .done st rest) :
    ∃ taken t, ts = taken ++ t :: rest ∧ (∀ u ∈ taken, u.kind.inExpression) ∧
      t.kind = .mark .semicolon := by
  unfold readInitializer at h
  split at h
  · cases h
  · next t ts =>
    split at h
    · next hk =>
      obtain ⟨taken, s, rfl, htaken, hs⟩ := readClosed_done h
      have ht : t.kind.inExpression := by simp [Kind.inExpression, hk]
      exact ⟨t :: taken, s, rfl, List.forall_mem_cons.mpr ⟨ht, htaken⟩, hs⟩
    · obtain ⟨s, after, hmark, hdone⟩ := andThen_eq_done.mp h
      obtain ⟨hts, hs⟩ := mark_eq_done.mp hmark
      cases hdone
      exact ⟨[], s, hts, List.forall_mem_nil _, hs⟩

theorem readDeclared_done (h : readDeclared stop room ts = .done st rest) :
    ∃ taken t, ts = taken ++ t :: rest ∧ (∀ u ∈ taken, u.kind.inExpression) ∧
      t.kind = .mark .semicolon := by
  unfold readDeclared at h
  split at h
  · cases h
  · next t ts =>
    split at h
    · next hk =>
      obtain ⟨taken, s, rfl, htaken, hs⟩ := readInitializer_done h
      have ht : t.kind.inExpression := by simp [Kind.inExpression, Kind.isName, hk]
      exact ⟨t :: taken, s, rfl, List.forall_mem_cons.mpr ⟨ht, htaken⟩, hs⟩
    · cases h

/-- Recovery from the word that starts a statement drops just that statement. -/
theorem recover_of_done {inner : Option (List Token → Declaration)} {t : Token}
    (ht : t.kind = .keyword .printWord ∨ t.kind = .keyword .varWord)
    (h : (readAround stop room inner (t :: ts)).reading = .done st rest) :
    recover (t :: ts) = rest := by
  have hd : t.kind ≠ .mark .semicolon := by
    rintro hk
    rw [hk] at ht
    simp at ht
  have htaken : ∃ taken s, ts = taken ++ s :: rest ∧ (∀ u ∈ taken, u.kind.inExpression) ∧
      s.kind = .mark .semicolon := by
    rw [readAround] at h
    obtain hk | hk := ht
    · simp only [hk] at h
      exact readClosed_done h
    · simp only [hk] at h
      exact readDeclared_done h
  obtain ⟨taken, s, rfl, htaken, hs⟩ := htaken
  exact resumeAfter_semicolon hd htaken hs rest

end Stmt

/-- It failed where the tokens end. -/
def Reading.breaksOff : Reading α → Bool
  | .failed _ [] => true
  | _ => false

/-- Before a word that starts a statement, a statement that breaks off costs that word; any other
leaves what it leaves without it. -/
theorem Attempt.declaration_before {u : Token} (hu : u.kind.startsStatement) (us : List Token)
    {a a' : Attempt} (h : a.reading.Beside (u :: us) a'.reading) :
    a'.declaration.statement? = a.declaration.statement? ∧
      a'.declaration.rest =
        if a.reading.breaksOff then recover (u :: us) else a.declaration.rest ++ u :: us := by
  obtain ⟨reading, recovered⟩ := a
  obtain ⟨reading', recovered'⟩ := a'
  cases h with
  | done s rest => exact ⟨rfl, rfl⟩
  | failed fault fault' rest =>
    cases rest with
    | nil => exact ⟨rfl, rfl⟩
    | cons t rest => exact ⟨rfl, recover_of_startsStatement hu us (List.cons_ne_nil t rest)⟩

/-- A statement at the top level, before recovery. -/
def Stmt.readTopLevel (stop : Token) (ts : List Token) : Attempt :=
  readAround stop maxNesting (some (Declaration.read stop (maxNesting - 1))) ts

/-- Reading these tokens one declaration after another comes to one that fails only where they
end. -/
inductive BreaksOff (stop : Token) : List Token → Prop where
  | here {t : Token} {ts : List Token}
    (h : (Stmt.readTopLevel stop (t :: ts)).reading.breaksOff) : BreaksOff stop (t :: ts)
  | later {t : Token} {ts : List Token}
    (h : BreaksOff stop (Declaration.read stop maxNesting (t :: ts)).rest) :
    BreaksOff stop (t :: ts)

section

variable {stop stop' t u : Token} {ts : List Token}

theorem Declaration.read_maxNesting (stop : Token) (ts : List Token) :
    Declaration.read stop maxNesting ts = (Stmt.readTopLevel stop ts).declaration := rfl

/-- Nothing is left to read behind a declaration that breaks off. -/
theorem Declaration.rest_of_breaksOff (h : (Stmt.readTopLevel stop ts).reading.breaksOff) :
    (Declaration.read stop maxNesting ts).rest = [] := by
  rw [Declaration.read_maxNesting, Attempt.declaration]
  cases hd : (Stmt.readTopLevel stop ts).reading with
  | done s rest =>
    rw [hd] at h
    cases h
  | failed fault rest =>
    rw [hd] at h
    cases rest with
    | nil => rfl
    | cons t rest => cases h

/-- The first declaration is the same before such a word. -/
theorem statements_parseBody_before (hu : u.kind.startsStatement) (us : List Token)
    (ht : t.kind ≠ .mark .leftBrace) :
    (parseBody stop' (t :: ts ++ u :: us)).statements =
      (Declaration.read stop maxNesting (t :: ts)).statement?.toList ++
        (parseBody stop' (if (Stmt.readTopLevel stop (t :: ts)).reading.breaksOff
          then recover (u :: us)
          else (Declaration.read stop maxNesting (t :: ts)).rest ++ u :: us)).statements := by
  have hb : Reading.Beside (u :: us) (Stmt.readTopLevel stop (t :: ts)).reading
      (Stmt.readTopLevel stop' (t :: ts ++ u :: us)).reading :=
    Stmt.readAround_haltsAt (bars_of_startsStatement hu us) ht ts
  obtain ⟨hs, hr⟩ := Attempt.declaration_before hu us hb
  rw [List.cons_append, parseBody_cons, Body.cons, ← List.cons_append,
    Declaration.read_maxNesting, Declaration.read_maxNesting, hs, hr]

/-- Reading goes on from the word that starts a statement as if it were begun anew there. -/
theorem parseBody_before (hu : u.kind.startsStatement) (us : List Token)
    (ht : ∀ t ∈ ts, t.kind ≠ .mark .leftBrace) (hb : ¬ BreaksOff stop ts) :
    (parseBody stop' (ts ++ u :: us)).statements =
      (parseBody stop ts).statements ++ (parseBody stop' (u :: us)).statements := by
  revert ht hb
  refine parseBody_induction (P := fun ts b => (∀ t ∈ ts, t.kind ≠ .mark .leftBrace) →
    ¬ BreaksOff stop ts → (parseBody stop' (ts ++ u :: us)).statements =
      b.statements ++ (parseBody stop' (u :: us)).statements) ?_ ?_ ts
  · intro _ _
    rfl
  · intro t ts others ih ht hb
    have hs := (Declaration.rest_read stop maxNesting (t :: ts)).1
    have hothers := ih (fun u hu => ht u (hs.subset hu)) fun h => hb (.later h)
    rw [statements_parseBody_before hu us (ht t List.mem_cons_self),
      if_neg fun h => hb (.here h), hothers, ← List.append_assoc]
    rfl

/-- Where reading breaks off, it goes on from where recovery from that word comes to. -/
theorem BreaksOff.parseBody_before (hb : BreaksOff stop ts) (hu : u.kind.startsStatement)
    (us : List Token) (ht : ∀ t ∈ ts, t.kind ≠ .mark .leftBrace) :
    (parseBody stop' (ts ++ u :: us)).statements =
      (parseBody stop ts).statements ++ (parseBody stop' (recover (u :: us))).statements := by
  induction hb with
  | @here t ts h =>
    rw [statements_parseBody_before hu us (ht t List.mem_cons_self), if_pos h, parseBody_cons stop,
      Declaration.rest_of_breaksOff h]
    simp only [Body.cons, List.append_assoc]
    rfl
  | @later t ts h ih =>
    have hs := (Declaration.rest_read stop maxNesting (t :: ts)).1
    -- behind a declaration that breaks off there are no tokens for another one to break off
    have hne : ¬ (Stmt.readTopLevel stop (t :: ts)).reading.breaksOff := by
      intro hf
      rw [Declaration.rest_of_breaksOff hf] at h
      cases h
    rw [statements_parseBody_before hu us (ht t List.mem_cons_self), if_neg hne,
      ih fun u hu => ht u (hs.subset hu), ← List.append_assoc, parseBody_cons stop]
    rfl

/-- Recovery from the start of a program without faults loses its first statement only. -/
theorem statements_recover {k : Token}
    (hk : k.kind = .keyword .printWord ∨ k.kind = .keyword .varWord)
    (hf : (parseBody stop (k :: ts)).faults = []) :
    (parseBody stop (recover (k :: ts))).statements =
      (parseBody stop (k :: ts)).statements.tail := by
  rw [parseBody_cons, Declaration.read_maxNesting, Attempt.declaration] at hf ⊢
  cases hd : (Stmt.readTopLevel stop (k :: ts)).reading with
  | done s rest =>
    rw [Stmt.recover_of_done hk hd]
    rfl
  | failed fault rest =>
    rw [hd] at hf
    have hfirst := (List.append_eq_nil_iff.mp hf).1
    exact absurd (List.append_eq_nil_iff.mp hfirst).2 (List.cons_ne_nil fault [])

end

/-- Reading resumes at the next word that starts a statement, so a program behind such tokens is
read as it is alone, unless their fault is met only there: then its first statement is lost. -/
theorem parse_resumes (a b : List Token) (stop k : Token)
    (ha : ∀ t ∈ a, t.kind ≠ .stop ∧ t.kind ≠ .mark .leftBrace) (hs : stop.kind = .stop)
    (hk : k.kind = .keyword .printWord ∨ k.kind = .keyword .varWord) :
    (¬ BreaksOff stop a → (parse (a ++ k :: b)).program =
        (parse (a ++ [stop])).program ++ (parse (k :: b)).program) ∧
      (BreaksOff stop a → (parse (k :: b)).faults = [] → (parse (a ++ k :: b)).program =
        (parse (a ++ [stop])).program ++ (parse (k :: b)).program.tail) := by
  have hstop : ∀ t ∈ a, t.kind ≠ .stop := fun t ht => (ha t ht).1
  have hbrace : ∀ t ∈ a, t.kind ≠ .mark .leftBrace := fun t ht => (ha t ht).2
  have hstart : k.kind.startsStatement := by obtain hk | hk := hk <;> rw [hk] <;> rfl
  have hne : k.kind ≠ .stop := by obtain hk | hk := hk <;> rw [hk] <;> simp
  have htake : (a ++ k :: b).takeWhile (fun t => t.kind != .stop) =
      a ++ (k :: b).takeWhile fun t => t.kind != .stop :=
    List.takeWhile_append_of_pos (by simpa using hstop)
  have hcons : (k :: b).takeWhile (fun t => t.kind != .stop) =
      k :: b.takeWhile fun t => t.kind != .stop :=
    List.takeWhile_cons_of_pos (by simpa using hne)
  rw [parse_stop hstop hs, parse, parse, find?_stop hstop, htake, hcons]
  refine ⟨fun hb => parseBody_before hstart _ hbrace hb, fun hb hf => ?_⟩
  exact (hb.parseBody_before hstart _ hbrace).trans
    (congrArg (_ ++ ·) (statements_recover hk hf))

/-- A program without faults is lost behind a statement that is not closed. -/
theorem parse_lost_behind_open_print :
    parse [⟨.keyword .printWord, "print", 2⟩, ⟨.keyword .nilWord, "nil", 2⟩,
        ⟨.mark .semicolon, ";", 2⟩, ⟨.stop, "", 2⟩] = ⟨[.print (.literal .nil)], []⟩ ∧
      parse ([⟨.keyword .printWord, "print", 1⟩, ⟨.keyword .trueWord, "true", 1⟩] ++
        [⟨.keyword .printWord, "print", 2⟩, ⟨.keyword .nilWord, "nil", 2⟩,
          ⟨.mark .semicolon, ";", 2⟩, ⟨.stop, "", 2⟩]) =
        ⟨[], [⟨⟨.keyword .printWord, "print", 2⟩, .openPrint⟩]⟩ :=
  ⟨rfl, rfl⟩

/-- The first of two statements is lost behind one that is not closed. -/
theorem parse_resumes_behind_open_print :
    (parse ([⟨.keyword .printWord, "print", 1⟩, ⟨.keyword .trueWord, "true", 1⟩] ++
      [⟨.keyword .printWord, "print", 2⟩, ⟨.keyword .nilWord, "nil", 2⟩,
        ⟨.mark .semicolon, ";", 2⟩, ⟨.keyword .varWord, "var", 3⟩, ⟨.identifier "x", "x", 3⟩,
        ⟨.mark .semicolon, ";", 3⟩, ⟨.stop, "", 3⟩])).program =
      [.declare ⟨.identifier "x", "x", 3⟩ none] :=
  ((parse_resumes _ _ ⟨.stop, "", 1⟩ _ (by decide) rfl (.inl rfl)).2 (.here rfl) rfl).trans rfl

end SmallScript
