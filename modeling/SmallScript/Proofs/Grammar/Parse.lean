import SmallScript.Proofs.Grammar.Completeness
import SmallScript.Proofs.Grammar.Soundness

/-!
Parsing and the grammar agree. The statements of a program derive from its tokens, whatever faults
stand between them, and a program that derives is parsed to itself.
-/
namespace SmallScript

open Token (plain)

/-- A token as a tree spells it. -/
structure Token.Written (t : Token) : Prop where
  kept : t.kept = t
  kind_ne_stop : t.kind ≠ .stop

theorem Token.written_of_isKept {t : Token} (h : t.isKept) : t.Written :=
  ⟨kept_of_isKept h, kind_ne_stop_of_isKept h⟩

theorem Token.written_of_isName {t : Token} (h : t.kind.isName) : t.Written :=
  written_of_isKept (by simp [isKept, h])

theorem Token.written_plain {k : Kind} (h : k ≠ .stop) : (plain k).Written :=
  ⟨kept_plain k, h⟩

theorem Expr.written {e : Expr} (h : e.Grammatical) : ∀ t ∈ e.tokens, t.Written := by
  induction e with
  | literal v =>
    rw [tokens, List.forall_mem_singleton]
    refine Token.written_plain ?_
    cases v with
    | boolean b => cases b <;> simp [Value.kind]
    | _ => simp [Value.kind]
  | grouping e ih =>
    rw [tokens, List.forall_mem_cons, List.forall_mem_append, List.forall_mem_singleton]
    exact ⟨Token.written_plain (by decide), ih h, Token.written_plain (by decide)⟩
  | unary op e ih =>
    rw [tokens, List.forall_mem_cons]
    exact ⟨Token.written_of_isKept (by simp [Token.isKept, h.1]), ih h.2.2⟩
  | binary l op r ihl ihr =>
    obtain ⟨hop, _, _, hl, hr⟩ := h
    rw [tokens, List.forall_mem_append, List.forall_mem_cons]
    exact ⟨ihl hl, Token.written_of_isKept (by simp [Token.isKept, hop]), ihr hr⟩
  | var name =>
    rw [tokens, List.forall_mem_singleton]
    exact Token.written_of_isName h
  | assign name e ih =>
    rw [tokens, List.forall_mem_cons, List.forall_mem_cons]
    exact ⟨Token.written_of_isName h.1, Token.written_plain (by decide), ih h.2⟩

mutual

theorem Stmt.written : (s : Stmt) → s.Grammatical → ∀ t ∈ s.tokens, t.Written
  | .print e, h => by
    rw [Stmt.tokens, List.forall_mem_cons, List.forall_mem_append, List.forall_mem_singleton]
    exact ⟨Token.written_plain (by decide), Expr.written h, Token.written_plain (by decide)⟩
  | .expression e, h => by
    rw [Stmt.tokens, List.forall_mem_append, List.forall_mem_singleton]
    exact ⟨Expr.written h, Token.written_plain (by decide)⟩
  | .declare name none, h => by
    rw [Stmt.tokens, List.forall_mem_cons, List.forall_mem_cons, List.forall_mem_singleton]
    exact ⟨Token.written_plain (by decide), Token.written_of_isName h, Token.written_plain (by decide)⟩
  | .declare name (some e), h => by
    rw [Stmt.tokens, List.forall_mem_cons, List.forall_mem_cons, List.forall_mem_cons,
      List.forall_mem_append, List.forall_mem_singleton]
    exact ⟨Token.written_plain (by decide), Token.written_of_isName h.1, Token.written_plain (by decide),
      Expr.written h.2, Token.written_plain (by decide)⟩
  | .block body, h => by
    rw [Stmt.tokens, List.forall_mem_cons, List.forall_mem_append, List.forall_mem_singleton]
    exact ⟨Token.written_plain (by decide), Stmt.written_all body h, Token.written_plain (by decide)⟩

theorem Stmt.written_all :
    (body : List Stmt) → Stmt.AllGrammatical body → ∀ t ∈ Stmt.tokensAll body, t.Written
  | [], _ => by
    rw [Stmt.tokensAll]
    exact List.forall_mem_nil _
  | s :: rest, h => by
    rw [Stmt.tokensAll, List.forall_mem_append]
    exact ⟨Stmt.written s h.1, Stmt.written_all rest h.2⟩

end

/-- The tokens that spell a program are themselves spelled like this. -/
theorem Stmt.map_kept_tokensAll {program : List Stmt} (h : AllGrammatical program) :
    (tokensAll program).map Token.kept = tokensAll program := by
  have hk : ∀ t ∈ tokensAll program, t.kept = id t := fun t ht => (written_all program h t ht).kept
  rw [List.map_congr_left hk, List.map_id]

/-- What is parsed of a token list is what stands before its first stop token. -/
theorem parse_eq (ts : List Token) :
    ∃ stop, parse ts = ⟨(parseBody stop (ts.takeWhile fun t => t.kind != .stop)).statements,
      (parseBody stop (ts.takeWhile fun t => t.kind != .stop)).faults⟩ :=
  ⟨_, rfl⟩

theorem Stmt.DeriveAll.parse_eq {program : List Stmt} {ts : List Token}
    (h : DeriveAll maxNesting program (ts.takeWhile fun t => t.kind != .stop)) :
    parse ts = ⟨program, []⟩ := by
  obtain ⟨stop, he⟩ := SmallScript.parse_eq ts
  rw [he, parseBody_complete stop h]

theorem takeWhile_ne_stop {us : List Token} (h : ∀ t ∈ us, t.kind ≠ .stop) {stop : Token}
    (hs : stop.kind = .stop) (rest : List Token) :
    (us ++ stop :: rest).takeWhile (fun t => t.kind != .stop) = us := by
  rw [List.takeWhile_append_of_pos (by simpa using h), List.takeWhile_cons_of_neg (by simp [hs]),
    List.append_nil]

theorem Stmt.DeriveAll.parse {program : List Stmt} {us : List Token}
    (h : DeriveAll maxNesting program us) {stop : Token} (hs : stop.kind = .stop) :
    parse (us ++ [stop]) = ⟨program, []⟩ := by
  have hu : ∀ t ∈ us, t.kind ≠ .stop := by
    intro t ht
    have hk : t.kept ∈ tokensAll program := by
      rw [← h.spelled]
      exact List.mem_map_of_mem ht
    rw [← Token.kind_kept]
    exact (written_all program h.grammatical t.kept hk).kind_ne_stop
  rw [← takeWhile_ne_stop hu hs []] at h
  exact h.parse_eq

/-- A grammatical program that fits is parsed from its own tokens. -/
theorem parse_tokensAll {program : List Stmt} {stop : Token} (hg : Stmt.AllGrammatical program)
    (hf : Stmt.AllFit program maxNesting) (hs : stop.kind = .stop) :
    parse (Stmt.tokensAll program ++ [stop]) = ⟨program, []⟩ := by
  have hd : Stmt.DeriveAll maxNesting program (Stmt.tokensAll program) :=
    ⟨hg, hf, Stmt.map_kept_tokensAll hg⟩
  exact hd.parse hs

/-- Parsing is sound, with and without faults. The statements of a program are grammatical and keep
within the levels of nesting. Their tokens stand in the source in this order; without faults they
are all of it, and with a fault they never are. -/
theorem parse_sound (ts : List Token) :
    (∀ s ∈ (parse ts).program, s.Grammatical ∧ s.Fits maxNesting) ∧
      (Stmt.tokensAll (parse ts).program).Sublist
        ((ts.takeWhile fun t => t.kind != .stop).map Token.kept) ∧
      ((parse ts).faults = [] ↔
        (ts.takeWhile fun t => t.kind != .stop).map Token.kept =
          Stmt.tokensAll (parse ts).program) := by
  have h := parse_salvaged ts
  refine ⟨?_, h.sublist, h.spelled, ?_⟩
  · intro s hs
    exact ⟨Stmt.allGrammatical_iff.mp h.grammatical s hs, Stmt.allFit_iff.mp h.fits s hs⟩
  · intro hs
    rw [Stmt.DeriveAll.parse_eq ⟨h.grammatical, h.fits, hs⟩]

/-- Parsing undoes writing out. A program that is grammatical and keeps within the levels of nesting
is parsed without fault from any tokens that spell it, its own among them, and these spell no other
such program. -/
theorem parse_complete (program : List Stmt) (stop : Token)
    (hg : ∀ s ∈ program, s.Grammatical) (hf : ∀ s ∈ program, s.Fits maxNesting)
    (hs : stop.kind = .stop) :
    parse (Stmt.tokensAll program ++ [stop]) = ⟨program, []⟩ ∧
      ∀ us : List Token, us.map Token.kept = Stmt.tokensAll program →
        parse (us ++ [stop]) = ⟨program, []⟩ ∧
          ∀ other : List Stmt, (∀ s ∈ other, s.Grammatical) → (∀ s ∈ other, s.Fits maxNesting) →
            us.map Token.kept = Stmt.tokensAll other → other = program := by
  have hp (us : List Token) (hu : us.map Token.kept = Stmt.tokensAll program) :
      parse (us ++ [stop]) = ⟨program, []⟩ :=
    (Stmt.deriveAll_iff.mpr ⟨hg, hf, hu⟩).parse hs
  refine ⟨parse_tokensAll (Stmt.allGrammatical_iff.mpr hg) (Stmt.allFit_iff.mpr hf) hs, ?_⟩
  intro us hu
  refine ⟨hp us hu, ?_⟩
  intro other hg' hf' hu'
  have ho := (Stmt.deriveAll_iff.mpr ⟨hg', hf', hu'⟩).parse hs
  rw [hp us hu] at ho
  exact (congrArg Parsed.program ho).symm

/-- A declaration within a block, whose operators are of three levels, after tokens of any line. -/
theorem parse_complete_block :
    parse ([⟨.mark .leftBrace, "\x7b", 7⟩, ⟨.keyword .varWord, "var", 1⟩, ⟨.identifier "a", "a", 2⟩,
        ⟨.mark .equal, "", 2⟩, ⟨.mark .minus, "-", 2⟩, ⟨.identifier "b", "b", 2⟩,
        ⟨.mark .star, "*", 3⟩, ⟨.keyword .nilWord, "none", 9⟩, ⟨.mark .less, "<", 3⟩,
        ⟨.identifier "b", "b", 4⟩, ⟨.mark .semicolon, ";", 4⟩, ⟨.mark .rightBrace, "\x7d", 5⟩] ++
        [⟨.stop, "", 5⟩]) =
      ⟨[.block [.declare ⟨.identifier "a", "a", 2⟩ (some (.binary
        (.binary (.unary ⟨.mark .minus, "-", 2⟩ (.var ⟨.identifier "b", "b", 2⟩))
          ⟨.mark .star, "*", 3⟩ (.literal .nil))
        ⟨.mark .less, "<", 3⟩ (.var ⟨.identifier "b", "b", 4⟩)))]], []⟩ :=
  ((parse_complete _ _ (by decide) (by decide) rfl).2 _ (by decide)).1

end SmallScript
