import Mathlib.Data.List.Perm.Subperm
import SmallScript.Proofs.Containment

/-!
The declarations that are begun while a program is read, those within blocks among them, in the order
in which they are begun. Each begins at a token of its own, so a program has no more statements and
faults than tokens.
-/
namespace SmallScript

/-- A declaration as it is begun: the levels of nesting left to it, and the tokens from its first. -/
structure Begun where
  room : Nat
  tokens : List Token
  deriving DecidableEq

namespace Begun

/-- How it is read. -/
def read (stop : Token) (b : Begun) : Declaration := Declaration.read stop b.room b.tokens

/-- The statement that is tried for it, before recovery. -/
def attempt (stop : Token) (b : Begun) : Attempt :=
  Stmt.readAround stop b.room (Declaration.inner? stop b.room) b.tokens

theorem read_eq_attempt (stop : Token) (b : Begun) :
    b.read stop = (b.attempt stop).declaration := Declaration.read_eq stop b.room b.tokens

/-- It gives no statement. -/
def fails (stop : Token) (b : Begun) : Bool := (b.read stop).statement?.isNone

end Begun

/-- The declarations begun in a sequence, where each of them begins those that are given for it. A
sequence that does not go forward has no more of them. -/
def Body.begun (declare : List Token → Declaration) (begun : List Token → List Begun)
    (ends : List Token → Bool) (ts : List Token) : List Begun :=
  if ends ts then []
  else
    begun ts ++ if (declare ts).rest.length < ts.length then
      Body.begun declare begun ends (declare ts).rest else []
termination_by ts.length

/-- A declaration and those begun within it, which is a block if there are any. -/
def Declaration.begun (stop : Token) : Nat → List Token → List Begun
  | room + 1, t :: rest =>
    ⟨room + 1, t :: rest⟩ ::
      if t.kind = .mark .leftBrace then
        Body.begun (Declaration.read stop room) (Declaration.begun stop room) closesBlock rest
      else []
  | room, ts => [⟨room, ts⟩]

/-- The declarations begun in a program. -/
def programBegun (stop : Token) (ts : List Token) : List Begun :=
  Body.begun (Declaration.read stop maxNesting) (Declaration.begun stop maxNesting) List.isEmpty ts

theorem Body.begun_eq {declare : List Token → Declaration} {begun : List Token → List Begun}
    {ends : List Token → Bool} (he : ends [] = true) (h : Forward declare) (ts : List Token) :
    Body.begun declare begun ends ts =
      if ends ts then [] else begun ts ++ Body.begun declare begun ends (declare ts).rest := by
  rw [Body.begun]
  split
  · rfl
  · next hends =>
    have hne : ts ≠ [] := by
      rintro rfl
      exact hends he
    rw [if_pos (h.shorter ts hne)]

/-- Induction on the declarations that are begun: the one that is tried, those in it if it is a block
with a level left, and those of a sequence one after another. -/
theorem Declaration.begun_induction (stop : Token) {D : Nat → List Token → List Begun → Prop}
    {B : Nat → (List Token → Bool) → List Token → List Begun → Prop}
    (simple : ∀ room t ts, (t.kind = .mark .leftBrace → room = 0) →
      D room (t :: ts) [⟨room, t :: ts⟩])
    (block : ∀ room t ts begun, t.kind = .mark .leftBrace → B room closesBlock ts begun →
      D (room + 1) (t :: ts) (⟨room + 1, t :: ts⟩ :: begun))
    (last : ∀ room ends ts, ends [] = true → ends ts = true → B room ends ts [])
    (step : ∀ room ends t ts begun others, ends [] = true → ends (t :: ts) = false →
      D room (t :: ts) begun → B room ends (read stop room (t :: ts)).rest others →
        B room ends (t :: ts) (begun ++ others))
    (room : Nat) :
    (∀ t ts, D room (t :: ts) (begun stop room (t :: ts))) ∧
      ∀ ends, ends [] = true → ∀ ts,
        B room ends ts (Body.begun (read stop room) (begun stop room) ends ts) := by
  have hbody (room : Nat) (hd : ∀ t ts, D room (t :: ts) (begun stop room (t :: ts)))
      (ends : List Token → Bool) (he : ends [] = true) (ts : List Token) :
      B room ends ts (Body.begun (read stop room) (begun stop room) ends ts) := by
    have hf := read_forward stop room
    refine Body.read_induction he hf
      (P := fun ts _ => B room ends ts (Body.begun (read stop room) (begun stop room) ends ts))
      ?_ ?_ ts
    · intro ts hends
      rw [Body.begun_eq he hf, if_pos hends]
      exact last room ends ts he hends
    · intro ts _ hends ih
      rw [Body.begun_eq he hf, hends]
      cases ts with
      | nil => rw [he] at hends; cases hends
      | cons t ts => exact step room ends t ts _ _ he hends (hd t ts) ih
  induction room with
  | zero => exact ⟨fun t ts => simple 0 t ts fun _ => rfl, hbody 0 fun t ts => simple 0 t ts fun _ => rfl⟩
  | succ room ih =>
    have hd : ∀ t ts, D (room + 1) (t :: ts) (begun stop (room + 1) (t :: ts)) := by
      intro t ts
      rw [begun]
      split
      · next hk => exact block room t ts _ hk (ih.2 closesBlock rfl ts)
      · next hk => exact simple (room + 1) t ts fun h => absurd h hk
    exact ⟨hd, hbody (room + 1) hd⟩

mutual

/-- The number of statements that a statement is made of, itself among them. -/
def Stmt.count : Stmt → Nat
  | .block body => Stmt.countAll body + 1
  | .print _ | .expression _ | .declare _ _ => 1

def Stmt.countAll : List Stmt → Nat
  | [] => 0
  | s :: rest => s.count + Stmt.countAll rest

end

theorem Stmt.countAll_append (first rest : List Stmt) :
    countAll (first ++ rest) = countAll first + countAll rest := by
  induction first with
  | nil => rw [List.nil_append, countAll, Nat.zero_add]
  | cons s first ih => rw [List.cons_append, countAll, countAll, ih, Nat.add_assoc]

/-- What some declarations, begun between the first of these tokens and the rest, amount to. They
begin one after another, and each gives a fault or a statement at most. -/
structure Traces (stop : Token) (ts rest : List Token) (begun : List Begun)
    (statements : List Stmt) (faults : List SyntaxFault) : Prop where
  suffix : rest <:+ ts
  within : ∀ b ∈ begun, b.tokens <:+ ts ∧ rest.length < b.tokens.length
  ordered : begun.Pairwise fun a b => b.tokens.length < a.tokens.length
  failed : faults.length = begun.countP (Begun.fails stop)
  succeeded : Stmt.countAll statements ≤ begun.countP fun b => !b.fails stop

namespace Traces

variable {stop : Token} {ts rest : List Token} {begun : List Begun} {statements : List Stmt}
  {faults : List SyntaxFault}

theorem nil (stop : Token) (ts : List Token) : Traces stop ts ts [] [] [] :=
  ⟨List.suffix_refl ts, List.forall_mem_nil _, .nil, rfl, Nat.le_refl _⟩

/-- Declarations after one another. -/
theorem append (h : Traces stop ts rest begun statements faults) {rest' : List Token}
    {begun' : List Begun} {statements' : List Stmt} {faults' : List SyntaxFault}
    (h' : Traces stop rest rest' begun' statements' faults') :
    Traces stop ts rest' (begun ++ begun') (statements ++ statements') (faults ++ faults') where
  suffix := h'.suffix.trans h.suffix
  within := by
    refine List.forall_mem_append.mpr ⟨fun b hb => ?_, fun b hb => ?_⟩
    · obtain ⟨hs, hl⟩ := h.within b hb
      exact ⟨hs, Nat.lt_of_le_of_lt h'.suffix.length_le hl⟩
    · obtain ⟨hs, hl⟩ := h'.within b hb
      exact ⟨hs.trans h.suffix, hl⟩
  ordered := by
    refine List.pairwise_append.mpr ⟨h.ordered, h'.ordered, fun a ha b hb => ?_⟩
    exact Nat.lt_of_le_of_lt (h'.within b hb).1.length_le (h.within a ha).2
  failed := by rw [List.length_append, List.countP_append, h.failed, h'.failed]
  succeeded := by
    rw [Stmt.countAll_append, List.countP_append]
    exact Nat.add_le_add h.succeeded h'.succeeded

/-- A declaration before those that are begun within it. -/
theorem begin {b : Begun} {t : Token} (hb : b.tokens = t :: ts)
    (h : Traces stop ts rest begun statements faults) (hs : (b.read stop).rest <:+ rest)
    (hf : (b.read stop).faults.length = faults.length + if b.fails stop then 1 else 0)
    (hc : ∀ s ∈ (b.read stop).statement?, s.count ≤ Stmt.countAll statements + 1) :
    Traces stop (t :: ts) (b.read stop).rest (b :: begun) (b.read stop).statement?.toList
      (b.read stop).faults where
  suffix := (hs.trans h.suffix).trans (List.suffix_cons t ts)
  within := by
    have hl := (hs.trans h.suffix).length_le
    refine List.forall_mem_cons.mpr ⟨⟨hb ▸ List.suffix_refl _, ?_⟩, fun a ha => ?_⟩
    · rw [hb, List.length_cons]
      exact Nat.lt_succ_of_le hl
    · obtain ⟨ha, hl⟩ := h.within a ha
      exact ⟨ha.trans (List.suffix_cons t ts), Nat.lt_of_le_of_lt hs.length_le hl⟩
  ordered := by
    refine .cons (fun a ha => ?_) h.ordered
    rw [hb, List.length_cons]
    exact Nat.lt_succ_of_le (h.within a ha).1.length_le
  failed := by rw [hf, h.failed, List.countP_cons]
  succeeded := by
    have hn := h.succeeded
    rw [List.countP_cons, Begun.fails]
    cases hd : (b.read stop).statement? with
    | none => simp [Stmt.countAll]
    | some s =>
      have := hc s hd
      simp only [Option.toList_some, Stmt.countAll, Option.isNone_some, Bool.not_false, if_true]
      omega

end Traces

/-- Recovery goes forward. -/
theorem Attempt.rest_declaration_suffix (a : Attempt) : a.declaration.rest <:+ a.reading.rest := by
  unfold declaration
  split
  · next hr => rw [hr]; exact List.suffix_refl _
  · next fault rest hr =>
    rw [hr]
    cases rest with
    | nil => exact List.suffix_refl _
    | cons t rest => exact (recover_suffix t rest).trans (List.suffix_cons t rest)

/-- A statement that fails adds one fault to those of the declarations within it. -/
theorem Attempt.length_faults (a : Attempt) :
    a.declaration.faults.length =
      a.recovered.length + if a.declaration.statement?.isNone then 1 else 0 := by
  unfold declaration
  split <;> simp

theorem Attempt.reading_of_statement? {a : Attempt} {s : Stmt}
    (h : a.declaration.statement? = some s) : ∃ rest, a.reading = .done s rest := by
  unfold declaration at h
  split at h <;> cases h
  exact ⟨_, ‹_›⟩

namespace Stmt

open Reading

variable {stop : Token} {room : Nat} {st : Stmt} {ts rest : List Token}

theorem count_of_readClosed {cause : SyntaxCause} {build : Expr → Stmt}
    (hb : ∀ e, (build e).count = 1) (h : readClosed stop room cause build ts = .done st rest) :
    st.count = 1 := by
  obtain ⟨e, _, _, hm⟩ := andThen_eq_done.mp h
  obtain ⟨_, _, _, hd⟩ := andThen_eq_done.mp hm
  cases hd
  exact hb e

theorem count_of_readDeclared (h : readDeclared stop room ts = .done st rest) : st.count = 1 := by
  unfold readDeclared at h
  split at h
  · cases h
  · next name ts =>
    split at h
    · unfold readInitializer at h
      split at h
      · cases h
      · split at h
        · exact count_of_readClosed (fun e => by rw [count]) h
        · obtain ⟨_, _, _, hd⟩ := andThen_eq_done.mp h
          cases hd
          rw [count]
    · cases h

/-- A statement that is no block, or has no level left for one, is one statement, and no declaration
within it has failed. -/
theorem readAround_simple (stop : Token) (room : Nat) {inner : Option (List Token → Declaration)}
    {t : Token} (h : t.kind = .mark .leftBrace → inner = none) (ts : List Token) :
    (readAround stop room inner (t :: ts)).recovered = [] ∧
      ∀ s rest, (readAround stop room inner (t :: ts)).reading = .done s rest → s.count = 1 := by
  rw [readAround]
  split
  · exact ⟨rfl, fun _ _ => count_of_readDeclared⟩
  · exact ⟨rfl, fun _ _ => count_of_readClosed fun e => by rw [count]⟩
  · next hk =>
    rw [h hk]
    exact ⟨rfl, fun _ _ hd => by cases hd⟩
  · exact ⟨rfl, fun _ _ => count_of_readClosed fun e => by rw [count]⟩

/-- A block goes no further back than its body, and is one statement around those in it. -/
theorem readBlock_some (stop : Token) (declare : List Token → Declaration) (ts : List Token) :
    (readBlock stop (some declare) ts).reading.rest <:+ (Body.read declare closesBlock ts).rest ∧
      ∀ s rest, (readBlock stop (some declare) ts).reading = .done s rest →
        s = .block (Body.read declare closesBlock ts).statements := by
  constructor
  · exact rest_andThen (mark_advances _ _ _ _).suffix fun _ _ => List.suffix_refl _
  · intro s rest hd
    obtain ⟨_, _, _, hd⟩ := andThen_eq_done.mp hd
    cases hd
    rfl

end Stmt

namespace Declaration

variable {stop : Token} {room : Nat} {t : Token} {ts : List Token}

theorem traces_simple (h : t.kind = .mark .leftBrace → room = 0) :
    Traces stop (t :: ts) (read stop room (t :: ts)).rest [⟨room, t :: ts⟩]
      (read stop room (t :: ts)).statement?.toList (read stop room (t :: ts)).faults := by
  have hi : t.kind = .mark .leftBrace → inner? stop room = none := fun hk => by rw [h hk]; rfl
  have hr := read_eq stop room (t :: ts)
  obtain ⟨hrec, hc⟩ := Stmt.readAround_simple stop room hi ts
  refine Traces.begin (b := ⟨room, t :: ts⟩) rfl (.nil stop ts) ?_ ?_ ?_
  · -- what is left is a proper suffix, so it leaves out the first token
    obtain ⟨hs, hl⟩ := rest_read stop room (t :: ts)
    obtain he | hs := List.suffix_cons_iff.mp hs
    · have := hl (List.cons_ne_nil t ts)
      rw [he] at this
      exact absurd this (Nat.lt_irrefl _)
    · exact hs
  · have hl := Attempt.length_faults (Stmt.readAround stop room (inner? stop room) (t :: ts))
    rw [hrec, ← hr] at hl
    exact hl
  · intro s hs
    have hs : (Stmt.readAround stop room (inner? stop room) (t :: ts)).declaration.statement? =
        some s := hr ▸ hs
    obtain ⟨rest, hd⟩ := Attempt.reading_of_statement? hs
    exact Nat.le_of_eq (hc s rest hd)

theorem traces_block (hk : t.kind = .mark .leftBrace) {begun : List Begun}
    (h : Traces stop ts (Body.read (read stop room) closesBlock ts).rest begun
      (Body.read (read stop room) closesBlock ts).statements
      (Body.read (read stop room) closesBlock ts).faults) :
    Traces stop (t :: ts) (read stop (room + 1) (t :: ts)).rest (⟨room + 1, t :: ts⟩ :: begun)
      (read stop (room + 1) (t :: ts)).statement?.toList
      (read stop (room + 1) (t :: ts)).faults := by
  have hr := read_block stop room hk ts
  obtain ⟨hrest, hc⟩ := Stmt.readBlock_some stop (read stop room) ts
  refine Traces.begin (b := ⟨room + 1, t :: ts⟩) rfl h ?_ ?_ ?_
  · rw [Begun.read, hr]
    exact (Attempt.rest_declaration_suffix _).trans hrest
  · rw [Begun.fails, Begun.read, hr]
    exact Attempt.length_faults _
  · intro s hs
    rw [Begun.read, hr] at hs
    obtain ⟨rest, hd⟩ := Attempt.reading_of_statement? hs
    exact Nat.le_of_eq (by rw [hc s rest hd, Stmt.count])

end Declaration

/-- What is begun in a sequence traces it. -/
theorem Body.traces (stop : Token) (room : Nat) (ends : List Token → Bool) (he : ends [] = true)
    (ts : List Token) :
    Traces stop ts (Body.read (Declaration.read stop room) ends ts).rest
      (Body.begun (Declaration.read stop room) (Declaration.begun stop room) ends ts)
      (Body.read (Declaration.read stop room) ends ts).statements
      (Body.read (Declaration.read stop room) ends ts).faults := by
  refine (Declaration.begun_induction stop
    (D := fun room ts begun => Traces stop ts (Declaration.read stop room ts).rest begun
      (Declaration.read stop room ts).statement?.toList (Declaration.read stop room ts).faults)
    (B := fun room ends ts begun => Traces stop ts
      (Body.read (Declaration.read stop room) ends ts).rest begun
      (Body.read (Declaration.read stop room) ends ts).statements
      (Body.read (Declaration.read stop room) ends ts).faults) ?_ ?_ ?_ ?_ room).2 ends he ts
  · exact fun room t ts h => Declaration.traces_simple h
  · exact fun room t ts begun hk h => Declaration.traces_block hk h
  · intro room ends ts he hends
    rw [Body.read_eq he (Declaration.read_forward stop room).shorter, if_pos hends]
    exact .nil stop ts
  · intro room ends t ts begun others he hends h ih
    rw [Body.read_eq he (Declaration.read_forward stop room).shorter (t :: ts), hends]
    exact h.append ih

theorem traces_programBegun (stop : Token) (ts : List Token) :
    Traces stop ts [] (programBegun stop ts) (parseBody stop ts).statements
      (parseBody stop ts).faults := by
  have h := Body.traces stop maxNesting List.isEmpty rfl ts
  have hr : (Body.read (Declaration.read stop maxNesting) List.isEmpty ts).rest = [] :=
    rest_parseBody stop ts
  rw [hr] at h
  exact h

/-- Declarations that begin one after another are no more than the tokens. -/
theorem Traces.length_le {stop : Token} {ts rest : List Token} {begun : List Begun}
    {statements : List Stmt} {faults : List SyntaxFault}
    (h : Traces stop ts rest begun statements faults) : begun.length ≤ ts.length := by
  -- each of them has its own number of tokens left, which is at least one
  have hd : (begun.map fun b => b.tokens.length).Nodup := by
    refine List.pairwise_map.mpr (h.ordered.imp fun hab => ?_)
    exact Nat.ne_of_gt hab
  have hs : (begun.map fun b => b.tokens.length) ⊆ List.range' 1 ts.length := by
    intro n hn
    obtain ⟨b, hb, rfl⟩ := List.mem_map.mp hn
    obtain ⟨hsuffix, hl⟩ := h.within b hb
    have := hsuffix.length_le
    rw [List.mem_range'_1]
    omega
  have := (List.Nodup.subperm hd hs).length_le
  rwa [List.length_map, List.length_range'] at this

/-- Reading stops where the tokens end or a block does, not for want of rounds. -/
theorem Body.readUpTo_ends {stop : Token} (room : Nat) {ends : List Token → Bool}
    (he : ends [] = true) {ts : List Token} {n : Nat} (hn : ts.length ≤ n) :
    Body.readUpTo (Declaration.read stop room) ends n ts =
        Body.read (Declaration.read stop room) ends ts ∧
      ends (Body.read (Declaration.read stop room) ends ts).rest := by
  have hf := Declaration.read_forward stop room
  exact ⟨readUpTo_eq he hf.shorter n ts hn, ends_rest he hf ts⟩

/-- Parsing goes forward and ends. What follows the first stop token has no part in it, and no loop
needs more rounds than there are tokens. Each declaration, be it in a block and be it faulty, begins
at a token before the stop token and ends further on, and no two begin at the same. As many of them
fail as there are faults, and no fewer succeed than there are statements, so faults and statements
together are no more than the tokens. -/
theorem parse_progresses (us after : List Token) (stop : Token) (hu : ∀ t ∈ us, t.kind ≠ .stop)
    (hs : stop.kind = .stop) :
    parse (us ++ stop :: after) = parse (us ++ [stop]) ∧
      (∀ (room : Nat), ∀ ends ∈ [List.isEmpty, closesBlock], ∀ (ts : List Token) (n : Nat),
        ts.length ≤ n → Body.readUpTo (Declaration.read stop room) ends n ts =
            Body.read (Declaration.read stop room) ends ts ∧
          ends (Body.read (Declaration.read stop room) ends ts).rest) ∧
      (∀ b ∈ programBegun stop us, (∃ t rest, b.tokens = t :: rest ∧ t.kind ≠ .stop) ∧
        b.tokens <:+ us ∧ (b.read stop).rest <:+ b.tokens ∧
          (b.read stop).rest.length < b.tokens.length) ∧
      ((programBegun stop us).Pairwise fun a b => b.tokens.length < a.tokens.length) ∧
      (parse (us ++ stop :: after)).faults.length =
        (programBegun stop us).countP (Begun.fails stop) ∧
      Stmt.countAll (parse (us ++ stop :: after)).program ≤
        ((programBegun stop us).countP fun b => !b.fails stop) ∧
      (parse (us ++ stop :: after)).faults.length +
        Stmt.countAll (parse (us ++ stop :: after)).program ≤ us.length := by
  have h := traces_programBegun stop us
  have hp : parse (us ++ stop :: after) =
      ⟨(parseBody stop us).statements, (parseBody stop us).faults⟩ :=
    parse_before_stop hu hs after
  rw [hp, parse_stop hu hs]
  refine ⟨rfl, ?_, ?_, h.ordered, h.failed, h.succeeded, ?_⟩
  · intro room ends hends ts n hn
    have he : ends [] = true := by
      obtain rfl | rfl : ends = List.isEmpty ∨ ends = closesBlock := by simpa using hends
      all_goals rfl
    exact Body.readUpTo_ends room he hn
  · intro b hb
    obtain ⟨hsuffix, hl⟩ := h.within b hb
    have hne : b.tokens ≠ [] := List.ne_nil_of_length_pos hl
    obtain ⟨hr, hlt⟩ := Declaration.rest_read stop b.room b.tokens
    obtain ⟨t, rest, ht⟩ := List.exists_cons_of_ne_nil hne
    refine ⟨⟨t, rest, ht, hu t (hsuffix.subset ?_)⟩, hsuffix, hr, hlt hne⟩
    rw [ht]
    exact List.mem_cons_self
  · have hlen := h.length_le
    rw [List.length_eq_countP_add_countP (Begun.fails stop), ← h.failed] at hlen
    simp only [Bool.not_eq_true, Bool.decide_eq_false] at hlen
    exact Nat.le_trans (Nat.add_le_add_left h.succeeded _) hlen

/-- A block that is left open, with a fault and a statement within it, behind another statement and
before a brace that comes too late. -/
theorem parse_progresses_open_block :
    ∃ us : List Token, us.length = 8 ∧ (∀ t ∈ us, t.kind ≠ .stop) ∧
      parse (us ++ .stop 1 :: [⟨.mark .rightBrace, "\x7d", 1⟩]) = parse (us ++ [.stop 1]) ∧
      (programBegun (.stop 1) us).countP (Begun.fails (.stop 1)) = 2 ∧
      (programBegun (.stop 1) us).map (fun b => b.tokens.length) = [8, 6, 5, 2] := by
  have hu : ∀ t ∈ [Token.mk (.keyword .nilWord) "nil" 1, ⟨.mark .semicolon, ";", 1⟩,
      ⟨.mark .leftBrace, "\x7b", 1⟩, ⟨.keyword .varWord, "var", 1⟩, ⟨.keyword .varWord, "var", 1⟩,
      ⟨.mark .semicolon, ";", 1⟩, ⟨.keyword .nilWord, "nil", 1⟩, ⟨.mark .semicolon, ";", 1⟩],
      t.kind ≠ .stop := by decide
  have h := parse_progresses _ [⟨.mark .rightBrace, "\x7d", 1⟩] (.stop 1) hu rfl
  exact ⟨_, rfl, hu, h.1, h.2.2.2.2.1.symm.trans (by decide +kernel), by decide +kernel⟩

end SmallScript
