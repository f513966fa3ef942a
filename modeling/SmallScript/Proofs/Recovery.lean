import Mathlib.Order.Bounds.Basic
import SmallScript.Proofs.Reading.Begun

/-!
Where a declaration that fails leaves off and where reading resumes, as positions in the token list.
It has gone past no semicolon, unless it is a block. Recovery ends at the first place behind the fault
at which a statement may start, and reading goes on there on the same level of nesting.
-/
namespace SmallScript

/-- The words that end recovery. -/
def statementWords : List Keyword :=
  [.classWord, .funWord, .varWord, .forWord, .ifWord, .whileWord, .printWord, .returnWord]

theorem Kind.startsStatement_iff {k : Kind} :
    k.startsStatement ↔ ∃ w ∈ statementWords, k = .keyword w := by
  cases k with
  | keyword w => cases w <;> simp [startsStatement, statementWords]
  | _ => simp [startsStatement]

/-- Recovery may end at this position: the stop token is there, or such a word, or a semicolon is
right before it. -/
def ResumesAt (tokens : List Token) (q : Nat) : Prop :=
  ∃ t, tokens[q]? = some t ∧ (t.kind = .stop ∨ (∃ w ∈ statementWords, t.kind = .keyword w) ∨
    ∃ u, tokens[q - 1]? = some u ∧ u.kind = .mark .semicolon)

namespace ResumesAt

variable {tokens : List Token} {k : Nat}

theorem append_iff (front : List Token) (hk : 0 < k) :
    ResumesAt (front ++ tokens) (front.length + k) ↔ ResumesAt tokens k := by
  have h₁ : (front ++ tokens)[front.length + k]? = tokens[k]? := by
    rw [List.getElem?_append_right (Nat.le_add_right _ _), Nat.add_sub_cancel_left]
  have h₂ : (front ++ tokens)[front.length + k - 1]? = tokens[k - 1]? := by
    rw [Nat.add_sub_assoc hk, List.getElem?_append_right (Nat.le_add_right _ _),
      Nat.add_sub_cancel_left]
  rw [ResumesAt, ResumesAt, h₁, h₂]

theorem second_iff {dropped t : Token} :
    ResumesAt (dropped :: t :: tokens) 1 ↔
      t.kind = .stop ∨ t.kind.startsStatement ∨ dropped.kind = .mark .semicolon := by
  rw [Kind.startsStatement_iff]
  constructor
  · rintro ⟨_, ⟨⟩, h⟩
    exact h.imp_right (Or.imp_right fun ⟨_, hu, hk⟩ => by cases hu; exact hk)
  · exact fun h => ⟨t, rfl, h.imp_right (Or.imp_right fun hk => ⟨dropped, rfl, hk⟩)⟩

/-- The first such position behind the start, seen from further in front. -/
theorem isLeast_append (front : List Token)
    (h : IsLeast {k | 0 < k ∧ ResumesAt tokens k} k) :
    IsLeast {q | front.length < q ∧ ResumesAt (front ++ tokens) q} (front.length + k) := by
  obtain ⟨⟨hk, hr⟩, hleast⟩ := h
  refine ⟨⟨Nat.lt_add_of_pos_right hk, (append_iff front hk).mpr hr⟩, ?_⟩
  rintro q ⟨hq, hrq⟩
  obtain ⟨j, rfl⟩ := Nat.exists_eq_add_of_lt hq
  rw [Nat.add_assoc] at hrq ⊢
  exact Nat.add_le_add_left (hleast ⟨Nat.succ_pos j, (append_iff front (Nat.succ_pos j)).mp hrq⟩) _

end ResumesAt

/-- Recovery ends at the first place behind the dropped token where it may. -/
theorem resumeAfter_least {stop : Token} (hs : stop.kind = .stop) (after : List Token)
    (dropped : Token) {ts : List Token} (ht : ∀ t ∈ ts, t.kind ≠ .stop) :
    ∃ n ≤ ts.length, resumeAfter dropped ts = ts.drop n ∧
      IsLeast {k | 0 < k ∧ ResumesAt (dropped :: (ts ++ stop :: after)) k} (n + 1) := by
  induction ts generalizing dropped with
  | nil =>
    refine ⟨0, Nat.le_refl _, rfl, ⟨Nat.zero_lt_one, ?_⟩, fun k hk => hk.1⟩
    exact ResumesAt.second_iff.mpr (.inl hs)
  | cons t ts ih =>
    obtain ⟨hk, ht⟩ := List.forall_mem_cons.mp ht
    rw [resumeAfter]
    split
    · next h =>
      refine ⟨0, Nat.zero_le _, rfl, ⟨Nat.zero_lt_one, ?_⟩, fun k hk => hk.1⟩
      exact ResumesAt.second_iff.mpr (.inr h.symm)
    · next h =>
      obtain ⟨n, hn, hr, hleast⟩ := ih t ht
      refine ⟨n + 1, Nat.succ_le_succ hn, hr, ?_⟩
      -- one further on it may not end, so the first place is the one behind the next token
      have hfirst : ¬ ResumesAt (dropped :: (t :: ts ++ stop :: after)) 1 := by
        rw [List.cons_append, ResumesAt.second_iff]
        rintro (hstop | hw | hsemi)
        · exact hk hstop
        · exact h (.inr hw)
        · exact h (.inl hsemi)
      obtain ⟨⟨hlt, hmem⟩, hle⟩ := ResumesAt.isLeast_append [dropped] hleast
      rw [List.length_singleton, Nat.add_comm 1] at hlt hmem hle
      refine ⟨⟨Nat.succ_pos _, hmem⟩, fun k hk => hle ⟨?_, hk.2⟩⟩
      refine Nat.lt_of_le_of_ne hk.1 fun h1 => hfirst ?_
      rw [h1]
      exact hk.2

/-- How reading goes on behind a declaration: the tokens end there, or another declaration begins there
with as many levels left, or the brace there ends the block around it, which began with one more. -/
def GoesOn (stop : Token) (begun : List Begun) (b : Begun) : Prop :=
  (b.read stop).rest = [] ∨ ⟨b.room, (b.read stop).rest⟩ ∈ begun ∨
    ∃ block ∈ begun, block.room = b.room + 1 ∧ ∃ brace : Token, brace.kind = .mark .rightBrace ∧
      (b.read stop).rest = brace :: (block.read stop).rest

theorem GoesOn.mono {stop : Token} {begun begun' : List Begun} {b : Begun} (h : GoesOn stop begun b)
    (hs : begun ⊆ begun') : GoesOn stop begun' b := by
  obtain hn | hm | ⟨block, hm, hb⟩ := h
  · exact .inl hn
  · exact .inr (.inl (hs hm))
  · exact .inr (.inr ⟨block, hs hm, hb⟩)

/-- In a sequence each declaration is followed by another of the sequence or is its last. -/
structure Sequel (stop : Token) (room : Nat) (ends : List Token → Bool) (ts : List Token)
    (begun : List Begun) : Prop where
  first : ends ts = false → ⟨room, ts⟩ ∈ begun
  goesOn : ∀ b ∈ begun, (b.room = room ∧
    (b.read stop).rest = (Body.read (Declaration.read stop room) ends ts).rest) ∨ GoesOn stop begun b

theorem Sequel.last (stop : Token) (room : Nat) {ends : List Token → Bool} {ts : List Token}
    (h : ends ts = true) : Sequel stop room ends ts [] where
  first hf := by rw [h] at hf; cases hf
  goesOn := List.forall_mem_nil _

theorem Sequel.step {stop : Token} {room : Nat} {ends : List Token → Bool} (he : ends [] = true)
    {ts : List Token} (hends : ends ts = false) {begun others : List Begun}
    (hself : ⟨room, ts⟩ ∈ begun) (h : ∀ b ∈ begun, b = ⟨room, ts⟩ ∨ GoesOn stop begun b)
    (ho : Sequel stop room ends (Declaration.read stop room ts).rest others) :
    Sequel stop room ends ts (begun ++ others) := by
  have hf := (Declaration.read_forward stop room).shorter
  have hrest : (Body.read (Declaration.read stop room) ends ts).rest =
      (Body.read (Declaration.read stop room) ends (Declaration.read stop room ts).rest).rest := by
    rw [Body.read_eq he hf ts, hends]
    rfl
  refine ⟨fun _ => List.mem_append_left _ hself, List.forall_mem_append.mpr ⟨fun b hb => ?_, ?_⟩⟩
  · obtain rfl | hg := h b hb
    · cases hn : ends (Declaration.read stop room ts).rest with
      | true =>
        rw [hrest, Body.read_eq he hf, hn]
        exact .inl ⟨rfl, rfl⟩
      | false => exact .inr (.inr (.inl (List.mem_append_right _ (ho.first hn))))
    · exact .inr (hg.mono (List.subset_append_left _ _))
  · rw [hrest]
    exact fun b hb => (ho.goesOn b hb).imp_right (·.mono (List.subset_append_right _ _))

/-- A declaration in a block is the last of it only before the brace that ends it or at the end. -/
theorem Sequel.block {stop : Token} {room : Nat} {t : Token} {ts : List Token}
    (ht : t.kind = .mark .leftBrace) {begun : List Begun}
    (h : Sequel stop room closesBlock ts begun) :
    ∀ b ∈ begun, GoesOn stop (⟨room + 1, t :: ts⟩ :: begun) b := by
  intro b hb
  obtain ⟨hroom, hr⟩ | hg := h.goesOn b hb
  · have hends : closesBlock (Body.read (Declaration.read stop room) closesBlock ts).rest = true :=
      Body.ends_rest rfl (Declaration.read_forward stop room) ts
    cases hbody : (Body.read (Declaration.read stop room) closesBlock ts).rest with
    | nil => exact .inl (hr.trans hbody)
    | cons brace after =>
      rw [hbody] at hends
      have hk : brace.kind = .mark .rightBrace := beq_iff_eq.mp hends
      refine .inr (.inr ⟨_, List.mem_cons_self, by rw [hroom], brace, hk, ?_⟩)
      rw [hr, hbody, Begun.read, Declaration.read_block stop room ht, Stmt.readBlock]
      simp only [hbody, Reading.mark, if_pos hk]
      rfl
  · exact hg.mono (List.subset_cons_of_subset _ (List.Subset.refl _))

theorem sequel_begun (stop : Token) (room : Nat) (ends : List Token → Bool) (he : ends [] = true)
    (ts : List Token) : Sequel stop room ends ts
      (Body.begun (Declaration.read stop room) (Declaration.begun stop room) ends ts) := by
  refine (Declaration.begun_induction stop
    (D := fun room ts begun => (⟨room, ts⟩ : Begun) ∈ begun ∧
      ∀ b ∈ begun, b = (⟨room, ts⟩ : Begun) ∨ GoesOn stop begun b)
    (B := fun room ends ts begun => Sequel stop room ends ts begun) ?_ ?_ ?_ ?_ room).2 ends he ts
  · exact fun room t ts _ => ⟨List.mem_singleton_self _, fun b hb => .inl (List.mem_singleton.mp hb)⟩
  · intro room t ts begun hk h
    refine ⟨List.mem_cons_self, List.forall_mem_cons.mpr ⟨.inl rfl, fun b hb => .inr ?_⟩⟩
    exact h.block hk b hb
  · exact fun room ends ts _ hends => .last stop room hends
  · exact fun room ends t ts begun others he hends h ho => .step he hends h.1 h.2 ho

theorem goesOn_of_mem_programBegun {stop : Token} {us : List Token} {b : Begun}
    (h : b ∈ programBegun stop us) : GoesOn stop (programBegun stop us) b := by
  have hs := (sequel_begun stop maxNesting List.isEmpty rfl us).goesOn b h
  have hr : (Body.read (Declaration.read stop maxNesting) List.isEmpty us).rest = [] :=
    rest_parseBody stop us
  rw [hr] at hs
  exact hs.elim (fun ⟨_, hn⟩ => .inl hn) id

/-- A declaration begins at a token. -/
theorem From.of_mem_programBegun {stop : Token} {us : List Token} {b : Begun}
    (h : b ∈ programBegun stop us) :
    ∃ s t ts, b.tokens = t :: ts ∧ From us s (t :: ts) := by
  obtain ⟨hsuffix, hpos⟩ := (traces_programBegun stop us).within b h
  obtain ⟨t, ts, hb⟩ := List.exists_cons_of_ne_nil (List.ne_nil_of_length_pos hpos)
  exact ⟨_, t, ts, hb, .of_suffix (hb ▸ hsuffix)⟩

namespace From

variable {us rest : List Token} {i : Nat}

/-- Recovery from a fault at a position. -/
theorem recover {stop : Token} (hu : ∀ t ∈ us, t.kind ≠ .stop) (hs : stop.kind = .stop)
    (after : List Token) (h : From us i rest) :
    ∃ q, From us q (recover rest) ∧ (i = us.length → q = i) ∧
      (i < us.length → IsLeast {q | i < q ∧ ResumesAt (us ++ stop :: after) q} q) := by
  cases rest with
  | nil =>
    have hi := h.eq_length
    exact ⟨i, h, fun _ => rfl, fun hlt => absurd hi (Nat.ne_of_lt hlt)⟩
  | cons t ts =>
    have hts : us.take i ++ t :: ts = us := by rw [h.eq, List.take_append_drop]
    have hu' : ∀ u ∈ ts, u.kind ≠ .stop := by
      intro u hm
      refine hu u ?_
      rw [← hts]
      exact List.mem_append_right _ (List.mem_cons_of_mem t hm)
    obtain ⟨n, hn, hr, hleast⟩ := resumeAfter_least hs after t hu'
    have hq : From us (i + (t :: ts.take n).length) (ts.drop n) := by
      refine skip ?_
      rw [List.cons_append, List.take_append_drop]
      exact h
    rw [List.length_cons, List.length_take_of_le hn] at hq
    have hleast := ResumesAt.isLeast_append (us.take i) hleast
    rw [List.length_take_of_le h.le, ← List.cons_append, ← List.append_assoc, hts] at hleast
    refine ⟨i + (n + 1), ?_, fun hi => absurd hi (Nat.ne_of_lt h.lt), fun _ => hleast⟩
    rw [SmallScript.recover, hr]
    exact hq

end From

/-- What a statement that fails has taken: a block all tokens or its brace only, any other statement
no semicolon. -/
theorem Stmt.readAround_takes {stop : Token} {room : Nat} {inner : Option (List Token → Declaration)}
    (hd : ∀ declare ∈ inner, Forward declare) {t : Token} {ts rest : List Token}
    {fault : SyntaxFault}
    (h : (readAround stop room inner (t :: ts)).reading = .failed fault rest) :
    ∃ taken, t :: ts = taken ++ rest ∧
      (t.kind = .mark .leftBrace → (rest = [] ∧ fault = ⟨stop, .openBlock⟩) ∨
        (taken = [t] ∧ fault.cause = .tooDeep)) ∧
      (t.kind ≠ .mark .leftBrace → ∀ u ∈ taken, u.kind ≠ .mark .semicolon) := by
  by_cases hk : t.kind = .mark .leftBrace
  · obtain ⟨hfault, hrest⟩ | ⟨hfault, hrest⟩ := readAround_block_failed hd hk h
    · refine ⟨t :: ts, ?_, fun _ => .inl ⟨hrest, hfault⟩, fun hne => absurd hk hne⟩
      rw [hrest, List.append_nil]
    · refine ⟨[t], ?_, fun _ => .inr ⟨rfl, ?_⟩, fun hne => absurd hk hne⟩
      · rw [hrest, List.singleton_append]
      · rw [hfault]
  · obtain ⟨taken, hts, hne⟩ := readAround_simple_failed hk h
    exact ⟨taken, hts, fun hk' => absurd hk' hk, fun _ => hne⟩

/-- Where a declaration that fails leaves off and reading resumes. Say it begins at `s`, its fault leaves
off at `p` and recovery at `q`. A block fails where the tokens end, or right behind its brace when
nested too deep, and any other declaration before the next semicolon. If the tokens have not ended,
recovery ends at the first place behind `p` where a statement may start. What is read next has as many
levels of nesting left as the declaration had. -/
theorem recovery_resumes (us after : List Token) (stop : Token) (hu : ∀ t ∈ us, t.kind ≠ .stop)
    (hs : stop.kind = .stop) (b : Begun) (hb : b ∈ programBegun stop us) (fault : SyntaxFault)
    (rest : List Token) (hf : (b.attempt stop).reading = .failed fault rest) :
    ∃ s p q t, From us s b.tokens ∧ From us p rest ∧ From us q (b.read stop).rest ∧
      s ≤ p ∧ us[s]? = some t ∧
      (t.kind = .mark .leftBrace → (p = us.length ∧ fault = ⟨stop, .openBlock⟩) ∨
        (p = s + 1 ∧ fault.cause = .tooDeep)) ∧
      (t.kind ≠ .mark .leftBrace → ∀ u ∈ us.extract s p, u.kind ≠ .mark .semicolon) ∧
      (p = us.length → q = p) ∧
      (p < us.length → IsLeast {q | p < q ∧ ResumesAt (us ++ stop :: after) q} q) ∧
      GoesOn stop (programBegun stop us) b := by
  obtain ⟨s, t, ts, ht, hfrom⟩ := From.of_mem_programBegun hb
  have hgoes := goesOn_of_mem_programBegun hb
  rw [Begun.attempt, ht] at hf
  obtain ⟨taken, htaken, hblock, hsimple⟩ :=
    Stmt.readAround_takes (Declaration.inner?_forward stop b.room) hf
  have hread : (b.read stop).rest = recover rest := by
    rw [Begun.read_eq_attempt, Begun.attempt, ht, Attempt.declaration, hf]
  have htakes : From us s (taken ++ rest) := htaken ▸ hfrom
  have hrest : From us (s + taken.length) rest := htakes.skip
  obtain ⟨q, hq, hend, hleast⟩ := hrest.recover hu hs after
  refine ⟨s, _, q, t, ht ▸ hfrom, hrest, hread ▸ hq, Nat.le_add_right _ _, hfrom.getElem?,
    fun hk => ?_, fun hk => ?_, hend, hleast, hgoes⟩
  · obtain ⟨rfl, hfault⟩ | ⟨rfl, hfault⟩ := hblock hk
    · exact .inl ⟨hrest.eq_length, hfault⟩
    · exact .inr ⟨rfl, hfault⟩
  · rw [htakes.extract]
    exact hsimple hk

/-- In a block, a word that starts a statement ends recovery where no semicolon does. -/
theorem recovery_resumes_at_word :
    ∃ us : List Token, ∃ b ∈ programBegun (.stop 1) us, ∃ fault rest,
      (∀ t ∈ us, t.kind ≠ .stop) ∧ (b.attempt (.stop 1)).reading = .failed fault rest ∧
      b.room + 1 = maxNesting ∧ From us 1 rest ∧ From us 2 (b.read (.stop 1)).rest ∧
      IsLeast {q | 1 < q ∧ ResumesAt (us ++ [.stop 1]) q} 2 := by
  have hu : ∀ t ∈ [Token.mk (.mark .leftBrace) "\x7b" 1, ⟨.mark .plus, "+", 1⟩,
      ⟨.keyword .printWord, "print", 1⟩], t.kind ≠ .stop := by decide
  have hb : (⟨199, [⟨.mark .plus, "+", 1⟩, ⟨.keyword .printWord, "print", 1⟩]⟩ : Begun) ∈
      programBegun (.stop 1) [⟨.mark .leftBrace, "\x7b", 1⟩, ⟨.mark .plus, "+", 1⟩,
        ⟨.keyword .printWord, "print", 1⟩] := by decide +kernel
  obtain ⟨s, p, q, t, -, hp, hq, -, -, -, -, -, hleast, -⟩ :=
    recovery_resumes _ [] (.stop 1) hu rfl _ hb _ _ rfl
  have hp1 : p = 1 := Nat.add_right_cancel (m := 2) hp.add_length
  have hq2 : q = 2 := Nat.add_right_cancel (m := 1) hq.add_length
  subst hp1 hq2
  exact ⟨_, _, hb, _, _, hu, rfl, rfl, hp, hq, hleast (by decide)⟩

end SmallScript
