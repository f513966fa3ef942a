import SmallScript.Proofs.Reading.Begun
import SmallScript.Proofs.Source.Join

/-!
The order in which faults in the syntax are reported. A place is given by the tokens from it on. A
fault shows the token at its place, and behind that place reading goes on, so each fault has a place
behind those reported before it, unless both are at the end.
-/
namespace SmallScript

/-- This place is further on, or both are the end. -/
def Behind (later earlier : List Token) : Prop :=
  later.length < earlier.length ∨ earlier = [] ∧ later = []

namespace Behind

variable {later earlier : List Token}

theorem of_suffix {further : List Token} (h : Behind later earlier) (hs : further <:+ later) :
    Behind further earlier := by
  obtain hlt | ⟨he, rfl⟩ := h
  · exact .inl (Nat.lt_of_le_of_lt hs.length_le hlt)
  · exact .inr ⟨he, List.suffix_nil.mp hs⟩

theorem nil (earlier : List Token) : Behind [] earlier := by
  cases earlier with
  | nil => exact .inr ⟨rfl, rfl⟩
  | cons t ts => exact .inl (Nat.succ_pos _)

/-- Recovery from a fault goes beyond its place. -/
theorem recover {rest place : List Token} (h : rest <:+ place) :
    Behind (recover rest) place := by
  cases rest with
  | nil => exact .nil place
  | cons t ts =>
    have hl := (recover_suffix t ts).length_le
    exact .inl (Nat.lt_of_lt_of_le (Nat.lt_succ_of_le hl) h.length_le)

/-- Of two places in the same tokens, the one further on has the greater position. -/
theorem position_lt {us : List Token} (h : Behind later earlier) (he : earlier <:+ us) :
    us.length - earlier.length < us.length - later.length ∨
      us.length - earlier.length = us.length ∧ us.length - later.length = us.length := by
  obtain hlt | ⟨rfl, rfl⟩ := h
  · have := he.length_le
    exact .inl (by omega)
  · exact .inr ⟨rfl, rfl⟩

end Behind

/-- The token at a place has the position of the place. -/
theorem getElem?_of_suffix {us place : List Token} (h : place <:+ us) (stop : Token)
    (after : List Token) :
    (us ++ stop :: after)[us.length - place.length]? = some (place.headD stop) := by
  obtain ⟨front, rfl⟩ := h
  rw [List.length_append, Nat.add_sub_cancel, List.append_assoc,
    List.getElem?_append_right (Nat.le_refl _), Nat.sub_self]
  cases place <;> rfl

/-- Where lines never go back, they do not from a place to one further on. -/
theorem Behind.line_le {us : List Token} {stop : Token} {later earlier : List Token}
    (hl : (us ++ [stop]).Pairwise fun t u => t.line ≤ u.line) (h : Behind later earlier)
    (he : earlier <:+ us) (hs : later <:+ us) :
    (earlier.headD stop).line ≤ (later.headD stop).line := by
  obtain hlt | ⟨rfl, rfl⟩ := h
  · have hi := getElem?_of_suffix he stop []
    have hj := getElem?_of_suffix hs stop []
    obtain ⟨hi, hei⟩ := List.getElem?_eq_some_iff.mp hi
    obtain ⟨hj, hej⟩ := List.getElem?_eq_some_iff.mp hj
    have := he.length_le
    rw [← hei, ← hej]
    exact List.pairwise_iff_getElem.mp hl _ _ hi hj (by omega)
  · exact Nat.le_refl _

namespace Reading

/-- A reading goes forward, and a fault shows the token at a place that it has come to. -/
structure Blames (stop : Token) (r : Reading α) (ts : List Token) : Prop where
  suffix : r.rest <:+ ts
  place : ∀ fault rest, r = failed fault rest →
    ∃ place, place <:+ ts ∧ rest <:+ place ∧ fault.token = place.headD stop

variable {stop : Token}

theorem fail_blames (cause : SyntaxCause) (ts : List Token) :
    (fail stop cause ts : Reading α).Blames stop ts where
  suffix := List.suffix_refl ts
  place _ _ h := by
    cases h
    exact ⟨ts, List.suffix_refl ts, List.suffix_refl ts, rfl⟩

theorem done_blames (v : α) {rest ts : List Token} (h : rest <:+ ts) :
    (done v rest).Blames stop ts :=
  ⟨h, fun _ _ h => by cases h⟩

theorem mark_blames (m : Mark) (cause : SyntaxCause) (ts : List Token) :
    (mark stop m cause ts).Blames stop ts := by
  unfold mark
  split
  · split
    · exact done_blames _ (List.suffix_cons _ _)
    · exact fail_blames _ _
  · exact fail_blames _ _

namespace Blames

variable {r : Reading α} {ts : List Token}

theorem of_suffix {all : List Token} (h : r.Blames stop ts) (hs : ts <:+ all) :
    r.Blames stop all where
  suffix := h.suffix.trans hs
  place fault rest hr := by
    obtain ⟨place, hp, hrest, ht⟩ := h.place fault rest hr
    exact ⟨place, hp.trans hs, hrest, ht⟩

theorem cons (h : r.Blames stop ts) (t : Token) : r.Blames stop (t :: ts) :=
  h.of_suffix (List.suffix_cons t ts)

theorem andThen (h : r.Blames stop ts) {next : α → List Token → Reading β}
    (hn : ∀ v rest, (next v rest).Blames stop rest) : (r.andThen next).Blames stop ts := by
  cases r with
  | failed fault rest =>
    refine ⟨h.suffix, fun fault' rest' hr => ?_⟩
    cases hr
    exact h.place fault rest rfl
  | done v rest => exact (hn v rest).of_suffix h.suffix

end Blames

theorem blames_compositional (stop : Token) :
    Compositional stop fun _ r ts => r.Blames stop ts where
  fail := fail_blames
  done v ts := done_blames v (List.suffix_refl ts)
  cons h t _ := h.cons t
  andThen h _ hn := h.andThen hn
  badTarget {r ts} h equals _ := by
    -- the fault is at the equals sign, which lies before all that was read since
    cases r with
    | failed fault rest =>
      refine ⟨(h.cons equals).suffix, fun fault' rest' hr => ?_⟩
      cases hr
      exact (h.cons equals).place fault rest rfl
    | done v rest =>
      refine ⟨(h.cons equals).suffix, fun fault' rest' hr => ?_⟩
      cases hr
      exact ⟨equals :: ts, List.suffix_refl _, (h.cons equals).suffix, rfl⟩

end Reading

namespace Stmt

open Reading

variable (stop : Token) (room : Nat) (ts : List Token)

theorem readClosed_blames (cause : SyntaxCause) (build : Expr → Stmt) :
    (readClosed stop room cause build ts).Blames stop ts :=
  (Expr.read_compositional (blames_compositional stop) room ts).andThen fun _ rest =>
    (mark_blames .semicolon cause rest).andThen fun _ rest => done_blames _ (List.suffix_refl rest)

theorem readInitializer_blames (name : Token) :
    (readInitializer stop room name ts).Blames stop ts := by
  unfold readInitializer
  split
  · exact fail_blames _ _
  · next t ts =>
    split
    · exact (readClosed_blames stop room ts _ _).cons t
    · exact (mark_blames _ _ _).andThen fun _ rest => done_blames _ (List.suffix_refl rest)

theorem readDeclared_blames : (readDeclared stop room ts).Blames stop ts := by
  unfold readDeclared
  split
  · exact fail_blames _ _
  · next t ts =>
    split
    · exact (readInitializer_blames stop room ts t).cons t
    · exact fail_blames _ _

theorem readAround_simple_blames {inner : Option (List Token → Declaration)} {t : Token}
    (h : t.kind = .mark .leftBrace → inner = none) :
    (readAround stop room inner (t :: ts)).reading.Blames stop (t :: ts) := by
  rw [readAround]
  split
  · exact (readDeclared_blames stop room ts).cons t
  · exact (readClosed_blames stop room ts _ _).cons t
  · next hk =>
    rw [h hk]
    exact (fail_blames _ ts).cons t
  · exact readClosed_blames stop room (t :: ts) _ _

end Stmt

/-- The fault that a declaration adds to those of the declarations within it. -/
def Begun.fault? (stop : Token) (b : Begun) : Option SyntaxFault :=
  match (b.attempt stop).reading with
  | .done _ _ => none
  | .failed fault _ => some fault

theorem Begun.fails_eq (stop : Token) (b : Begun) : b.fails stop = (b.fault? stop).isSome := by
  rw [fails, read_eq_attempt, Attempt.declaration, fault?]
  cases (b.attempt stop).reading <;> rfl

/-- The faults of some declarations, begun between the first of these tokens and the rest, and the
place of each. Every declaration that fails has its own among them. -/
structure Reports (stop : Token) (ts rest : List Token) (begun : List Begun)
    (faults : List SyntaxFault) (places : List (List Token)) : Prop where
  suffix : rest <:+ ts
  tokens : faults.map (·.token) = places.map fun p => p.headD stop
  within : ∀ p ∈ places, p <:+ ts ∧ Behind rest p
  ordered : places.Pairwise fun p q => Behind q p
  own : faults.Perm (begun.filterMap (Begun.fault? stop))

namespace Reports

variable {stop : Token} {ts rest : List Token} {begun : List Begun} {faults : List SyntaxFault}
  {places : List (List Token)}

theorem nil (stop : Token) (ts : List Token) : Reports stop ts ts [] [] [] :=
  ⟨List.suffix_refl ts, rfl, List.forall_mem_nil _, .nil, .nil⟩

/-- Declarations after one another. -/
theorem append (h : Reports stop ts rest begun faults places) {rest' : List Token}
    {begun' : List Begun} {faults' : List SyntaxFault} {places' : List (List Token)}
    (h' : Reports stop rest rest' begun' faults' places') :
    Reports stop ts rest' (begun ++ begun') (faults ++ faults') (places ++ places') where
  suffix := h'.suffix.trans h.suffix
  tokens := by rw [List.map_append, List.map_append, h.tokens, h'.tokens]
  within := by
    refine List.forall_mem_append.mpr ⟨fun p hp => ?_, fun p hp => ?_⟩
    · obtain ⟨hs, hb⟩ := h.within p hp
      exact ⟨hs, hb.of_suffix h'.suffix⟩
    · obtain ⟨hs, hb⟩ := h'.within p hp
      exact ⟨hs.trans h.suffix, hb⟩
  ordered := by
    refine List.pairwise_append.mpr ⟨h.ordered, h'.ordered, fun p hp q hq => ?_⟩
    exact (h.within p hp).2.of_suffix (h'.within q hq).1
  own := by
    rw [List.filterMap_append]
    exact h.own.append h'.own

/-- Where lines never go back, those of the faults do not either. -/
theorem pairwise_line (h : Reports stop ts rest begun faults places)
    (hl : (ts ++ [stop]).Pairwise fun t u => t.line ≤ u.line) :
    faults.Pairwise fun f g => f.token.line ≤ g.token.line := by
  have hp : (places.map fun p => p.headD stop).Pairwise fun t u => t.line ≤ u.line :=
    List.pairwise_map.mpr <| h.ordered.imp_of_mem fun hp hq hb =>
      hb.line_le hl (h.within _ hp).1 (h.within _ hq).1
  rw [← h.tokens] at hp
  exact (List.pairwise_map (R := fun t u : Token => t.line ≤ u.line)).mp hp

/-- The same seen from further in front, and with less that is left. -/
theorem widen {all left : List Token} (h : Reports stop ts rest begun faults places)
    (hall : ts <:+ all) (hs : left <:+ rest) : Reports stop all left begun faults places where
  suffix := (hs.trans h.suffix).trans hall
  tokens := h.tokens
  within p hp := by
    obtain ⟨hp, hb⟩ := h.within p hp
    exact ⟨hp.trans hall, hb.of_suffix hs⟩
  ordered := h.ordered
  own := h.own

/-- A declaration that fails has its fault behind those of the declarations within it. -/
theorem concat (h : Reports stop ts rest begun faults places) {b : Begun} {fault : SyntaxFault}
    (hf : b.fault? stop = some fault) {place : List Token} (ht : fault.token = place.headD stop)
    (hp : place <:+ ts) (hb : Behind rest place) (hlast : ∀ p ∈ places, Behind place p) :
    Reports stop ts rest (b :: begun) (faults ++ [fault]) (places ++ [place]) where
  suffix := h.suffix
  tokens := by
    rw [List.map_append, List.map_append, h.tokens, List.map_singleton, List.map_singleton, ht]
  within := List.forall_mem_append.mpr ⟨h.within, List.forall_mem_singleton.mpr ⟨hp, hb⟩⟩
  ordered := by
    refine List.pairwise_append.mpr ⟨h.ordered, List.pairwise_singleton _ _, fun p hp q hq => ?_⟩
    rw [List.mem_singleton.mp hq]
    exact hlast p hp
  own := by
    rw [List.filterMap_cons_some hf]
    exact (List.perm_append_singleton fault faults).trans (h.own.cons fault)

/-- A declaration before those that are begun within it. -/
theorem begin {b : Begun} {all : List Token} (h : Reports stop ts rest begun faults places)
    (hall : ts <:+ all) (hrec : (b.attempt stop).recovered = faults)
    (hs : (b.attempt stop).reading.rest <:+ rest)
    (hp : ∀ fault left, (b.attempt stop).reading = .failed fault left →
      ∃ place, place <:+ all ∧ left <:+ place ∧ fault.token = place.headD stop ∧
        ∀ p ∈ places, Behind place p) :
    ∃ places, Reports stop all (b.read stop).rest (b :: begun) (b.read stop).faults places := by
  rw [Begun.read_eq_attempt]
  have hrest := Attempt.rest_declaration_suffix (b.attempt stop)
  have hwide := h.widen hall (hrest.trans hs)
  cases hr : (b.attempt stop).reading with
  | done s left =>
    have hf : b.fault? stop = none := by rw [Begun.fault?, hr]
    rw [Attempt.declaration, hr] at hwide ⊢
    rw [hrec]
    refine ⟨places, { hwide with own := ?_ }⟩
    rw [List.filterMap_cons_none hf]
    exact h.own
  | failed fault left =>
    have hf : b.fault? stop = some fault := by rw [Begun.fault?, hr]
    obtain ⟨place, hplace, hleft, ht, hlast⟩ := hp fault left hr
    rw [Attempt.declaration, hr] at hwide ⊢
    rw [hrec]
    exact ⟨_, hwide.concat hf ht hplace (.recover hleft) hlast⟩

end Reports

namespace Declaration

variable (stop : Token) (room : Nat) {t : Token} (ts : List Token)

theorem reports_simple (h : t.kind = .mark .leftBrace → room = 0) :
    ∃ places, Reports stop (t :: ts) (read stop room (t :: ts)).rest [⟨room, t :: ts⟩]
      (read stop room (t :: ts)).faults places := by
  have hi : t.kind = .mark .leftBrace → inner? stop room = none := fun hk => by rw [h hk]; rfl
  have hb := Stmt.readAround_simple_blames stop room ts hi
  refine Reports.begin (b := ⟨room, t :: ts⟩) (.nil stop (t :: ts)) (List.suffix_refl _) ?_
    hb.suffix ?_
  · exact (Stmt.readAround_simple stop room hi ts).1
  · intro fault left hr
    obtain ⟨place, hp, hleft, ht⟩ := hb.place fault left hr
    exact ⟨place, hp, hleft, ht, List.forall_mem_nil _⟩

theorem reports_block (hk : t.kind = .mark .leftBrace) {begun : List Begun}
    {places : List (List Token)}
    (h : Reports stop ts (Body.read (read stop room) closesBlock ts).rest begun
      (Body.read (read stop room) closesBlock ts).faults places) :
    ∃ places, Reports stop (t :: ts) (read stop (room + 1) (t :: ts)).rest
      (⟨room + 1, t :: ts⟩ :: begun) (read stop (room + 1) (t :: ts)).faults places := by
  have ha : (⟨room + 1, t :: ts⟩ : Begun).attempt stop =
      Stmt.readBlock stop (some (read stop room)) ts :=
    Stmt.readAround_block stop (room + 1) _ hk ts
  refine Reports.begin (b := ⟨room + 1, t :: ts⟩) h (List.suffix_cons t ts) ?_ ?_ ?_
  · rw [ha]
    rfl
  · rw [ha]
    exact (Stmt.readBlock_some stop (read stop room) ts).1
  · -- a block with a level left fails at the end only, behind all faults within it
    intro fault left hr
    rw [ha] at hr
    obtain ⟨rfl, rfl⟩ := Stmt.readBlock_some_failed (read_forward stop room) hr
    exact ⟨[], List.nil_suffix, List.suffix_refl _, rfl, fun p _ => .nil p⟩

end Declaration

/-- What is begun in a sequence gives its faults. -/
theorem Body.reports (stop : Token) (room : Nat) (ends : List Token → Bool) (he : ends [] = true)
    (ts : List Token) :
    ∃ places, Reports stop ts (Body.read (Declaration.read stop room) ends ts).rest
      (Body.begun (Declaration.read stop room) (Declaration.begun stop room) ends ts)
      (Body.read (Declaration.read stop room) ends ts).faults places := by
  refine (Declaration.begun_induction stop
    (D := fun room ts begun => ∃ places, Reports stop ts (Declaration.read stop room ts).rest begun
      (Declaration.read stop room ts).faults places)
    (B := fun room ends ts begun => ∃ places, Reports stop ts
      (Body.read (Declaration.read stop room) ends ts).rest begun
      (Body.read (Declaration.read stop room) ends ts).faults places) ?_ ?_ ?_ ?_ room).2 ends he ts
  · exact fun room t ts h => Declaration.reports_simple stop room ts h
  · exact fun room t ts begun hk ⟨_, h⟩ => Declaration.reports_block stop room ts hk h
  · intro room ends ts he hends
    rw [Body.read_eq he (Declaration.read_forward stop room).shorter, if_pos hends]
    exact ⟨[], .nil stop ts⟩
  · rintro room ends t ts begun others he hends ⟨_, h⟩ ⟨_, ho⟩
    rw [Body.read_eq he (Declaration.read_forward stop room).shorter (t :: ts), hends]
    exact ⟨_, h.append ho⟩

theorem reports_programBegun (stop : Token) (us : List Token) :
    ∃ places, Reports stop us [] (programBegun stop us) (parseBody stop us).faults places := by
  have h := Body.reports stop maxNesting List.isEmpty rfl us
  have hr : (Body.read (Declaration.read stop maxNesting) List.isEmpty us).rest = [] :=
    rest_parseBody stop us
  rw [hr] at h
  exact h

/-- Faults in the syntax are reported once each and in the order of the source. Each report shows the
line and location of a token up to the first stop token, further on than the tokens of those before it
unless both are at the stop token. Every declaration that fails, be it within a block, has one report
of its own, and there are no others. So the lines reported for a source never go back. -/
theorem parse_reports_in_order :
    (∀ (us after : List Token) (stop : Token), (∀ t ∈ us, t.kind ≠ .stop) → stop.kind = .stop →
      (∃ places : List Nat,
        (parse (us ++ stop :: after)).faults.map
            (fun f => some (f.diagnostic.line, f.diagnostic.location)) =
          places.map (fun p => (us ++ stop :: after)[p]?.map fun t => (t.line, t.location)) ∧
        (∀ p ∈ places, p ≤ us.length) ∧
        places.Pairwise fun p q => p < q ∨ p = us.length ∧ q = us.length) ∧
      (parse (us ++ stop :: after)).faults.Perm
        ((programBegun stop us).filterMap (Begun.fault? stop)) ∧
      ∀ b ∈ programBegun stop us, b.fails stop = (b.fault? stop).isSome) ∧
    ∀ source, (parse (tokenize source).tokens).faults.Pairwise fun f g =>
      f.diagnostic.line ≤ g.diagnostic.line := by
  constructor
  · intro us after stop hu hs
    obtain ⟨places, h⟩ := reports_programBegun stop us
    rw [parse_before_stop hu hs after]
    refine ⟨⟨places.map fun p => us.length - p.length, ?_, ?_, ?_⟩, h.own,
      fun b _ => b.fails_eq stop⟩
    · have ht := congrArg (List.map fun t : Token => some (t.line, t.location)) h.tokens
      rw [List.map_map, List.map_map] at ht
      rw [List.map_map]
      refine ht.trans (List.map_congr_left fun p hp => ?_)
      rw [Function.comp_apply, Function.comp_apply, getElem?_of_suffix (h.within p hp).1 stop after]
      rfl
    · exact List.forall_mem_map.mpr fun p _ => Nat.sub_le _ _
    · refine List.pairwise_map.mpr (h.ordered.imp_of_mem fun hp _ hb => ?_)
      exact hb.position_lt (h.within _ hp).1
  · intro source
    have hl := tokens_pairwise_line source
    rw [tokens_tokenize] at hl ⊢
    obtain ⟨places, h⟩ := reports_programBegun (.stop (lastLine source.toList)) (lexemes source)
    rw [parse_stop (kind_ne_stop_of_mem_lexemes source) rfl]
    exact h.pairwise_line hl

/-- In two blocks that are left open, a fault at an equals sign before what is read behind it. -/
theorem parse_reports_in_order_open_blocks :
    ∃ us : List Token, (∀ t ∈ us, t.kind ≠ .stop) ∧
      (parse (us ++ [.stop 1])).faults.map (fun f => f.diagnostic.location) =
        [" at '='", " at end", " at end"] ∧
      (parse (us ++ [.stop 1])).faults.Perm
        ((programBegun (.stop 1) us).filterMap (Begun.fault? (.stop 1))) ∧
      ((programBegun (.stop 1) us).filterMap (Begun.fault? (.stop 1))).map (fun f => f.cause) =
        [.openBlock, .openBlock, .badTarget] := by
  have hu : ∀ t ∈ [Token.mk (.mark .leftBrace) "\x7b" 1, ⟨.mark .leftBrace, "\x7b", 1⟩,
      ⟨.keyword .nilWord, "nil", 1⟩, ⟨.mark .equal, "=", 1⟩, ⟨.keyword .nilWord, "nil", 1⟩],
      t.kind ≠ .stop := by decide
  obtain ⟨-, hown, -⟩ := parse_reports_in_order.1 _ [] (.stop 1) hu rfl
  exact ⟨_, hu, by decide +kernel, hown, by decide +kernel⟩

end SmallScript
