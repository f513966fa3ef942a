import SmallScript.Proofs.Grammar.Parse

/-!
How deep parsed trees are. A chain of operators is held to the levels of nesting that are left where
it stands, but its operands are read as though it took none. So a tree may be far deeper than there
are levels, and the exact bound is quadratic in their number.
-/
namespace SmallScript

open Token (plain)

namespace Expr

/-- The most nodes between the root and a leaf, leaves apart. -/
def nesting : Expr → Nat
  | literal _ => 0
  | grouping e => e.nesting + 1
  | unary _ e => e.nesting + 1
  | binary l _ r => max l.nesting r.nesting + 1
  | var _ => 0
  | assign _ e => e.nesting + 1

/-- How deep an operand can be with so many levels left: each level may hold a chain of operators
of each of the four kinds, as long as there are levels left, and then what nests. -/
def deepestOperand : Nat → Nat
  | 0 => 0
  | room + 1 => deepestOperand room + 4 * room + 1

theorem deepestOperand_add (room : Nat) :
    deepestOperand room + 4 * room = room * (2 * room + 3) := by
  induction room with
  | zero => rfl
  | succ room ih =>
    have h : (room + 1) * (2 * (room + 1) + 3) = room * (2 * room + 3) + 4 * room + 5 := by
      simp only [Nat.add_mul, Nat.mul_add]
      omega
    rw [deepestOperand, h, ← ih]
    omega

theorem nesting_succ_le {n room : Nat} (h0 : 0 < room)
    (h : n ≤ deepestOperand (room - 1) + 4 * (room - 1)) : n + 1 ≤ deepestOperand room := by
  cases room with
  | zero => omega
  | succ room =>
    rw [Nat.add_sub_cancel] at h
    rw [deepestOperand]
    omega

theorem folds_le {e : Expr} {room : Nat} (h : e.Fits room) (level : Level) :
    e.folds level ≤ room := by
  cases e with
  | binary l op r =>
    rw [folds]
    split
    · next hop => exact h.1 level hop
    · exact Nat.zero_le _
  | _ => exact Nat.zero_le _

/-- A chain more may stand around those of the tighter levels. -/
theorem chains_le {level : Level} {k : Nat} (hk : k < level.rank) (room : Nat) :
    (4 - level.rank) * room + room ≤ (4 - k) * room := by
  have hr := level.rank_lt
  rw [← Nat.succ_mul]
  exact Nat.mul_le_mul_right room (by omega)

/-- With the chains of the levels from some level on, a tree is as much deeper than an operand as
the tighter levels allow and the chain of this level has operators. -/
theorem nesting_le {e : Expr} {room : Nat} (hg : e.Grammatical) (hf : e.Fits room) :
    (∀ level : Level, level.rank ≤ e.rank →
      e.nesting ≤ deepestOperand room + (4 - level.rank) * room + e.folds level) ∧
    e.nesting ≤ deepestOperand room + 4 * room := by
  induction e generalizing room with
  | literal v => exact ⟨fun _ _ => Nat.zero_le _, Nat.zero_le _⟩
  | var name => exact ⟨fun _ _ => Nat.zero_le _, Nat.zero_le _⟩
  | grouping e ih =>
    have h : (grouping e).nesting ≤ deepestOperand room := nesting_succ_le hf.1 (ih hg hf.2).2
    exact ⟨fun _ _ => by omega, by omega⟩
  | unary op e ih =>
    have h : (unary op e).nesting ≤ deepestOperand room :=
      nesting_succ_le hf.1 (ih hg.2.2 hf.2).2
    exact ⟨fun _ _ => by omega, by omega⟩
  | assign name e ih =>
    have h : (assign name e).nesting ≤ deepestOperand room := nesting_succ_le hf.1 (ih hg.2 hf.2).2
    exact ⟨fun _ _ => by omega, by omega⟩
  | binary l op r ihl ihr =>
    obtain ⟨hop, hrl, hrr, hgl, hgr⟩ := hg
    obtain ⟨level, hlevel⟩ := Option.isSome_iff_exists.mp hop
    have hrank := Kind.rank_eq_iff.mpr hlevel
    rw [hrank] at hrl hrr
    have hl := (ihl hgl hf.2.1).1 level hrl
    have hr := (ihr hgr hf.2.2).1 level (Nat.le_of_lt hrr)
    have hfr : r.folds level = 0 := folds_eq_zero hrr
    have hfolds : (binary l op r).folds level = l.folds level + 1 := if_pos hlevel
    have hroom := folds_le hf level
    have hb : (binary l op r).nesting ≤
        deepestOperand room + (4 - level.rank) * room + (binary l op r).folds level := by
      simp only [nesting]
      omega
    constructor
    · intro level' hle
      simp only [rank, hrank] at hle
      by_cases he : level' = level
      · rw [he]
        exact hb
      · have hlt : level'.rank < level.rank :=
          Nat.lt_of_le_of_ne hle fun hr => he (Level.rank_inj hr)
        have := chains_le hlt room
        omega
    · have := chains_le level.rank_pos room
      omega

theorem folds_le_nesting (e : Expr) (level : Level) : e.folds level ≤ e.nesting := by
  induction e with
  | binary l op r ihl _ =>
    rw [folds, nesting]
    split
    · omega
    · exact Nat.zero_le _
  | _ => exact Nat.zero_le _

/-- No tree is refused that is no deeper than there are levels. -/
theorem fits_of_nesting_le {e : Expr} {room : Nat} (h : e.nesting ≤ room) : e.Fits room := by
  induction e generalizing room with
  | literal v => trivial
  | var name => trivial
  | grouping e ih =>
    rw [nesting] at h
    exact ⟨by omega, ih (by omega)⟩
  | unary op e ih =>
    rw [nesting] at h
    exact ⟨by omega, ih (by omega)⟩
  | assign name e ih =>
    rw [nesting] at h
    exact ⟨by omega, ih (by omega)⟩
  | binary l op r ihl ihr =>
    rw [nesting] at h
    refine ⟨?_, ihl (by omega), ihr (by omega)⟩
    intro level _
    have := l.folds_le_nesting level
    omega

end Expr

mutual

def Stmt.nesting : Stmt → Nat
  | .print e => e.nesting
  | .expression e => e.nesting
  | .declare _ none => 0
  | .declare _ (some e) => e.nesting
  | .block body => Stmt.nestingAll body + 1

/-- The deepest of some statements. -/
def Stmt.nestingAll : List Stmt → Nat
  | [] => 0
  | s :: rest => max s.nesting (Stmt.nestingAll rest)

end

mutual

theorem Stmt.nesting_le : (s : Stmt) → (room : Nat) → s.Grammatical → s.Fits room →
    s.nesting ≤ Expr.deepestOperand room + 4 * room
  | .print e, room, hg, hf => (Expr.nesting_le hg hf).2
  | .expression e, room, hg, hf => (Expr.nesting_le hg hf).2
  | .declare name none, room, _, _ => Nat.zero_le _
  | .declare name (some e), room, hg, hf => (Expr.nesting_le hg.2 hf).2
  | .block body, room, hg, hf => by
    have h := Expr.nesting_succ_le hf.1 (Stmt.nestingAll_le body (room - 1) hg hf.2)
    rw [Stmt.nesting]
    omega

theorem Stmt.nestingAll_le : (body : List Stmt) → (room : Nat) → Stmt.AllGrammatical body →
    Stmt.AllFit body room → Stmt.nestingAll body ≤ Expr.deepestOperand room + 4 * room
  | [], room, _, _ => Nat.zero_le _
  | s :: rest, room, hg, hf => by
    have hs := Stmt.nesting_le s room hg.1 hf.1
    have hr := Stmt.nestingAll_le rest room hg.2 hf.2
    rw [Stmt.nestingAll]
    omega

end

mutual

theorem Stmt.fits_of_nesting_le : (s : Stmt) → (room : Nat) → s.nesting ≤ room → s.Fits room
  | .print e, room, h => Expr.fits_of_nesting_le h
  | .expression e, room, h => Expr.fits_of_nesting_le h
  | .declare name none, room, _ => trivial
  | .declare name (some e), room, h => Expr.fits_of_nesting_le h
  | .block body, room, h => by
    rw [Stmt.nesting] at h
    exact ⟨by omega, Stmt.allFit_of_nestingAll_le body (room - 1) (by omega)⟩

theorem Stmt.allFit_of_nestingAll_le :
    (body : List Stmt) → (room : Nat) → Stmt.nestingAll body ≤ room → Stmt.AllFit body room
  | [], room, _ => trivial
  | s :: rest, room, h => by
    rw [Stmt.nestingAll] at h
    exact ⟨Stmt.fits_of_nesting_le s room (by omega),
      Stmt.allFit_of_nestingAll_le rest room (by omega)⟩

end

namespace Expr

/-- A tree that may stand as an operand of so tight an operator, and how deep it is. -/
structure Deep (room rank depth : Nat) (e : Expr) : Prop where
  grammatical : e.Grammatical
  fits : e.Fits room
  rank_le : rank ≤ e.rank
  nesting_eq : e.nesting = depth

theorem Deep.grouping {room rank depth : Nat} {e : Expr} (h : e.Deep room rank depth) :
    (Expr.grouping e).Deep (room + 1) 5 (depth + 1) where
  grammatical := h.grammatical
  fits := ⟨Nat.succ_pos room, h.fits⟩
  rank_le := Nat.le_refl 5
  nesting_eq := by rw [nesting, h.nesting_eq]

/-- So many operators of one kind, the first of them with this operand on its left. -/
def chained (op : Token) : Nat → Expr → Expr
  | 0, e => e
  | n + 1, e => binary (chained op n e) op (literal .nil)

theorem folds_chained {op : Token} {level : Level} (hop : op.kind.level? = some level) {e : Expr}
    (h : level.rank < e.rank) (n : Nat) : (chained op n e).folds level = n := by
  induction n with
  | zero => exact folds_eq_zero h
  | succ n ih => rw [chained, folds, if_pos hop, ih]

theorem Deep.chained {room depth : Nat} {e : Expr} (op : Token) {level : Level}
    (hop : op.kind.level? = some level) (h : e.Deep room (level.rank + 1) depth)
    (n : Nat) (hn : n ≤ room) : (chained op n e).Deep room level.rank (depth + n) := by
  induction n with
  | zero => exact { h with rank_le := Nat.le_of_succ_le h.rank_le }
  | succ n ih =>
    have hc := ih (by omega)
    have hrank := Kind.rank_eq_iff.mpr hop
    refine ⟨⟨?_, ?_, ?_, hc.grammatical, trivial⟩, ⟨?_, hc.fits, trivial⟩, ?_, ?_⟩
    · rw [hop]
      rfl
    · rw [hrank]
      exact hc.rank_le
    · exact Kind.rank_lt _
    · intro level' hl
      rw [hop] at hl
      cases hl
      rw [folds_chained hop h.rank_le]
      exact hn
    · exact Nat.le_of_eq hrank.symm
    · have := hc.nesting_eq
      simp only [Expr.chained, nesting]
      omega

/-- A deepest tree: at each level of nesting a grouping, and around it as many operators of each
kind as there are levels. -/
def tower : Nat → Expr
  | 0 => literal .nil
  | n + 1 =>
    chained (plain (.mark .equalEqual)) (n + 1) <| chained (plain (.mark .less)) (n + 1) <|
      chained (plain (.mark .plus)) (n + 1) <| chained (plain (.mark .star)) (n + 1) <|
        grouping (tower n)

theorem deep_tower (n : Nat) : (tower n).Deep n 0 (deepestOperand n + 4 * n) := by
  induction n with
  | zero => exact ⟨trivial, trivial, Nat.zero_le _, rfl⟩
  | succ n ih =>
    have hn := Nat.le_refl (n + 1)
    have h₁ : Deep (n + 1) Level.product.rank _ _ :=
      Deep.chained (plain (.mark .star)) rfl ih.grouping (n + 1) hn
    have h₂ : Deep (n + 1) Level.sum.rank _ _ :=
      Deep.chained (plain (.mark .plus)) rfl h₁ (n + 1) hn
    have h₃ : Deep (n + 1) Level.comparison.rank _ _ :=
      Deep.chained (plain (.mark .less)) rfl h₂ (n + 1) hn
    have h₄ : Deep (n + 1) Level.equality.rank _ _ :=
      Deep.chained (plain (.mark .equalEqual)) rfl h₃ (n + 1) hn
    refine { h₄ with rank_le := Nat.zero_le _, nesting_eq := ?_ }
    have := h₄.nesting_eq
    rw [tower, this, deepestOperand]
    omega

end Expr

/-- Tokens spell no two programs, however deep. Both are read from them with enough levels. -/
theorem Stmt.tokensAll_inj {program other : List Stmt} (hp : AllGrammatical program)
    (ho : AllGrammatical other) (h : tokensAll program = tokensAll other) : program = other := by
  have hk := map_kept_tokensAll hp
  have hd : DeriveAll (nestingAll program + nestingAll other) program (tokensAll program) :=
    ⟨hp, allFit_of_nestingAll_le program _ (Nat.le_add_right _ _), hk⟩
  have hd' : DeriveAll (nestingAll program + nestingAll other) other (tokensAll program) :=
    ⟨ho, allFit_of_nestingAll_le other _ (Nat.le_add_left _ _), hk.trans h⟩
  have hc := Declaration.read_complete (plain .stop) (nestingAll program + nestingAll other)
  have hr := read_complete hc List.isEmpty rfl (fun _ _ _ => rfl) program _ [] hd rfl
  rw [read_complete hc List.isEmpty rfl (fun _ _ _ => rfl) other _ [] hd' rfl] at hr
  exact (congrArg Body.statements hr).symm

/-- What is refused of the grammar is what does not keep within the levels of nesting. -/
theorem parse_eq_iff_fits {program : List Stmt} {ts : List Token}
    (hg : ∀ s ∈ program, s.Grammatical)
    (hu : (ts.takeWhile fun t => t.kind != .stop).map Token.kept = Stmt.tokensAll program) :
    parse ts = ⟨program, []⟩ ↔ ∀ s ∈ program, s.Fits maxNesting := by
  constructor
  · intro h
    have hf := (parse_salvaged ts).fits
    rw [h] at hf
    exact Stmt.allFit_iff.mp hf
  · intro hf
    exact (Stmt.deriveAll_iff.mpr ⟨hg, hf, hu⟩).parse_eq

theorem faults_eq_nil_iff {program : List Stmt} {ts : List Token}
    (hg : ∀ s ∈ program, s.Grammatical)
    (hu : (ts.takeWhile fun t => t.kind != .stop).map Token.kept = Stmt.tokensAll program) :
    (parse ts).faults = [] ↔ parse ts = ⟨program, []⟩ := by
  constructor
  · intro h
    have hs := parse_salvaged ts
    have he := Stmt.tokensAll_inj hs.grammatical (Stmt.allGrammatical_iff.mpr hg)
      ((hs.spelled h).symm.trans hu)
    rw [← he, ← h]
  · intro h
    rw [h]

/-- Parsed trees keep the levels of nesting, each chain on its own, which lets them be far deeper
than `maxNesting`, and the bound is met. Faults leave no other trees than those of tokens without
fault. Such tokens are refused if a chain or nesting in them takes more levels than are left there,
and so not if they are no deeper than `maxNesting`. They are accepted up to that depth and no
further just where keeping the levels means being no deeper. -/
theorem parse_nesting (ts : List Token) :
    (∀ s ∈ (parse ts).program, s.Fits maxNesting ∧ s.nesting ≤ 80600) ∧
      (∃ us s, parse us = ⟨[s], []⟩ ∧ s.nesting = 80600) ∧
      (∀ stop : Token, stop.kind = .stop →
        parse (Stmt.tokensAll (parse ts).program ++ [stop]) = ⟨(parse ts).program, []⟩) ∧
      ∀ program : List Stmt, (∀ s ∈ program, s.Grammatical) →
        (ts.takeWhile fun t => t.kind != .stop).map Token.kept = Stmt.tokensAll program →
          (parse ts = ⟨program, []⟩ ↔ ∀ s ∈ program, s.Fits maxNesting) ∧
          ((∀ s ∈ program, s.nesting ≤ maxNesting) → parse ts = ⟨program, []⟩) ∧
          (((parse ts).faults = [] ↔ ∀ s ∈ program, s.nesting ≤ maxNesting) ↔
            ((∀ s ∈ program, s.Fits maxNesting) → ∀ s ∈ program, s.nesting ≤ maxNesting)) := by
  have hbound : Expr.deepestOperand maxNesting + 4 * maxNesting = 80600 :=
    Expr.deepestOperand_add maxNesting
  have hp := parse_salvaged ts
  refine ⟨?_, ?_, ?_, ?_⟩
  · intro s hs
    have hf := Stmt.allFit_iff.mp hp.fits s hs
    have hn := s.nesting_le maxNesting (Stmt.allGrammatical_iff.mp hp.grammatical s hs) hf
    exact ⟨hf, hbound ▸ hn⟩
  · have ht := Expr.deep_tower maxNesting
    have hg : (Stmt.print (Expr.tower maxNesting)).Grammatical := ht.grammatical
    have hs : (plain .stop).kind = .stop := rfl
    exact ⟨_, _, parse_tokensAll ⟨hg, trivial⟩ ⟨ht.fits, trivial⟩ hs, hbound ▸ ht.nesting_eq⟩
  · intro stop hs
    exact parse_tokensAll hp.grammatical hp.fits hs
  · intro program hg hu
    have h := parse_eq_iff_fits hg hu
    have hfits : (∀ s ∈ program, s.nesting ≤ maxNesting) → ∀ s ∈ program, s.Fits maxNesting :=
      fun hn s hs => s.fits_of_nesting_le maxNesting (hn s hs)
    refine ⟨h, fun hn => h.mpr (hfits hn), ?_⟩
    rw [faults_eq_nil_iff hg hu, h]
    exact ⟨fun he => he.mp, fun hn => ⟨hn, hfits⟩⟩

/-- As many sums as there are levels, the first of them of a negation, are one level too deep. -/
theorem parse_sums_of_negation :
    let s := Stmt.print (Expr.chained ⟨.mark .plus, "+", 1⟩ 200
      (.unary ⟨.mark .minus, "-", 1⟩ (.literal .nil)))
    parse (Stmt.tokensAll [s] ++ [⟨.stop, "", 1⟩]) = ⟨[s], []⟩ ∧ ¬ s.nesting ≤ maxNesting := by
  intro s
  have hn : (Expr.unary ⟨.mark .minus, "-", 1⟩ (.literal .nil)).Deep 200 4 1 :=
    ⟨⟨rfl, Nat.le_refl 5, trivial⟩, ⟨by decide, trivial⟩, by decide, rfl⟩
  have hd := Expr.Deep.chained ⟨.mark .plus, "+", 1⟩ rfl hn 200 (Nat.le_refl 200)
  have hg : s.Grammatical := hd.grammatical
  have hs : s.nesting = 201 := hd.nesting_eq
  refine ⟨parse_tokensAll ⟨hg, trivial⟩ ⟨hd.fits, trivial⟩ rfl, ?_⟩
  rw [hs, maxNesting]
  decide

end SmallScript
