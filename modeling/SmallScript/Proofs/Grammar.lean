import SmallScript.Syntax.Statement

/-!
The grammar without a reader: which trees it derives, how far they may nest, and the tokens that
spell a tree from left to right. Nothing here follows the order in which tokens are read.
-/
namespace SmallScript

/-- The kind of the token that stands for a value. -/
def Value.kind : Value → Kind
  | .boolean true => .keyword .trueWord
  | .boolean false => .keyword .falseWord
  | .nil => .keyword .nilWord
  | .number x => .number x
  | .string s => .string s

namespace Kind

theorem constant?_eq_some {k : Kind} {v : Value} : k.constant? = some v ↔ k = v.kind := by
  constructor
  · intro h
    unfold constant? at h
    split at h <;> cases h <;> rfl
  · intro h
    subst h
    cases v with
    | boolean b => cases b <;> rfl
    | nil => rfl
    | number x => rfl
    | string s => rfl

def isName : Kind → Bool
  | identifier _ => true
  | _ => false

theorem isName_iff {k : Kind} : k.isName ↔ ∃ n, k = .identifier n := by
  cases k <;> simp [isName]

end Kind

/-- How tightly the operators of a level bind. -/
def Level.rank : Level → Nat
  | .equality => 1
  | .comparison => 2
  | .sum => 3
  | .product => 4

theorem Level.rank_inj {l m : Level} (h : l.rank = m.rank) : l = m := by
  cases l <;> cases m <;> first | rfl | cases h

/-- How tightly a binary operator binds. What is none binds nothing. -/
def Kind.rank (k : Kind) : Nat := k.level?.elim 0 Level.rank

theorem Kind.rank_eq_iff {k : Kind} {level : Level} :
    k.rank = level.rank ↔ k.level? = some level := by
  rw [Kind.rank]
  cases k.level? with
  | none => cases level <;> simp [Level.rank]
  | some l => cases l <;> cases level <;> simp [Level.rank]

theorem Kind.rank_lt (k : Kind) : k.rank < 5 := by
  rw [Kind.rank]
  cases k.level? with
  | none => simp
  | some l => cases l <;> simp [Level.rank]

namespace Token

/-- Trees keep operators and names as they stand in the source, and other tokens not at all. -/
def isKept (t : Token) : Bool := t.kind.isName || t.kind.isPrefix || t.kind.level?.isSome

/-- A token of which only the kind matters. -/
def plain (k : Kind) : Token := ⟨k, "", 0⟩

/-- What of a token can be told from a tree: all of it, or its kind alone. -/
def kept (t : Token) : Token := if t.isKept then t else plain t.kind

@[simp] theorem kind_kept (t : Token) : t.kept.kind = t.kind := by
  rw [kept]
  split <;> rfl

theorem kept_of_isKept {t : Token} (h : t.isKept) : t.kept = t := if_pos h

theorem kept_eq_iff {t u : Token} (h : u.isKept) : t.kept = u ↔ t = u := by
  constructor
  · intro he
    have hk : t.isKept = u.isKept := by
      rw [← he]
      simp [isKept]
    rw [← he, kept_of_isKept (by rw [hk, h])]
  · intro he
    rw [he, kept_of_isKept h]

theorem kept_eq_plain {t : Token} {k : Kind} (h : (plain k).isKept = false) :
    t.kept = plain k ↔ t.kind = k := by
  constructor
  · intro he
    have := congrArg Token.kind he
    simpa [plain] using this
  · intro he
    have ht : t.isKept = false := by
      rw [← h]
      simp [isKept, plain, he]
    simp [kept, ht, he]

@[simp] theorem kept_plain (k : Kind) : (plain k).kept = plain k := by
  by_cases h : (plain k).isKept
  · exact kept_of_isKept h
  · exact if_neg h

theorem kind_ne_stop_of_isKept {t : Token} (h : t.isKept) : t.kind ≠ .stop := by
  intro hk
  simp [isKept, hk, Kind.isName, Kind.isPrefix, Kind.level?] at h

theorem map_kept_eq_cons {us ts : List Token} {u : Token} (h : u.isKept) :
    us.map kept = u :: ts ↔ ∃ vs, us = u :: vs ∧ vs.map kept = ts := by
  rw [List.map_eq_cons_iff]
  constructor
  · rintro ⟨t, vs, rfl, ht, hv⟩
    exact ⟨vs, by rw [(kept_eq_iff h).mp ht], hv⟩
  · rintro ⟨vs, rfl, hv⟩
    exact ⟨u, vs, rfl, kept_of_isKept h, hv⟩

theorem map_kept_eq_plain_cons {us ts : List Token} {k : Kind} (h : (plain k).isKept = false) :
    us.map kept = plain k :: ts ↔ ∃ t vs, us = t :: vs ∧ t.kind = k ∧ vs.map kept = ts := by
  simp only [List.map_eq_cons_iff, kept_eq_plain h]

end Token

open Token (plain)

namespace Expr

/-- How tightly an expression holds together. A binary one does so as its operator, an assignment
not at all, and an operand binds tighter than any operator. -/
def rank : Expr → Nat
  | binary _ op _ => op.kind.rank
  | assign _ _ => 0
  | _ => 5

/-- The shape that the grammar gives to trees. Operators of one level fold to the left, and an
assignment stands only where a whole expression may. -/
def Grammatical : Expr → Prop
  | literal _ => True
  | grouping e => e.Grammatical
  | unary op e => op.kind.isPrefix ∧ 5 ≤ e.rank ∧ e.Grammatical
  | binary l op r =>
    op.kind.level?.isSome ∧ op.kind.rank ≤ l.rank ∧ op.kind.rank < r.rank ∧
      l.Grammatical ∧ r.Grammatical
  | var name => name.kind.isName
  | assign name e => name.kind.isName ∧ e.Grammatical

/-- How many operators of a level the expression folds. -/
def folds (level : Level) : Expr → Nat
  | binary l op _ => if op.kind.level? = some level then l.folds level + 1 else 0
  | _ => 0

/-- Only an assignment does not hold together. -/
theorem eq_assign_of_rank {e : Expr} (h : e.Grammatical) (hr : e.rank = 0) :
    ∃ name value, e = assign name value := by
  cases e with
  | assign name value => exact ⟨name, value, rfl⟩
  | binary l op r =>
    obtain ⟨level, hl⟩ := Option.isSome_iff_exists.mp h.1
    rw [rank, Kind.rank_eq_iff.mpr hl] at hr
    cases level <;> cases hr
  | _ => cases hr

/-- A tree that binds tighter than a level folds none of its operators. -/
theorem folds_eq_zero {level : Level} {e : Expr} (h : level.rank < e.rank) :
    e.folds level = 0 := by
  cases e with
  | binary l op r =>
    have hop : op.kind.level? ≠ some level := by
      intro he
      rw [← Kind.rank_eq_iff] at he
      simp only [rank] at h
      omega
    simp [folds, hop]
  | _ => rfl

/-- The tree keeps within so many levels of nesting. Groupings, prefix operators and assignments
take one level each for what they hold, and a chain has no more operators than levels are left. -/
def Fits : Expr → Nat → Prop
  | literal _, _ => True
  | grouping e, room => 0 < room ∧ e.Fits (room - 1)
  | unary _ e, room => 0 < room ∧ e.Fits (room - 1)
  | binary l op r, room =>
    (∀ level ∈ op.kind.level?, l.folds level + 1 ≤ room) ∧ l.Fits room ∧ r.Fits room
  | var _, _ => True
  | assign _ e, room => 0 < room ∧ e.Fits (room - 1)

instance decidableGrammatical : (e : Expr) → Decidable e.Grammatical
  | literal _ => inferInstanceAs (Decidable True)
  | grouping e => decidableGrammatical e
  | unary op e =>
    have := decidableGrammatical e
    inferInstanceAs (Decidable (op.kind.isPrefix ∧ 5 ≤ e.rank ∧ e.Grammatical))
  | binary l op r =>
    have := decidableGrammatical l
    have := decidableGrammatical r
    inferInstanceAs (Decidable (op.kind.level?.isSome ∧ op.kind.rank ≤ l.rank ∧
      op.kind.rank < r.rank ∧ l.Grammatical ∧ r.Grammatical))
  | var name => inferInstanceAs (Decidable name.kind.isName)
  | assign name e =>
    have := decidableGrammatical e
    inferInstanceAs (Decidable (name.kind.isName ∧ e.Grammatical))

instance decidableFits : (e : Expr) → (room : Nat) → Decidable (e.Fits room)
  | literal _, _ => inferInstanceAs (Decidable True)
  | grouping e, room =>
    have := decidableFits e (room - 1)
    inferInstanceAs (Decidable (0 < room ∧ e.Fits (room - 1)))
  | unary _ e, room =>
    have := decidableFits e (room - 1)
    inferInstanceAs (Decidable (0 < room ∧ e.Fits (room - 1)))
  | binary l op r, room =>
    have := decidableFits l room
    have := decidableFits r room
    inferInstanceAs (Decidable ((∀ level ∈ op.kind.level?, l.folds level + 1 ≤ room) ∧
      l.Fits room ∧ r.Fits room))
  | var _, _ => inferInstanceAs (Decidable True)
  | assign _ e, room =>
    have := decidableFits e (room - 1)
    inferInstanceAs (Decidable (0 < room ∧ e.Fits (room - 1)))

/-- The tokens that spell an expression. -/
def tokens : Expr → List Token
  | literal v => [plain v.kind]
  | grouping e => plain (.mark .leftParen) :: (e.tokens ++ [plain (.mark .rightParen)])
  | unary op e => op :: e.tokens
  | binary l op r => l.tokens ++ op :: r.tokens
  | var name => [name]
  | assign name e => name :: plain (.mark .equal) :: e.tokens

/-- These tokens spell the tree, which is grammatical, holds together at least so tightly and keeps
within so many levels of nesting. -/
structure Derives (room rank : Nat) (e : Expr) (us : List Token) : Prop where
  grammatical : e.Grammatical
  fits : e.Fits room
  rank_le : rank ≤ e.rank
  spelled : us.map Token.kept = e.tokens

variable {room rank : Nat} {us : List Token}

theorem derives_iff {e : Expr} : e.Derives room rank us ↔
    e.Grammatical ∧ e.Fits room ∧ rank ≤ e.rank ∧ us.map Token.kept = e.tokens :=
  ⟨fun h => ⟨h.grammatical, h.fits, h.rank_le, h.spelled⟩,
    fun ⟨hg, hf, hr, hs⟩ => ⟨hg, hf, hr, hs⟩⟩

theorem derives_literal {v : Value} :
    (literal v).Derives room rank us ↔ rank ≤ 5 ∧ ∃ t, us = [t] ∧ t.kind = v.kind := by
  have hv : (plain v.kind).isKept = false := by
    cases v with
    | boolean b => cases b <;> rfl
    | _ => rfl
  simp only [derives_iff, Grammatical, Fits, Expr.rank, tokens, true_and,
    List.map_eq_singleton_iff, Token.kept_eq_plain hv]

theorem derives_var {name : Token} :
    (var name).Derives room rank us ↔ rank ≤ 5 ∧ name.kind.isName ∧ us = [name] := by
  simp only [derives_iff, Grammatical, Fits, Expr.rank, tokens, true_and]
  constructor
  · rintro ⟨hn, hr, hs⟩
    rw [Token.map_kept_eq_cons (by simp [Token.isKept, hn])] at hs
    obtain ⟨vs, rfl, hv⟩ := hs
    exact ⟨hr, hn, by rw [List.map_eq_nil_iff.mp hv]⟩
  · rintro ⟨hr, hn, rfl⟩
    exact ⟨hn, hr, (Token.map_kept_eq_cons (by simp [Token.isKept, hn])).mpr ⟨[], rfl, rfl⟩⟩

theorem derives_grouping {e : Expr} :
    (grouping e).Derives room rank us ↔
      rank ≤ 5 ∧ 0 < room ∧ ∃ l vs r, us = l :: (vs ++ [r]) ∧ l.kind = .mark .leftParen ∧
        r.kind = .mark .rightParen ∧ e.Derives (room - 1) 0 vs := by
  simp only [derives_iff, Grammatical, Fits, Expr.rank, tokens, Nat.zero_le, true_and,
    Token.map_kept_eq_plain_cons (k := .mark .leftParen) rfl, List.map_eq_append_iff,
    List.map_eq_singleton_iff, Token.kept_eq_plain (k := .mark .rightParen) rfl]
  constructor
  · rintro ⟨hg, ⟨h0, hf⟩, hr, l, ws, rfl, hl, vs, _, rfl, hv, r, rfl, hk⟩
    exact ⟨hr, h0, l, vs, r, rfl, hl, hk, hg, hf, hv⟩
  · rintro ⟨hr, h0, l, vs, r, rfl, hl, hk, hg, hf, hv⟩
    exact ⟨hg, ⟨h0, hf⟩, hr, l, _, rfl, hl, vs, _, rfl, hv, r, rfl, hk⟩

theorem derives_unary {op : Token} {e : Expr} :
    (unary op e).Derives room rank us ↔
      rank ≤ 5 ∧ 0 < room ∧ op.kind.isPrefix ∧ ∃ vs, us = op :: vs ∧ e.Derives (room - 1) 5 vs := by
  simp only [derives_iff, Grammatical, Fits, Expr.rank, tokens]
  constructor
  · rintro ⟨⟨hp, he, hg⟩, ⟨h0, hf⟩, hr, hs⟩
    rw [Token.map_kept_eq_cons (by simp [Token.isKept, hp])] at hs
    obtain ⟨vs, rfl, hv⟩ := hs
    exact ⟨hr, h0, hp, vs, rfl, hg, hf, he, hv⟩
  · rintro ⟨hr, h0, hp, vs, rfl, hg, hf, he, hv⟩
    refine ⟨⟨hp, he, hg⟩, ⟨h0, hf⟩, hr, ?_⟩
    exact (Token.map_kept_eq_cons (by simp [Token.isKept, hp])).mpr ⟨vs, rfl, hv⟩

/-- A fold of an operator, whose left operand may be a fold of the same level. -/
theorem derives_binary {level : Level} {l r : Expr} {op : Token} (h : op.kind.level? = some level) :
    (binary l op r).Derives room rank us ↔
      rank ≤ level.rank ∧ l.folds level < room ∧ ∃ vs ws, us = vs ++ op :: ws ∧
        l.Derives room level.rank vs ∧ r.Derives room (level.rank + 1) ws := by
  have hk : op.isKept := by simp [Token.isKept, h]
  have hr := Kind.rank_eq_iff.mpr h
  simp only [derives_iff, Grammatical, Fits, Expr.rank, tokens, hr, List.map_eq_append_iff,
    Token.map_kept_eq_cons hk]
  simp only [h, Option.isSome_some, Option.mem_some_iff, forall_eq', true_and]
  constructor
  · rintro ⟨⟨hl, hr, hgl, hgr⟩, ⟨hn, hfl, hfr⟩, hk, vs, _, rfl, hv, ws, rfl, hw⟩
    exact ⟨hk, hn, vs, ws, rfl, ⟨hgl, hfl, hl, hv⟩, hgr, hfr, hr, hw⟩
  · rintro ⟨hk, hn, vs, ws, rfl, ⟨hgl, hfl, hl, hv⟩, hgr, hfr, hr, hw⟩
    exact ⟨⟨hl, hr, hgl, hgr⟩, ⟨hn, hfl, hfr⟩, hk, vs, _, rfl, hv, ws, rfl, hw⟩

theorem derives_assign {name : Token} {e : Expr} :
    (assign name e).Derives room rank us ↔
      rank = 0 ∧ 0 < room ∧ name.kind.isName ∧ ∃ t vs, us = name :: t :: vs ∧
        t.kind = .mark .equal ∧ e.Derives (room - 1) 0 vs := by
  simp only [derives_iff, Grammatical, Fits, Expr.rank, tokens, Nat.le_zero, Nat.zero_le, true_and]
  constructor
  · rintro ⟨⟨hn, hg⟩, ⟨h0, hf⟩, hr, hs⟩
    rw [Token.map_kept_eq_cons (by simp [Token.isKept, hn])] at hs
    obtain ⟨ws, rfl, hw⟩ := hs
    obtain ⟨t, vs, rfl, ht, hv⟩ := (Token.map_kept_eq_plain_cons rfl).mp hw
    exact ⟨hr, h0, hn, t, vs, rfl, ht, hg, hf, hv⟩
  · rintro ⟨hr, h0, hn, t, vs, rfl, ht, hg, hf, hv⟩
    refine ⟨⟨hn, hg⟩, ⟨h0, hf⟩, hr, ?_⟩
    refine (Token.map_kept_eq_cons (by simp [Token.isKept, hn])).mpr ⟨_, rfl, ?_⟩
    exact (Token.map_kept_eq_plain_cons rfl).mpr ⟨t, vs, rfl, ht, hv⟩

end Expr

mutual

def Stmt.Grammatical : Stmt → Prop
  | .print e => e.Grammatical
  | .expression e => e.Grammatical
  | .declare name none => name.kind.isName
  | .declare name (some e) => name.kind.isName ∧ e.Grammatical
  | .block body => Stmt.AllGrammatical body

def Stmt.AllGrammatical : List Stmt → Prop
  | [] => True
  | s :: rest => s.Grammatical ∧ Stmt.AllGrammatical rest

end

mutual

instance Stmt.decidableGrammatical : (s : Stmt) → Decidable s.Grammatical
  | .print e => inferInstanceAs (Decidable e.Grammatical)
  | .expression e => inferInstanceAs (Decidable e.Grammatical)
  | .declare name none => inferInstanceAs (Decidable name.kind.isName)
  | .declare name (some e) => inferInstanceAs (Decidable (name.kind.isName ∧ e.Grammatical))
  | .block body => Stmt.decidableAllGrammatical body

instance Stmt.decidableAllGrammatical : (body : List Stmt) → Decidable (Stmt.AllGrammatical body)
  | [] => inferInstanceAs (Decidable True)
  | s :: rest =>
    have := Stmt.decidableGrammatical s
    have := Stmt.decidableAllGrammatical rest
    inferInstanceAs (Decidable (s.Grammatical ∧ Stmt.AllGrammatical rest))

end

mutual

/-- The tree keeps within so many levels of nesting. A block takes one for what it holds. -/
def Stmt.Fits : Stmt → Nat → Prop
  | .print e, room => e.Fits room
  | .expression e, room => e.Fits room
  | .declare _ none, _ => True
  | .declare _ (some e), room => e.Fits room
  | .block body, room => 0 < room ∧ Stmt.AllFit body (room - 1)

def Stmt.AllFit : List Stmt → Nat → Prop
  | [], _ => True
  | s :: rest, room => s.Fits room ∧ Stmt.AllFit rest room

end

mutual

instance Stmt.decidableFits : (s : Stmt) → (room : Nat) → Decidable (s.Fits room)
  | .print e, room => inferInstanceAs (Decidable (e.Fits room))
  | .expression e, room => inferInstanceAs (Decidable (e.Fits room))
  | .declare _ none, _ => inferInstanceAs (Decidable True)
  | .declare _ (some e), room => inferInstanceAs (Decidable (e.Fits room))
  | .block body, room =>
    have := Stmt.decidableAllFit body (room - 1)
    inferInstanceAs (Decidable (0 < room ∧ Stmt.AllFit body (room - 1)))

instance Stmt.decidableAllFit :
    (body : List Stmt) → (room : Nat) → Decidable (Stmt.AllFit body room)
  | [], _ => inferInstanceAs (Decidable True)
  | s :: rest, room =>
    have := Stmt.decidableFits s room
    have := Stmt.decidableAllFit rest room
    inferInstanceAs (Decidable (s.Fits room ∧ Stmt.AllFit rest room))

end

mutual

/-- The tokens that spell a statement. -/
def Stmt.tokens : Stmt → List Token
  | .print e => plain (.keyword .printWord) :: (e.tokens ++ [plain (.mark .semicolon)])
  | .expression e => e.tokens ++ [plain (.mark .semicolon)]
  | .declare name none => [plain (.keyword .varWord), name, plain (.mark .semicolon)]
  | .declare name (some e) =>
    plain (.keyword .varWord) :: name :: plain (.mark .equal) ::
      (e.tokens ++ [plain (.mark .semicolon)])
  | .block body =>
    plain (.mark .leftBrace) :: (Stmt.tokensAll body ++ [plain (.mark .rightBrace)])

/-- The tokens that spell statements one after another. -/
def Stmt.tokensAll : List Stmt → List Token
  | [] => []
  | s :: rest => s.tokens ++ Stmt.tokensAll rest

end

namespace Stmt

theorem allGrammatical_iff {body : List Stmt} :
    AllGrammatical body ↔ ∀ s ∈ body, s.Grammatical := by
  induction body with
  | nil => simp [AllGrammatical]
  | cons s rest ih => simp [AllGrammatical, ih]

theorem allFit_iff {body : List Stmt} {room : Nat} :
    AllFit body room ↔ ∀ s ∈ body, s.Fits room := by
  induction body with
  | nil => simp [AllFit]
  | cons s rest ih => simp [AllFit, ih]

theorem tokensAll_append (body rest : List Stmt) :
    tokensAll (body ++ rest) = tokensAll body ++ tokensAll rest := by
  induction body with
  | nil => simp [tokensAll]
  | cons s body ih => simp [tokensAll, ih]

/-- These tokens spell the statement, which is grammatical and keeps within so many levels. -/
structure Derives (room : Nat) (s : Stmt) (us : List Token) : Prop where
  grammatical : s.Grammatical
  fits : s.Fits room
  spelled : us.map Token.kept = s.tokens

/-- These tokens spell the statements, all grammatical and within so many levels. -/
structure DeriveAll (room : Nat) (body : List Stmt) (us : List Token) : Prop where
  grammatical : AllGrammatical body
  fits : AllFit body room
  spelled : us.map Token.kept = tokensAll body

variable {room : Nat} {us : List Token}

theorem deriveAll_iff {body : List Stmt} :
    DeriveAll room body us ↔ (∀ s ∈ body, s.Grammatical) ∧ (∀ s ∈ body, s.Fits room) ∧
      us.map Token.kept = tokensAll body := by
  rw [← allGrammatical_iff, ← allFit_iff]
  exact ⟨fun h => ⟨h.grammatical, h.fits, h.spelled⟩, fun ⟨hg, hf, hs⟩ => ⟨hg, hf, hs⟩⟩

theorem derives_iff {s : Stmt} :
    s.Derives room us ↔ s.Grammatical ∧ s.Fits room ∧ us.map Token.kept = s.tokens :=
  ⟨fun h => ⟨h.grammatical, h.fits, h.spelled⟩, fun ⟨hg, hf, hs⟩ => ⟨hg, hf, hs⟩⟩

theorem deriveAll_nil : DeriveAll room [] us ↔ us = [] := by
  constructor
  · intro h
    exact List.map_eq_nil_iff.mp h.spelled
  · rintro rfl
    exact ⟨trivial, trivial, rfl⟩

theorem deriveAll_cons {s : Stmt} {rest : List Stmt} :
    DeriveAll room (s :: rest) us ↔
      ∃ vs ws, us = vs ++ ws ∧ s.Derives room vs ∧ DeriveAll room rest ws := by
  constructor
  · rintro ⟨⟨hg, hgs⟩, ⟨hf, hfs⟩, hs⟩
    obtain ⟨vs, ws, rfl, hv, hw⟩ := List.map_eq_append_iff.mp hs
    exact ⟨vs, ws, rfl, ⟨hg, hf, hv⟩, hgs, hfs, hw⟩
  · rintro ⟨vs, ws, rfl, ⟨hg, hf, hv⟩, hgs, hfs, hw⟩
    exact ⟨⟨hg, hgs⟩, ⟨hf, hfs⟩, List.map_eq_append_iff.mpr ⟨vs, ws, rfl, hv, hw⟩⟩

/-- The tokens of an expression and then the semicolon that ends a statement. -/
theorem map_kept_eq_closed {e : Expr} :
    us.map Token.kept = e.tokens ++ [plain (.mark .semicolon)] ↔
      ∃ vs t, us = vs ++ [t] ∧ t.kind = .mark .semicolon ∧ vs.map Token.kept = e.tokens := by
  simp only [List.map_eq_append_iff, List.map_eq_singleton_iff,
    Token.kept_eq_plain (k := .mark .semicolon) rfl]
  constructor
  · rintro ⟨vs, _, rfl, hv, t, rfl, ht⟩
    exact ⟨vs, t, rfl, ht, hv⟩
  · rintro ⟨vs, t, rfl, ht, hv⟩
    exact ⟨vs, [t], rfl, hv, t, rfl, ht⟩

theorem derives_expression {e : Expr} :
    (expression e).Derives room us ↔
      ∃ vs t, us = vs ++ [t] ∧ t.kind = .mark .semicolon ∧ e.Derives room 0 vs := by
  simp only [derives_iff, Grammatical, Fits, tokens, map_kept_eq_closed, Expr.derives_iff,
    Nat.zero_le, true_and]
  constructor
  · rintro ⟨hg, hf, vs, t, rfl, ht, hv⟩
    exact ⟨vs, t, rfl, ht, hg, hf, hv⟩
  · rintro ⟨vs, t, rfl, ht, hg, hf, hv⟩
    exact ⟨hg, hf, vs, t, rfl, ht, hv⟩

theorem derives_print {e : Expr} :
    (print e).Derives room us ↔
      ∃ p vs, us = p :: vs ∧ p.kind = .keyword .printWord ∧ (expression e).Derives room vs := by
  simp only [derives_iff, Grammatical, Fits, tokens,
    Token.map_kept_eq_plain_cons (k := .keyword .printWord) rfl]
  constructor
  · rintro ⟨hg, hf, p, vs, rfl, hp, hv⟩
    exact ⟨p, vs, rfl, hp, hg, hf, hv⟩
  · rintro ⟨p, vs, rfl, hp, hg, hf, hv⟩
    exact ⟨hg, hf, p, vs, rfl, hp, hv⟩

theorem derives_declare_none {name : Token} :
    (declare name none).Derives room us ↔
      name.kind.isName ∧ ∃ v t, us = [v, name, t] ∧ v.kind = .keyword .varWord ∧
        t.kind = .mark .semicolon := by
  simp only [derives_iff, Grammatical, Fits, tokens, true_and,
    Token.map_kept_eq_plain_cons (k := .keyword .varWord) rfl]
  constructor
  · rintro ⟨hn, v, ws, rfl, hv, hw⟩
    obtain ⟨xs, rfl, hx⟩ := (Token.map_kept_eq_cons (by simp [Token.isKept, hn])).mp hw
    obtain ⟨t, ys, rfl, ht, hy⟩ := (Token.map_kept_eq_plain_cons rfl).mp hx
    rw [List.map_eq_nil_iff.mp hy]
    exact ⟨hn, v, t, rfl, hv, ht⟩
  · rintro ⟨hn, v, t, rfl, hv, ht⟩
    refine ⟨hn, v, _, rfl, hv, ?_⟩
    refine (Token.map_kept_eq_cons (by simp [Token.isKept, hn])).mpr ⟨_, rfl, ?_⟩
    exact (Token.map_kept_eq_plain_cons rfl).mpr ⟨t, [], rfl, ht, rfl⟩

theorem derives_declare_some {name : Token} {e : Expr} :
    (declare name (some e)).Derives room us ↔
      name.kind.isName ∧ ∃ v q vs, us = v :: name :: q :: vs ∧ v.kind = .keyword .varWord ∧
        q.kind = .mark .equal ∧ (expression e).Derives room vs := by
  simp only [derives_iff, Grammatical, Fits, tokens,
    Token.map_kept_eq_plain_cons (k := .keyword .varWord) rfl]
  constructor
  · rintro ⟨⟨hn, hg⟩, hf, v, ws, rfl, hv, hw⟩
    obtain ⟨xs, rfl, hx⟩ := (Token.map_kept_eq_cons (by simp [Token.isKept, hn])).mp hw
    obtain ⟨q, vs, rfl, hq, hy⟩ := (Token.map_kept_eq_plain_cons rfl).mp hx
    exact ⟨hn, v, q, vs, rfl, hv, hq, hg, hf, hy⟩
  · rintro ⟨hn, v, q, vs, rfl, hv, hq, hg, hf, hw⟩
    refine ⟨⟨hn, hg⟩, hf, v, _, rfl, hv, ?_⟩
    refine (Token.map_kept_eq_cons (by simp [Token.isKept, hn])).mpr ⟨_, rfl, ?_⟩
    exact (Token.map_kept_eq_plain_cons rfl).mpr ⟨q, vs, rfl, hq, hw⟩

theorem derives_block {body : List Stmt} :
    (block body).Derives room us ↔
      0 < room ∧ ∃ l vs r, us = l :: (vs ++ [r]) ∧ l.kind = .mark .leftBrace ∧
        r.kind = .mark .rightBrace ∧ DeriveAll (room - 1) body vs := by
  simp only [derives_iff, Grammatical, Fits, tokens, List.map_eq_append_iff,
    Token.map_kept_eq_plain_cons (k := .mark .leftBrace) rfl, List.map_eq_singleton_iff,
    Token.kept_eq_plain (k := .mark .rightBrace) rfl]
  constructor
  · rintro ⟨hg, ⟨h0, hf⟩, l, _, rfl, hl, vs, _, rfl, hv, r, rfl, hr⟩
    exact ⟨h0, l, vs, r, rfl, hl, hr, hg, hf, hv⟩
  · rintro ⟨h0, l, vs, r, rfl, hl, hr, hg, hf, hv⟩
    exact ⟨hg, ⟨h0, hf⟩, l, _, rfl, hl, vs, _, rfl, hv, r, rfl, hr⟩

end Stmt

end SmallScript
