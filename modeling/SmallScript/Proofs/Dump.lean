import SmallScript.Proofs.Numeral
import SmallScript.Proofs.Relocation
import SmallScript.Syntax.Node

/-!
The prefix form of a tree without strings can be read back. Its text falls into words and parentheses
in one way only, a word is a name or a literal but not both, and the word behind an opening
parenthesis, with the number of phrases behind it, tells what the tree there is.
-/
namespace SmallScript

/-- A word, or a word in parentheses with phrases behind it. -/
inductive Phrase where
  | word (w : List Char)
  | group (head : List Char) (args : List Phrase)

/-- The characters that end a word. -/
def endsWord (c : Char) : Bool := c == ' ' || c == '(' || c == ')'

/-- A word, which is not empty and which none of its characters ends. -/
def IsPlainWord (w : List Char) : Prop := w ≠ [] ∧ ∀ c ∈ w, ¬ endsWord c

namespace Phrase

mutual

def text : Phrase → List Char
  | word w => w
  | group head args => '(' :: (head ++ (textAll args ++ [')']))

/-- Phrases one after another, each behind a space. -/
def textAll : List Phrase → List Char
  | [] => []
  | p :: ps => ' ' :: (p.text ++ textAll ps)

end

mutual

/-- All words in it are plain. -/
def Plain : Phrase → Prop
  | word w => IsPlainWord w
  | group head args => IsPlainWord head ∧ AllPlain args

def AllPlain : List Phrase → Prop
  | [] => True
  | p :: ps => p.Plain ∧ AllPlain ps

end

end Phrase

/-- A plain word in front of a text that ends it can be told from any other. -/
theorem IsPlainWord.append_inj {v w r s : List Char} (hv : IsPlainWord v) (hw : IsPlainWord w)
    (hr : ∀ c ∈ r.head?, endsWord c) (hs : ∀ c ∈ s.head?, endsWord c) (h : v ++ r = w ++ s) :
    v = w ∧ r = s := by
  have hspan {w r : List Char} (hw : IsPlainWord w) (hr : ∀ c ∈ r.head?, endsWord c) :
      (w ++ r).takeWhile (fun c => !endsWord c) = w ∧ (w ++ r).dropWhile (fun c => !endsWord c) = r :=
    span_append _ r (fun c hc => by simpa using hw.2 c hc) fun c hc => by simpa using hr c hc
  obtain ⟨hv₁, hv₂⟩ := hspan hv hr
  obtain ⟨hw₁, hw₂⟩ := hspan hw hs
  rw [h] at hv₁ hv₂
  exact ⟨hv₁.symm.trans hw₁, hv₂.symm.trans hw₂⟩

theorem IsPlainWord.append_ne {w : List Char} (hw : IsPlainWord w) (r s : List Char) :
    w ++ r ≠ '(' :: s := by
  obtain ⟨c, v, rfl⟩ := List.exists_cons_of_ne_nil hw.1
  intro h
  have hc : c = '(' := (List.cons.inj h).1
  exact hw.2 c List.mem_cons_self (by simp [hc, endsWord])

namespace Phrase

theorem head?_closed (ps : List Phrase) (r : List Char) :
    ∀ c ∈ (textAll ps ++ ')' :: r).head?, endsWord c := by
  cases ps with
  | nil => simp [textAll, endsWord]
  | cons p ps => simp [textAll, endsWord]

mutual

/-- A phrase in front of a text that ends words can be told from any other. -/
theorem text_append_inj : (p : Phrase) → p.Plain → ∀ q : Phrase, q.Plain → ∀ r s : List Char,
    (∀ c ∈ r.head?, endsWord c) → (∀ c ∈ s.head?, endsWord c) →
      p.text ++ r = q.text ++ s → p = q ∧ r = s
  | word v, hv, word w, hw, r, s, hr, hs, h => by
    obtain ⟨rfl, rfl⟩ := hv.append_inj hw hr hs h
    exact ⟨rfl, rfl⟩
  | word v, hv, group head args, _, r, s, _, _, h => absurd h (hv.append_ne _ _)
  | group head args, _, word w, hw, r, s, _, _, h => absurd h.symm (hw.append_ne _ _)
  | group head args, hp, group head' args', hq, r, s, _, _, h => by
    simp only [text, List.cons_append, List.append_assoc, List.cons.injEq, true_and] at h
    obtain ⟨rfl, hargs⟩ := hp.1.append_inj hq.1 (head?_closed args r) (head?_closed args' s) h
    obtain ⟨rfl, rfl⟩ := textAll_append_inj args hp.2 args' hq.2 r s hargs
    exact ⟨rfl, rfl⟩

theorem textAll_append_inj : (ps : List Phrase) → AllPlain ps → ∀ qs : List Phrase, AllPlain qs →
    ∀ r s : List Char, textAll ps ++ ')' :: r = textAll qs ++ ')' :: s → ps = qs ∧ r = s
  | [], _, [], _, r, s, h => ⟨rfl, (List.cons.inj h).2⟩
  | [], _, q :: qs, _, r, s, h => by
    cases (List.cons.inj h).1
  | p :: ps, _, [], _, r, s, h => by
    cases (List.cons.inj h).1
  | p :: ps, hp, q :: qs, hq, r, s, h => by
    simp only [textAll, List.cons_append, List.append_assoc, List.cons.injEq, true_and] at h
    obtain ⟨rfl, hrest⟩ := text_append_inj p hp.1 q hq.1 _ _ (head?_closed ps r) (head?_closed qs s) h
    obtain ⟨rfl, rfl⟩ := textAll_append_inj ps hp.2 qs hq.2 r s hrest
    exact ⟨rfl, rfl⟩

end

/-- Plain phrases of the same text are the same. -/
theorem text_inj {p q : Phrase} (hp : p.Plain) (hq : q.Plain) (h : p.text = q.text) : p = q := by
  refine (text_append_inj p hp q hq [] [] (by simp) (by simp) ?_).1
  rw [h]

end Phrase

namespace Expr

def phrase : Expr → Phrase
  | literal v => .word v.text.toList
  | grouping e => .group "group".toList [e.phrase]
  | unary op e => .group op.lexeme.toList [e.phrase]
  | binary l op r => .group op.lexeme.toList [l.phrase, r.phrase]
  | var name => .word name.lexeme.toList
  | assign name e => .group "assign".toList [.word name.lexeme.toList, e.phrase]

theorem toList_dump (e : Expr) : e.dump.toList = e.phrase.text := by
  induction e with
  | literal | var => rfl
  | grouping e ih => simp [dump, phrase, Phrase.text, Phrase.textAll, ih]
  | unary op e ih => simp [dump, phrase, Phrase.text, Phrase.textAll, ih]
  | binary l op r ihl ihr => simp [dump, phrase, Phrase.text, Phrase.textAll, ihl, ihr]
  | assign name e ih => simp [dump, phrase, Phrase.text, Phrase.textAll, ih]

end Expr

mutual

def Stmt.phrase : Stmt → Phrase
  | .print e => .group "print".toList [e.phrase]
  | .expression e => .group "expr".toList [e.phrase]
  | .declare name (some e) => .group "var".toList [.word name.lexeme.toList, e.phrase]
  | .declare name none => .group "var".toList [.word name.lexeme.toList]
  | .block body => .group "block".toList (Stmt.phraseAll body)

def Stmt.phraseAll : List Stmt → List Phrase
  | [] => []
  | s :: rest => s.phrase :: Stmt.phraseAll rest

end

mutual

theorem Stmt.toList_dump : (s : Stmt) → s.dump.toList = s.phrase.text
  | .print e => by simp [Stmt.dump, Stmt.phrase, Phrase.text, Phrase.textAll, Expr.toList_dump]
  | .expression e => by simp [Stmt.dump, Stmt.phrase, Phrase.text, Phrase.textAll, Expr.toList_dump]
  | .declare name (some e) => by
    simp [Stmt.dump, Stmt.phrase, Phrase.text, Phrase.textAll, Expr.toList_dump]
  | .declare name none => by simp [Stmt.dump, Stmt.phrase, Phrase.text, Phrase.textAll]
  | .block body => by simp [Stmt.dump, Stmt.phrase, Phrase.text, Stmt.toList_dumpAll body]

theorem Stmt.toList_dumpAll :
    (body : List Stmt) → (Stmt.dumpAll body).toList = Phrase.textAll (Stmt.phraseAll body)
  | [] => by simp [Stmt.dumpAll, Stmt.phraseAll, Phrase.textAll]
  | s :: rest => by
    simp [Stmt.dumpAll, Stmt.phraseAll, Phrase.textAll, Stmt.toList_dump s,
      Stmt.toList_dumpAll rest]

end

/-- A value other than a string, an infinity and a NaN. -/
def Value.Plain : Value → Prop
  | .number x => x.isFinite
  | .string _ => False
  | _ => True

namespace Token

/-- A name with its own text, which is a word and not a reserved one. -/
structure IsName (t : Token) : Prop where
  kind : t.kind = .identifier t.lexeme
  word : IsWord t.lexeme.toList
  free : ∀ k : Keyword, k.text ≠ t.lexeme

/-- A mark with its own text. -/
def IsMark (t : Token) : Prop := ∃ m, t.kind = .mark m ∧ t.lexeme = m.text

end Token

/-- A node whose literal is no string and whose token has its own text. -/
def Node.Plain : Node → Prop
  | .literal v => v.Plain
  | .unary op => op.kind.isPrefix ∧ op.IsMark
  | .binary op => op.kind.level?.isSome ∧ op.IsMark
  | .var name | .assign name | .declare name _ => name.IsName
  | .grouping | .print | .expression | .block _ => True

theorem Token.IsName.spells {t : Token} (h : t.IsName) : Spells t.kind t.lexeme.toList := by
  have hs := Spells.name h.word fun k hk => h.free k (String.toList_inj.mp hk)
  rwa [String.ofList_toList, ← h.kind] at hs

theorem Token.IsMark.spells {t : Token} (h : t.IsMark) : Spells t.kind t.lexeme.toList := by
  obtain ⟨m, hk, hl⟩ := h
  rw [hk, hl]
  exact .mark m

namespace Phrase

/-- The expression that a word stands for. A number may have a minus sign before it. -/
def word? (w : List Char) : Option Expr :=
  match pieces w with
  | [.lexeme k w] =>
    match k.constant? with
    | some v => some (.literal v)
    | none => some (.var ⟨k, String.ofList w, 0⟩)
  | [.lexeme (.mark .minus) _, .lexeme (.number x) _] => some (.literal (.number (-x)))
  | _ => none

/-- The operator that a word is. -/
def operator? (w : List Char) : Option Token :=
  match pieces w with
  | [.lexeme k w] => some ⟨k, String.ofList w, 0⟩
  | _ => none

/-- Read an expression back, with its tokens on line zero. -/
def expr? : Phrase → Option Expr
  | word w => word? w
  | group head [p] =>
    p.expr?.bind fun e =>
      if head = "group".toList then some (.grouping e)
      else (operator? head).map fun op => .unary op e
  | group head [p, q] =>
    p.expr?.bind fun l => q.expr?.bind fun r =>
      if head = "assign".toList then
        match l with
        | .var name => some (.assign name r)
        | _ => none
      else (operator? head).map fun op => .binary l op r
  | group _ _ => none

/-- Read a statement back that holds no others. -/
def simple? (head : List Char) : List Phrase → Option Stmt
  | [p] =>
    p.expr?.bind fun e =>
      if head = "print".toList then some (.print e)
      else if head = "expr".toList then some (.expression e)
      else
        match e with
        | .var name => some (.declare name none)
        | _ => none
  | [p, q] =>
    p.expr?.bind fun l => q.expr?.bind fun r =>
      match l with
      | .var name => some (.declare name (some r))
      | _ => none
  | _ => none

mutual

/-- Read a statement back, with its tokens on line zero. -/
def stmt? : Phrase → Option Stmt
  | word _ => none
  | group head args =>
    if head = "block".toList then (stmtAll? args).map .block else simple? head args

def stmtAll? : List Phrase → Option (List Stmt)
  | [] => some []
  | p :: ps => p.stmt?.bind fun s => (stmtAll? ps).map fun rest => s :: rest

end

theorem word?_of_spells {k : Kind} {w : List Char} (h : Spells k w) :
    word? w = some (k.constant?.elim (.var ⟨k, String.ofList w, 0⟩) .literal) := by
  rw [word?, h.pieces_eq]
  dsimp only
  cases k.constant? <;> rfl

theorem operator?_of_spells {k : Kind} {w : List Char} (h : Spells k w) :
    operator? w = some ⟨k, String.ofList w, 0⟩ := by
  rw [operator?, h.pieces_eq]

end Phrase

theorem endsWord_cases {c : Char} (h : endsWord c) : c = ' ' ∨ c = '(' ∨ c = ')' := by
  simpa [endsWord, or_assoc] using h

theorem IsWord.isPlainWord {w : List Char} (h : IsWord w) : IsPlainWord w := by
  obtain ⟨⟨c, hc, _⟩, hw⟩ := h
  refine ⟨?_, fun c hc he => ?_⟩
  · rintro rfl
    cases hc
  · have hn := hw c hc
    obtain rfl | rfl | rfl := endsWord_cases he
    all_goals revert hn; decide

theorem IsDigits.isPlainWord {w : List Char} (h : IsDigits w) : IsPlainWord w := by
  refine ⟨h.1, fun c hc he => ?_⟩
  have hd := h.2 c hc
  obtain rfl | rfl | rfl := endsWord_cases he
  all_goals cases hd

theorem IsPlainWord.append {v w : List Char} (hv : IsPlainWord v) (hw : IsPlainWord w) :
    IsPlainWord (v ++ w) :=
  ⟨List.append_ne_nil_of_left_ne_nil hv.1 w, List.forall_mem_append.mpr ⟨hv.2, hw.2⟩⟩

theorem IsPlainWord.cons {c : Char} {w : List Char} (hc : ¬ endsWord c) (hw : IsPlainWord w) :
    IsPlainWord (c :: w) :=
  ⟨List.cons_ne_nil c w, List.forall_mem_cons.mpr ⟨hc, hw.2⟩⟩

/-- A lexeme that is neither a string nor a parenthesis is a plain word. -/
theorem Spells.isPlainWord {k : Kind} {w : List Char} (h : Spells k w) (hs : ∀ t, k ≠ .string t)
    (hl : k ≠ .mark .leftParen) (hr : k ≠ .mark .rightParen) : IsPlainWord w := by
  cases h with
  | mark m =>
    cases m
    case leftParen => exact absurd rfl hl
    case rightParen => exact absurd rfl hr
    all_goals simp [IsPlainWord, Mark.text, endsWord]
  | keyword k => exact k.isWord_text.isPlainWord
  | name h hk => exact h.isPlainWord
  | string h => exact absurd rfl (hs _)
  | whole h => exact h.isPlainWord
  | fraction hw hf => exact hw.isPlainWord.append (.cons (by decide) hf.isPlainWord)

/-- A phrase that is plain and is read back as this expression. -/
structure Phrase.Reads (p : Phrase) (e : Expr) : Prop where
  plain : p.Plain
  read : p.expr? = some e

/-- A word that the scanner takes for a literal is read as its value. -/
theorem Spells.reads_literal {k : Kind} {w : List Char} (h : Spells k w) {v : Value}
    (hv : k.constant? = some v) (hp : v.Plain) : (Phrase.word w).Reads (.literal v) := by
  refine ⟨h.isPlainWord ?_ ?_ ?_, ?_⟩
  · rintro t rfl
    cases hv
    exact hp
  · rintro rfl
    cases hv
  · rintro rfl
    cases hv
  · rw [Phrase.expr?, Phrase.word?_of_spells h, hv]
    rfl

theorem Token.IsName.reads {t : Token} (h : t.IsName) :
    (Phrase.word t.lexeme.toList).Reads (.var (t.relocate fun _ => 0)) := by
  refine ⟨h.word.isPlainWord, ?_⟩
  rw [Phrase.expr?, Phrase.word?_of_spells h.spells, String.ofList_toList, Token.relocate, h.kind]
  rfl

theorem reads_number {x : Float} (hx : x.isFinite) :
    (Phrase.word (numberText x)).Reads (.literal (.number x)) := by
  obtain ⟨d, ⟨ht, hv⟩ | ⟨ht, hv⟩⟩ := numberText_cases hx
  · rw [ht]
    exact d.spells_digits.reads_literal (by rw [hv]; rfl) hx
  · -- the minus sign is a piece of its own
    have hplain : IsPlainWord d.digits := d.spells_digits.isPlainWord (by simp) (by simp) (by simp)
    have htiles := (tiles_pieces d.digits).minus
    rw [d.spells_digits.pieces_eq] at htiles
    rw [ht]
    refine ⟨.cons (by decide) hplain, ?_⟩
    rw [Phrase.expr?, Phrase.word?, ← htiles.eq_pieces, hv]

/-- What a value is written as is read as that value. -/
theorem Value.Plain.reads {v : Value} (h : v.Plain) :
    (Phrase.word v.text.toList).Reads (.literal v) := by
  cases v with
  | boolean b =>
    cases b
    · exact (Spells.keyword .falseWord).reads_literal rfl h
    · exact (Spells.keyword .trueWord).reads_literal rfl h
  | nil => exact (Spells.keyword .nilWord).reads_literal rfl h
  | number x =>
    rw [Value.text, String.toList_ofList]
    exact reads_number h
  | string s => exact h.elim

/-- An operator is a plain word that is read back as itself, and no other word stands in its place. -/
theorem Token.IsMark.reads {op : Token} (h : op.IsMark)
    (hk : op.kind.isPrefix ∨ op.kind.level?.isSome) :
    IsPlainWord op.lexeme.toList ∧
      Phrase.operator? op.lexeme.toList = some (op.relocate fun _ => 0) ∧
      op.lexeme.toList ≠ "group".toList ∧ op.lexeme.toList ≠ "assign".toList := by
  have hs := h.spells
  have hne {k : Kind} (hp : k.isPrefix = false) (hl : k.level? = none) : op.kind ≠ k := by
    rintro rfl
    simp [hp, hl] at hk
  refine ⟨hs.isPlainWord (fun _ => hne rfl rfl) (hne rfl rfl) (hne rfl rfl), ?_, ?_⟩
  · rw [Phrase.operator?_of_spells hs, String.ofList_toList]
    rfl
  · obtain ⟨m, -, hl⟩ := h
    have hm : m.text ≠ "group" ∧ m.text ≠ "assign" := by cases m <;> decide
    rw [hl]
    exact hm.imp (mt String.toList_inj.mp) (mt String.toList_inj.mp)

/-- The words behind an opening parenthesis that are no operators. -/
theorem isPlainWord_heads :
    ∀ head ∈ ["group", "assign", "print", "expr", "var", "block"], IsPlainWord head.toList := by
  simp [IsPlainWord, endsWord]

/-- The phrase of an expression is read back as this expression. -/
theorem Expr.reads_phrase {e : Expr} (h : ∀ n ∈ e.postorder, n.Plain) :
    e.phrase.Reads (e.relocate fun _ => 0) := by
  induction e with
  | literal v =>
    have hv : v.Plain := h _ (List.mem_singleton_self _)
    exact hv.reads
  | var name =>
    have hname : name.IsName := h _ (List.mem_singleton_self _)
    exact hname.reads
  | grouping e ih =>
    rw [postorder, List.forall_mem_append] at h
    obtain ⟨hp, hr⟩ := ih h.1
    refine ⟨⟨isPlainWord_heads _ (by simp), hp, trivial⟩, ?_⟩
    rw [phrase, Phrase.expr?, hr]
    rfl
  | unary op e ih =>
    rw [postorder, List.forall_mem_append, List.forall_mem_singleton] at h
    obtain ⟨he, hprefix, hop⟩ := h
    obtain ⟨hp, hr⟩ := ih he
    obtain ⟨hplain, hread, hgroup, -⟩ := hop.reads (.inl hprefix)
    refine ⟨⟨hplain, hp, trivial⟩, ?_⟩
    rw [phrase, Phrase.expr?, hr, Option.bind_some, if_neg hgroup, hread]
    rfl
  | binary l op r ihl ihr =>
    rw [postorder, List.forall_mem_append, List.forall_mem_append, List.forall_mem_singleton] at h
    obtain ⟨⟨hl, hr⟩, hlevel, hop⟩ := h
    obtain ⟨hpl, hrl⟩ := ihl hl
    obtain ⟨hpr, hrr⟩ := ihr hr
    obtain ⟨hplain, hread, -, hassign⟩ := hop.reads (.inr hlevel)
    refine ⟨⟨hplain, hpl, hpr, trivial⟩, ?_⟩
    rw [phrase, Phrase.expr?, hrl, hrr, Option.bind_some, Option.bind_some, if_neg hassign, hread]
    rfl
  | assign name e ih =>
    rw [postorder, List.forall_mem_append, List.forall_mem_singleton] at h
    obtain ⟨he, hname⟩ := h
    obtain ⟨hp, hr⟩ := ih he
    obtain ⟨hpn, hrn⟩ := Token.IsName.reads hname
    refine ⟨⟨isPlainWord_heads _ (by simp), hpn, hp, trivial⟩, ?_⟩
    rw [phrase, Phrase.expr?, hrn, hr]
    rfl

mutual

/-- The phrase of a statement is plain and is read back as this statement. -/
theorem Stmt.reads_phrase : (s : Stmt) → (∀ n ∈ s.postorder, n.Plain) →
    s.phrase.Plain ∧ s.phrase.stmt? = some (s.relocate fun _ => 0)
  | .print e, h => by
    rw [Stmt.postorder, List.forall_mem_append] at h
    obtain ⟨hp, hr⟩ := Expr.reads_phrase h.1
    refine ⟨⟨isPlainWord_heads _ (by simp), hp, trivial⟩, ?_⟩
    rw [Stmt.phrase, Phrase.stmt?, if_neg (by decide), Phrase.simple?, hr]
    rfl
  | .expression e, h => by
    rw [Stmt.postorder, List.forall_mem_append] at h
    obtain ⟨hp, hr⟩ := Expr.reads_phrase h.1
    refine ⟨⟨isPlainWord_heads _ (by simp), hp, trivial⟩, ?_⟩
    rw [Stmt.phrase, Phrase.stmt?, if_neg (by decide), Phrase.simple?, hr]
    rfl
  | .declare name none, h => by
    have hname : name.IsName := h _ (List.mem_singleton_self _)
    obtain ⟨hp, hr⟩ := hname.reads
    refine ⟨⟨isPlainWord_heads _ (by simp), hp, trivial⟩, ?_⟩
    rw [Stmt.phrase, Phrase.stmt?, if_neg (by decide), Phrase.simple?, hr]
    rfl
  | .declare name (some e), h => by
    rw [Stmt.postorder, List.forall_mem_append, List.forall_mem_singleton] at h
    obtain ⟨he, hname⟩ := h
    obtain ⟨hpn, hrn⟩ := Token.IsName.reads hname
    obtain ⟨hp, hr⟩ := Expr.reads_phrase he
    refine ⟨⟨isPlainWord_heads _ (by simp), hpn, hp, trivial⟩, ?_⟩
    rw [Stmt.phrase, Phrase.stmt?, if_neg (by decide), Phrase.simple?, hrn, hr]
    rfl
  | .block body, h => by
    rw [Stmt.postorder, List.forall_mem_append] at h
    obtain ⟨hp, hr⟩ := Stmt.reads_phraseAll body h.1
    refine ⟨⟨isPlainWord_heads _ (by simp), hp⟩, ?_⟩
    rw [Stmt.phrase, Phrase.stmt?, if_pos rfl, hr]
    rfl

theorem Stmt.reads_phraseAll : (body : List Stmt) → (∀ n ∈ Stmt.postorderAll body, n.Plain) →
    Phrase.AllPlain (Stmt.phraseAll body) ∧
      Phrase.stmtAll? (Stmt.phraseAll body) = some (Stmt.relocateAll (fun _ => 0) body)
  | [], _ => ⟨trivial, rfl⟩
  | s :: rest, h => by
    rw [Stmt.postorderAll, List.forall_mem_append] at h
    obtain ⟨hp, hr⟩ := Stmt.reads_phrase s h.1
    obtain ⟨hps, hrs⟩ := Stmt.reads_phraseAll rest h.2
    refine ⟨⟨hp, hps⟩, ?_⟩
    rw [Stmt.phraseAll, Phrase.stmtAll?, hr, hrs]
    rfl

end

/-- The prefix form tells statements apart that have no strings in them, if each name and each
operator has its own text. Statements of the same form differ in nothing but the lines of their
tokens, and their numbers are the same bit for bit. -/
theorem dump_determines_statement (a b : Stmt) (ha : ∀ n ∈ a.postorder, n.Plain)
    (hb : ∀ n ∈ b.postorder, n.Plain) (h : a.dump = b.dump) :
    a.relocate (fun _ => 0) = b.relocate fun _ => 0 := by
  obtain ⟨hpa, hra⟩ := Stmt.reads_phrase a ha
  obtain ⟨hpb, hrb⟩ := Stmt.reads_phrase b hb
  have ht : a.phrase.text = b.phrase.text := by
    rw [← Stmt.toList_dump, ← Stmt.toList_dump, h]
  have hs := congrArg Phrase.stmt? (Phrase.text_inj hpa hpb ht)
  rw [hra, hrb] at hs
  exact Option.some.inj hs

/-- A string is not told from a name. -/
example : (Stmt.print (.literal (.string "a"))).dump =
    (Stmt.print (.var ⟨.identifier "a", "a", 1⟩)).dump := rfl

/-- Names that are words of the form itself, and tokens on lines of their own. -/
theorem dump_determines_statement_named_group :
    ∃ a b : Stmt, (∀ n ∈ a.postorder, n.Plain) ∧ (∀ n ∈ b.postorder, n.Plain) ∧
      a.dump = "(block (var assign (- group)))" ∧ a.dump = b.dump ∧
      a.relocate (fun _ => 0) = b.relocate fun _ => 0 := by
  have hfree : ∀ k : Keyword, k.text ≠ "assign" ∧ k.text ≠ "group" := by
    intro k
    cases k <;> decide
  have hassign (line : Nat) : (Token.mk (.identifier "assign") "assign" line).IsName :=
    ⟨rfl, by simp [IsWord], fun k => (hfree k).1⟩
  have hgroup (line : Nat) : (Token.mk (.identifier "group") "group" line).IsName :=
    ⟨rfl, by simp [IsWord], fun k => (hfree k).2⟩
  have hminus (line : Nat) : (Token.mk (.mark .minus) "-" line).IsMark := ⟨.minus, rfl, rfl⟩
  have hplain (line : Nat) : ∀ n ∈ (Stmt.block [.declare ⟨.identifier "assign", "assign", line⟩
      (some (.unary ⟨.mark .minus, "-", line⟩ (.var ⟨.identifier "group", "group", 3⟩)))]).postorder,
      n.Plain := by
    simp [Stmt.postorder, Stmt.postorderAll, Expr.postorder, Node.Plain, hassign, hgroup, hminus,
      Kind.isPrefix]
  exact ⟨_, _, hplain 1, hplain 2, by decide +kernel, rfl,
    dump_determines_statement _ _ (hplain 1) (hplain 2) rfl⟩

end SmallScript
