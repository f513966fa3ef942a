import SmallScript.Proofs.Numeral.Fields
import SmallScript.Proofs.Source.Tiling

/-!
Numerals. The numeral that a finite number is written with denotes the magnitude of that number, bit
for bit, and its digits are a lexeme for what it denotes; the sign is written before it.
-/
namespace SmallScript

open Float.Model.UnpackedFloat

namespace Binary64

/-- A finite magnitude is rounded to itself. -/
theorem nearestUnits_units {bits : Nat} (hb : bits < infinityBits) {d : Nat} (hd : 0 < d) :
    nearestUnits (units bits * d) d = bits := by
  have h := nearest_nearestUnits (units bits * d) hd
  rw [Nat.cast_mul, mul_div_cancel_right₀ _ (Nat.cast_ne_zero.mpr (Nat.ne_of_gt hd))] at h
  exact h.unique (nearest_units hb.le)

/-- The same over a power of ten. -/
theorem nearestUnits_grid {bits : Nat} (hb : bits < infinityBits) (k : Nat) :
    nearestUnits (units bits * Nat.pow 5 k * Nat.pow 2 k) (Nat.pow 10 k) = bits := by
  have hten : Nat.pow 5 k * Nat.pow 2 k = Nat.pow 10 k := (Nat.mul_pow 5 2 k).symm
  rw [Nat.mul_assoc, hten]
  exact nearestUnits_units hb (Nat.pow_pos (by decide))

/-- The exact value of a finite magnitude denotes it. -/
theorem nearest_exact {bits : Nat} (hb : bits < infinityBits) :
    nearest (onGrid (units bits * Nat.pow 5 1074) 0) = bits := by
  have hone : Nat.pow 10 0 = 1 := rfl
  simp only [onGrid, Nat.zero_le, if_true, hone, Nat.div_one, nearest, Nat.sub_zero]
  -- no power of so many digits need be computed
  generalize 1074 = k
  exact nearestUnits_grid hb k

theorem nearest_of_neighbour? {bits n place : Nat} {d : Decimal}
    (h : neighbour? bits n place = some d) : nearest d = bits := by
  simp only [neighbour?] at h
  split at h
  · next hb =>
    cases h
    exact hb.1
  · split at h
    · next ha =>
      cases h
      exact ha
    · cases h

/-- The search hits a numeral on some grid, at the latest the exact value. -/
theorem nearest_search {bits n : Nat} (h : nearest (onGrid n 0) = bits) (place : Nat) :
    nearest (search bits n place) = bits := by
  induction place with
  | zero => exact h
  | succ place ih =>
    rw [search]
    cases hn : neighbour? bits n (place + 1) with
    | none => exact ih
    | some d => exact nearest_of_neighbour? hn

/-- A finite magnitude is written with a numeral that denotes it. -/
theorem nearest_shortest {bits : Nat} (hb : bits < infinityBits) : nearest (shortest bits) = bits := by
  rw [shortest]
  split
  · next h0 =>
    simp only [h0, nearest, Nat.zero_mul]
    decide
  · exact nearest_search (nearest_exact hb) _

end Binary64

namespace Decimal

/-- Digits of a number with zeros in front stand for that number. -/
theorem ofDigitChars_padded (init n k : Nat) :
    Nat.ofDigitChars 10 (List.replicate k '0' ++ Nat.toDigits 10 n) init =
      10 ^ (k + (Nat.toDigits 10 n).length) * init + n := by
  rw [Nat.ofDigitChars_append, Nat.ofDigitChars_replicate_zero, Nat.ofDigitChars_eq_ofDigitChars_zero,
    Nat.ofDigitChars_ten_toDigits, Nat.pow_add, ← Nat.mul_assoc, Nat.mul_comm (10 ^ k)]

theorem isDigits_toDigits (n : Nat) : IsDigits (Nat.toDigits 10 n) :=
  ⟨Nat.toDigits_ne_nil, fun _ hc => Nat.isDigit_of_mem_toDigits (by decide) (by decide) hc⟩

theorem isDigits_padded (k n : Nat) : IsDigits (List.replicate k '0' ++ Nat.toDigits 10 n) := by
  obtain ⟨hne, hd⟩ := isDigits_toDigits n
  refine ⟨List.append_ne_nil_of_right_ne_nil _ hne, List.forall_mem_append.mpr ⟨?_, hd⟩⟩
  intro c hc
  rw [List.eq_of_mem_replicate hc]
  rfl

/-- A numeral is written with digits that it is made of, and with a point if some come behind one. -/
theorem digits_cases (d : Decimal) :
    (IsDigits d.digits ∧ ofDigits d.digits [] = d) ∨
      ∃ whole fraction, d.digits = whole ++ '.' :: fraction ∧ IsDigits whole ∧ IsDigits fraction ∧
        ofDigits whole fraction = d := by
  obtain ⟨coefficient, scale⟩ := d
  obtain rfl | h0 := Nat.eq_zero_or_pos scale
  · left
    have hd : digits ⟨coefficient, 0⟩ = Nat.toDigits 10 coefficient := if_pos rfl
    rw [hd, ofDigits, List.append_nil, Nat.ofDigitChars_ten_toDigits]
    exact ⟨isDigits_toDigits coefficient, rfl⟩
  · right
    have hlen : scale - (Nat.toDigits 10 (coefficient % 10 ^ scale)).length +
        (Nat.toDigits 10 (coefficient % 10 ^ scale)).length = scale :=
      Nat.sub_add_cancel <| (Nat.length_toDigits_le_iff (by decide) h0).mpr <|
        Nat.mod_lt _ (Nat.pow_pos (by decide))
    refine ⟨_, _, if_neg (Nat.ne_of_gt h0), isDigits_toDigits _, isDigits_padded _ _, ?_⟩
    simp only [ofDigits, Nat.pow_eq]
    rw [Nat.ofDigitChars_append, Nat.ofDigitChars_ten_toDigits, ofDigitChars_padded, List.length_append,
      List.length_replicate, hlen, Nat.div_add_mod]

/-- The digits of a numeral are a lexeme for the number that it denotes. -/
theorem spells_digits (d : Decimal) : Spells (.number d.toFloat) d.digits := by
  obtain ⟨hd, he⟩ | ⟨whole, fraction, hd, hw, hf, he⟩ := d.digits_cases
  · have h := Spells.whole hd
    rwa [he] at h
  · rw [hd, ← he]
    exact .fraction hw hf

end Decimal

theorem numberText_ofFields {s : Sign} {e : BitVec 11} (h : e ≠ -1#11) (m : BitVec 52) :
    numberText (Binary64.ofFields s e m) = (if s == .negative then ['-'] else []) ++
      (Binary64.shortest (e.toNat * 2 ^ 52 + m.toNat)).digits := by
  have hlt := Binary64.fields_lt h m
  rw [numberText, Binary64.magnitudeBits_ofFields h, Binary64.isNegative_ofFields h,
    if_neg (Nat.lt_asymm hlt), if_neg (Nat.ne_of_lt hlt)]

/-- A finite number is written as the digits of a numeral, behind a minus sign if it is negative; the
numeral denotes it, bit for bit, or what it is the negation of. -/
theorem numberText_cases {x : Float} (hx : x.isFinite) :
    ∃ d : Decimal, (numberText x = d.digits ∧ x = d.toFloat) ∨
      (numberText x = '-' :: d.digits ∧ x = -d.toFloat) := by
  obtain ⟨s, e, m, he, rfl⟩ := Binary64.exists_fields hx
  have hlt := Binary64.fields_lt he m
  have hd := Binary64.toFloat_of_nearest he (Binary64.nearest_shortest hlt)
  refine ⟨Binary64.shortest (e.toNat * 2 ^ 52 + m.toNat), ?_⟩
  rw [hd, numberText_ofFields he]
  cases s with
  | positive => exact .inl ⟨List.nil_append _, rfl⟩
  | negative => exact .inr ⟨List.singleton_append, (Binary64.neg_ofFields (s := .positive) he).symm⟩

/-- A minus sign ends before anything. -/
theorem Tiles.minus {ps : List Piece} {rest : List Char} (h : Tiles ps rest) :
    Tiles (.lexeme (.mark .minus) ['-'] :: ps) ('-' :: rest) := by
  have he : (Piece.lexeme (.mark .minus) ['-']).EndsBefore rest := ⟨by simp, by simp⟩
  exact .cons (p := .lexeme (.mark .minus) ['-']) (.mark .minus) he h

end SmallScript
