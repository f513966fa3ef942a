import Mathlib
import SmallScript.Proofs.Numeral.Rounding

/-!
Floats by their sign, exponent and mantissa. The fields of a finite float give the number that it
stands for, and a numeral denotes the float that stands for the nearest number.
-/
namespace SmallScript

open Float.Model (Format)
open Float.Model.UnpackedFloat

/-- The number that an unpacked float stands for, if it is finite. -/
def unpackedValue : Float.Model.UnpackedFloat → ℚ
  | .finite s m e _ => s.apply m * 2 ^ e
  | _ => 0

/-- The number that a finite float stands for. -/
def floatValue (x : Float) : ℚ := unpackedValue x.toModel.unpack

/-- The number that a numeral stands for. -/
def Decimal.value (d : Decimal) : ℚ := d.coefficient / 10 ^ d.scale

namespace Binary64

/-- The number with this sign, exponent and mantissa. -/
def ofFields (s : Sign) (e : BitVec 11) (m : BitVec 52) : Float :=
  Float.ofBits (UInt64.ofBitVec (packComponents Format.binary64 s e m))

variable {s : Sign} {e : BitVec 11} {m : BitVec 52}

/-- The exponent that is all ones is that of the numbers that are not finite. -/
theorem isFinite_unpack {b : BitVec 64} (h : @unpackExponent Format.binary64 b = -1#11) :
    (unpack Format.binary64 b).isFinite = false := by
  simp only [unpack, h, if_true]
  split <;> rfl

theorem exists_fields {x : Float} (hx : x.isFinite) : ∃ s e m, e ≠ -1#11 ∧ x = ofFields s e m := by
  refine ⟨Sign.ofBitVec (@unpackSign Format.binary64 x.toBits.toBitVec),
    @unpackExponent Format.binary64 x.toBits.toBitVec,
    @unpackMantissa Format.binary64 x.toBits.toBitVec, fun h => ?_, ?_⟩
  · have hf : (unpack Format.binary64 x.toBits.toBitVec).isFinite = true := hx
    rw [isFinite_unpack h] at hf
    cases hf
  · rw [ofFields, packComponents_unpackSign_unpackExponent_unpackMantissa]
    exact (Float.ofBits_toBits x).symm

theorem toBits_ofFields (h : e ≠ -1#11) :
    (ofFields s e m).toBits.toBitVec = packComponents Format.binary64 s e m := by
  have hn : isNaNBits (packComponents Format.binary64 s e m) = false := by
    simp only [isNaNBits, unpackExponent_packComponents, h, false_and, decide_false]
  have hp := pack_unpack (packComponents Format.binary64 s e m)
  rw [hn] at hp
  exact hp

/-- Negation turns the sign and nothing else. -/
theorem neg_unpack (s : Sign) (e : BitVec 11) (m : BitVec 52) :
    (unpack Format.binary64 (packComponents Format.binary64 s e m)).neg =
      unpack Format.binary64 (packComponents Format.binary64 (-s) e m) := by
  simp only [unpack, unpackMantissa_packComponents, unpackExponent_packComponents,
    unpackSign_packComponents, Sign.ofBitVec_toBitVec]
  split
  · split <;> rfl
  · split
    · split <;> rfl
    · rfl

theorem unpack_ofFields (h : e ≠ -1#11) : (ofFields s e m).toModel.unpack =
    unpack Format.binary64 (packComponents Format.binary64 s e m) :=
  congrArg (unpack Format.binary64) (toBits_ofFields h)

theorem neg_ofFields (h : e ≠ -1#11) : -ofFields s e m = ofFields (-s) e m := by
  refine Float.toBits_inj.mp (UInt64.toBitVec_inj.mp ?_)
  have hn : (-ofFields s e m).toBits.toBitVec =
      pack Format.binary64 (ofFields s e m).toModel.unpack.neg := rfl
  rw [hn, unpack_ofFields h, neg_unpack]
  rfl

theorem toNat_append {k l : Nat} (x : BitVec k) (y : BitVec l) :
    (x ++ y).toNat = x.toNat * 2 ^ l + y.toNat := by
  rw [BitVec.toNat_append, ← Nat.shiftLeft_add_eq_or_of_lt y.isLt, Nat.shiftLeft_eq]

theorem toNat_packComponents (s : Sign) (e : BitVec 11) (m : BitVec 52) :
    (packComponents Format.binary64 s e m).toNat =
      s.toBitVec.toNat * 2 ^ 63 + (e.toNat * 2 ^ 52 + m.toNat) := by
  have hp : (packComponents Format.binary64 s e m).toNat = (s.toBitVec ++ e ++ m).toNat := rfl
  rw [hp, toNat_append, toNat_append]
  omega

theorem toNat_ofFields (h : e ≠ -1#11) : (ofFields s e m).toBits.toNat =
    s.toBitVec.toNat * 2 ^ 63 + (e.toNat * 2 ^ 52 + m.toNat) :=
  (congrArg BitVec.toNat (toBits_ofFields h)).trans (toNat_packComponents s e m)

theorem fields_lt (h : e ≠ -1#11) (m : BitVec 52) : e.toNat * 2 ^ 52 + m.toNat < infinityBits := by
  have he : e.toNat ≠ 2047 := fun h' => h (BitVec.toNat_inj.mp h')
  have hlt := e.isLt
  have hm := m.isLt
  rw [infinityBits, Nat.pow_eq]
  omega

theorem magnitudeBits_ofFields (h : e ≠ -1#11) :
    magnitudeBits (ofFields s e m) = e.toNat * 2 ^ 52 + m.toNat := by
  have hlt := e.isLt
  have hm := m.isLt
  rw [magnitudeBits, toNat_ofFields h, Nat.pow_eq]
  omega

theorem magnitudeBits_lt {x : Float} (hx : x.isFinite) : magnitudeBits x < infinityBits := by
  obtain ⟨s, e, m, he, rfl⟩ := exists_fields hx
  rw [magnitudeBits_ofFields he]
  exact fields_lt he m

theorem isNegative_ofFields (h : e ≠ -1#11) :
    isNegative (ofFields s e m) = (s == .negative) := by
  have hlt := e.isLt
  have hm := m.isLt
  rw [isNegative, toNat_ofFields h, Nat.pow_eq]
  cases s with
  | positive =>
    have hs : Sign.positive.toBitVec.toNat = 0 := rfl
    rw [hs, decide_eq_false (by omega)]
    rfl
  | negative =>
    have hs : Sign.negative.toBitVec.toNat = 1 := rfl
    rw [hs, decide_eq_true (by omega)]
    rfl

/-- A numeral denotes the number without a sign to whose bits it is nearest. -/
theorem toFloat_of_nearest {d : Decimal} (h : e ≠ -1#11)
    (hd : nearest d = e.toNat * 2 ^ 52 + m.toNat) : d.toFloat = ofFields .positive e m := by
  have hlt := fields_lt h m
  rw [infinityBits, Nat.pow_eq] at hlt
  have hbits : UInt64.ofNat (nearest d) =
      UInt64.ofBitVec (packComponents Format.binary64 .positive e m) := by
    refine UInt64.toBitVec_inj.mp (BitVec.eq_of_toNat_eq ?_)
    have hs : Sign.positive.toBitVec.toNat = 0 := rfl
    rw [hd, UInt64.toBitVec_ofNat', BitVec.toNat_ofNat, Nat.mod_eq_of_lt (by omega)]
    exact ((toNat_packComponents _ _ _).trans (by rw [hs, Nat.zero_mul, Nat.zero_add])).symm
  rw [Decimal.toFloat, hbits, ofFields]

/-- A multiple of a power of two, in units. -/
theorem apply_mul_units (s : Sign) (m : Nat) {e : Int} {k : Nat} (h : e + 1074 = k) :
    ((s.apply m : Int) : ℚ) * 2 ^ e * 2 ^ 1074 = (s.apply (m * 2 ^ k : Nat) : Int) := by
  have hpow : (2 : ℚ) ^ e * 2 ^ 1074 = 2 ^ k := by
    rw [← zpow_natCast 2 1074, ← zpow_add₀ two_ne_zero, ← zpow_natCast 2 k, ← h]
    rfl
  rw [mul_assoc, hpow]
  cases s with
  | positive => simp [Sign.apply]
  | negative => simp [Sign.apply]

/-- The number that a finite float stands for, in units. -/
theorem floatValue_ofFields (h : e ≠ -1#11) : floatValue (ofFields s e m) * 2 ^ 1074 =
    (s.apply (units (e.toNat * 2 ^ 52 + m.toNat)) : Int) := by
  have hm := m.isLt
  have hbias : (Format.binary64.exponentBias : Int) = 1023 := rfl
  rw [floatValue, unpack_ofFields h]
  simp only [unpack, unpackMantissa_packComponents, unpackExponent_packComponents,
    unpackSign_packComponents, Sign.ofBitVec_toBitVec, if_neg h, hbias]
  split
  · next he =>
    have hu : units (e.toNat * 2 ^ 52 + m.toNat) = m.toNat * 2 ^ 0 := by
      rw [he]
      exact units_add (e := 0) (by omega) (.inl rfl)
    rw [hu]
    split
    · next h0 =>
      rw [h0]
      cases s <;> exact zero_mul _
    · refine apply_mul_units s _ ?_
      rw [he]
      rfl
  · next he =>
    have hpos : 0 < e.toNat := Nat.pos_of_ne_zero fun h0 => he (BitVec.toNat_inj.mp h0)
    have hu : units (e.toNat * 2 ^ 52 + m.toNat) = (1#1 ++ m).toNat * 2 ^ (e.toNat - 1) := by
      have hone : (1#1 ++ m).toNat = 2 ^ 52 + m.toNat := toNat_append 1#1 m
      have hbits :
          e.toNat * 2 ^ 52 + m.toNat = (e.toNat - 1) * 2 ^ 52 + (2 ^ 52 + m.toNat) := by omega
      rw [hone, hbits]
      exact units_add (by omega) (.inr (Nat.le_add_right _ _))
    rw [hu]
    refine apply_mul_units s _ ?_
    omega

theorem abs_floatValue {x : Float} (hx : x.isFinite) :
    |floatValue x| * 2 ^ 1074 = units (magnitudeBits x) := by
  obtain ⟨s, e, m, he, rfl⟩ := exists_fields hx
  have hpow : (0 : ℚ) ≤ 2 ^ 1074 := by positivity
  rw [← abs_of_nonneg hpow, ← abs_mul, floatValue_ofFields he, magnitudeBits_ofFields he]
  cases s with
  | positive => exact Nat.abs_cast _
  | negative =>
    rw [Sign.apply, Int.cast_neg, abs_neg]
    exact Nat.abs_cast _

/-- A numeral is rounded to the nearest magnitude. -/
theorem nearest_value (d : Decimal) : Nearest (d.value * 2 ^ 1074) (nearest d) := by
  rw [nearest]
  generalize 1074 = k
  have hv : d.value * 2 ^ k =
      ((d.coefficient * Nat.pow 2 k : Nat) : ℚ) / (Nat.pow 10 d.scale : Nat) := by
    rw [Decimal.value, div_mul_eq_mul_div, Nat.pow_eq, Nat.pow_eq]
    push_cast
    rfl
  rw [hv]
  exact nearest_nearestUnits _ (Nat.pow_pos (by decide))

/-- The float that a numeral denotes has no sign and the bits of the nearest magnitude. -/
theorem exists_fields_toFloat {d : Decimal} (h : nearest d < infinityBits) :
    ∃ e m, e ≠ -1#11 ∧ nearest d = e.toNat * 2 ^ 52 + m.toNat ∧
      d.toFloat = ofFields .positive e m := by
  have hlt := h
  rw [infinityBits, Nat.pow_eq] at hlt
  have hn : nearest d = (BitVec.ofNat 11 (nearest d / 2 ^ 52)).toNat * 2 ^ 52 +
      (BitVec.ofNat 52 (nearest d)).toNat := by
    rw [BitVec.toNat_ofNat, BitVec.toNat_ofNat]
    omega
  have he : BitVec.ofNat 11 (nearest d / 2 ^ 52) ≠ -1#11 := by
    intro he
    have := congrArg BitVec.toNat he
    rw [BitVec.toNat_ofNat] at this
    have h1 : (-1#11).toNat = 2047 := rfl
    omega
  exact ⟨_, _, he, hn, toFloat_of_nearest he hn⟩

theorem magnitudeBits_toFloat (d : Decimal) : magnitudeBits d.toFloat = nearest d := by
  obtain hlt | hinf := Nat.lt_or_eq_of_le (nearest_value d).le
  · obtain ⟨e, m, he, hn, hd⟩ := exists_fields_toFloat hlt
    rw [hd, magnitudeBits_ofFields he, hn]
  · rw [Decimal.toFloat, hinf]
    decide +kernel

/-- The float that a numeral denotes has the bits of the nearest magnitude, be it infinity. -/
theorem nearest_toFloat (d : Decimal) : Nearest (d.value * 2 ^ 1074) (magnitudeBits d.toFloat) := by
  rw [magnitudeBits_toFloat]
  exact nearest_value d

theorem floatValue_toFloat {d : Decimal} (h : d.toFloat.isFinite) :
    floatValue d.toFloat * 2 ^ 1074 = units (magnitudeBits d.toFloat) := by
  have hlt := magnitudeBits_lt h
  rw [magnitudeBits_toFloat] at hlt ⊢
  obtain ⟨e, m, he, hn, hd⟩ := exists_fields_toFloat hlt
  rw [hd, floatValue_ofFields he, hn]
  rfl

end Binary64

/-- A numeral denotes the float nearest to it. Of floats that are equally near, other than by their
sign, it denotes the one with even bits. -/
theorem Decimal.toFloat_nearest {d : Decimal} (h : d.toFloat.isFinite) {y : Float}
    (hy : y.isFinite) :
    |d.value - floatValue d.toFloat| ≤ |d.value - floatValue y| ∧
      (|d.value - floatValue y| = |d.value - floatValue d.toFloat| →
        |floatValue y| = floatValue d.toFloat ∨ Even (magnitudeBits d.toFloat)) := by
  have hb := Binary64.floatValue_toFloat h
  have hc := Binary64.abs_floatValue hy
  have hle := (Binary64.magnitudeBits_lt hy).le
  have hvalue := Binary64.nearest_toFloat d
  have hunit : (0 : ℚ) < 2 ^ 1074 := by positivity
  generalize (2 : ℚ) ^ 1074 = unit at hb hc hvalue hunit
  have hscale (a : ℚ) : |d.value * unit - a * unit| = |d.value - a| * unit := by
    rw [← sub_mul, abs_mul, abs_of_pos hunit]
  -- a float below zero is further away than its magnitude
  have habs : |d.value - abs (floatValue y)| ≤ |d.value - floatValue y| := by
    have hv : 0 ≤ d.value := by
      rw [value]
      positivity
    have := abs_abs_sub_abs_le d.value (floatValue y)
    rwa [abs_of_nonneg hv] at this
  have hnear := hvalue.nearest _ hle
  rw [← hb, ← hc, hscale, hscale] at hnear
  have hnear := le_of_mul_le_mul_right hnear hunit
  refine ⟨hnear.trans habs, fun heq => or_iff_not_imp_left.mpr fun hne => ?_⟩
  refine hvalue.even _ hle (fun hbits => hne ?_) ?_
  · rw [hbits, ← hb] at hc
    exact mul_right_cancel₀ hunit.ne' hc
  · rw [← hb, ← hc, hscale, hscale, le_antisymm (habs.trans heq.le) hnear]

end SmallScript
