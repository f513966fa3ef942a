import Mathlib.Algebra.Order.Field.Rat
import Mathlib.Tactic
import SmallScript.Decimal

/-!
Rounding to binary64. Magnitudes are numbered by their bits, and each is a multiple of the unit; the
step from one to the next doubles with the exponent. The magnitude that a numeral denotes is the
nearest to it, and of two that are equally near the even one.
-/
namespace SmallScript

/-- Rounding goes to an integer at most half away, and to an even one if it is half away. -/
theorem roundHalfEven_near (n : Nat) {d : Nat} (hd : 0 < d) :
    |(n / d : ℚ) - roundHalfEven n d| ≤ 1 / 2 ∧
      (|(n / d : ℚ) - roundHalfEven n d| = 1 / 2 → Even (roundHalfEven n d)) := by
  have hd' : (0 : ℚ) < d := Nat.cast_pos.mpr hd
  have hn : (n / d : ℚ) = (n / d : Nat) + (n % d : Nat) / d := by
    have h : ((d * (n / d) + n % d : Nat) : ℚ) = n := congrArg Nat.cast (Nat.div_add_mod n d)
    rw [← h]
    push_cast
    field_simp
  have ht : (0 : ℚ) ≤ (n % d : Nat) / d := by positivity
  rw [hn, roundHalfEven]
  split
  · next h =>
    -- below the middle
    have hlt : ((n % d : Nat) / d : ℚ) < 1 / 2 := by
      rw [div_lt_div_iff₀ hd' two_pos, one_mul, mul_comm]
      exact_mod_cast h
    rw [add_sub_cancel_left, abs_of_nonneg ht]
    exact ⟨hlt.le, fun he => absurd he hlt.ne⟩
  split
  · next h =>
    have hgt : (1 / 2 : ℚ) < (n % d : Nat) / d := by
      rw [div_lt_div_iff₀ two_pos hd', one_mul, mul_comm]
      exact_mod_cast h
    have hlt : ((n % d : Nat) / d : ℚ) < 1 := by
      rw [div_lt_one hd']
      exact_mod_cast Nat.mod_lt n hd
    rw [Nat.cast_add_one, add_sub_add_left_eq_sub, abs_of_neg (sub_neg.mpr hlt)]
    constructor
    · linarith
    · intro he
      linarith
  · next hl hr =>
    -- the middle, from which an odd quotient goes up
    have he : ((n % d : Nat) / d : ℚ) = 1 / 2 := by
      have h2 : 2 * (n % d) = d := by omega
      rw [div_eq_div_iff hd'.ne' two_ne_zero, one_mul, mul_comm]
      exact_mod_cast h2
    have heven : Even (n / d + n / d % 2) := Nat.even_iff.mpr (by omega)
    refine ⟨?_, fun _ => heven⟩
    rw [he, Nat.cast_add, add_sub_add_left_eq_sub]
    obtain h0 | h1 := Nat.mod_two_eq_zero_or_one (n / d)
    · rw [h0]
      norm_num
    · rw [h1]
      norm_num

namespace Binary64

/-- A power of two that divides a magnitude. Magnitudes with a higher one have 53 binary digits. -/
def exponent (bits : Nat) : Nat := bits / 2 ^ 52 - 1

/-- What is left of the magnitude. -/
def significand (bits : Nat) : Nat := bits - exponent bits * 2 ^ 52

theorem units_eq (bits : Nat) : units bits = significand bits * 2 ^ exponent bits := by
  simp only [units, Nat.pow_eq]
  split
  · next h =>
    have he : exponent bits = 0 := by rw [exponent]; omega
    rw [significand, he, Nat.zero_mul, Nat.sub_zero, pow_zero, Nat.mul_one]
  · next h =>
    have hs : significand bits = 2 ^ 52 + bits % 2 ^ 52 := by rw [significand, exponent]; omega
    rw [hs, exponent]

/-- A magnitude by its exponent and significand. A significand of 54 binary digits is a carry into the
exponent. -/
theorem units_add {e q : Nat} (hq : q ≤ 2 ^ 53) (he : e = 0 ∨ 2 ^ 52 ≤ q) :
    units (e * 2 ^ 52 + q) = q * 2 ^ e := by
  rw [units_eq]
  obtain rfl | hlt := Nat.eq_or_lt_of_le hq
  · have hx : exponent (e * 2 ^ 52 + 2 ^ 53) = e + 1 := by rw [exponent]; omega
    have hs : significand (e * 2 ^ 52 + 2 ^ 53) = 2 ^ 52 := by rw [significand, hx]; omega
    rw [hx, hs, pow_succ']
    ring
  · have hx : exponent (e * 2 ^ 52 + q) = e := by rw [exponent]; omega
    have hs : significand (e * 2 ^ 52 + q) = q := by rw [significand, hx]; omega
    rw [hx, hs]

/-- The step to the next magnitude. -/
theorem units_succ (bits : Nat) : units (bits + 1) = units bits + 2 ^ exponent bits := by
  rw [units_eq, units_eq]
  obtain he | he : exponent (bits + 1) = exponent bits ∨ exponent (bits + 1) = exponent bits + 1 := by
    rw [exponent, exponent]; omega
  · have hs : significand (bits + 1) = significand bits + 1 := by
      rw [significand, significand, he, exponent]; omega
    rw [he, hs, Nat.add_mul, Nat.one_mul]
  · have hs : significand bits + 1 = 2 * significand (bits + 1) := by
      rw [exponent, exponent] at he
      rw [significand, significand, exponent, exponent]
      omega
    rw [he, pow_succ', ← Nat.add_one_mul, hs]
    ring

theorem units_strictMono : StrictMono units :=
  strictMono_nat_of_lt_succ fun bits => by
    rw [units_succ]
    exact Nat.lt_add_of_pos_right (Nat.two_pow_pos _)

/-- The exponent to which a number of units is rounded leaves at most 53 binary digits before the
point, and no fewer unless it is zero. -/
theorem exponent_bounds (n : Nat) {d e : Nat} (hd : 0 < d) (he : (n / d).log2 - 52 = e) :
    (e = 0 ∨ 2 ^ 52 * 2 ^ e ≤ (n / d : ℚ)) ∧ (n / d : ℚ) < 2 ^ 53 * 2 ^ e := by
  have hd' : (0 : ℚ) < d := Nat.cast_pos.mpr hd
  constructor
  · refine or_iff_not_imp_left.mpr fun h0 => ?_
    have hlog : (n / d).log2 = 52 + e := by omega
    have hle : 2 ^ 52 * 2 ^ e ≤ n / d := by
      rw [← pow_add, ← hlog]
      refine Nat.log2_self_le fun h => ?_
      rw [h, Nat.log2_zero] at hlog
      omega
    rw [le_div_iff₀ hd']
    exact_mod_cast (Nat.le_div_iff_mul_le hd).mp hle
  · have hlt : n / d < 2 ^ 53 * 2 ^ e := by
      rw [← pow_add]
      exact Nat.lt_of_lt_of_le Nat.lt_log2_self (Nat.pow_le_pow_right two_pos (by omega))
    rw [div_lt_iff₀ hd']
    exact_mod_cast (Nat.div_lt_iff_lt_mul hd).mp hlt

/-- A number of units is rounded to a multiple of a power of two: to the nearest, and to an even one
from the middle between two. Unless the power is the least, the number has 53 binary digits before
the point. -/
structure Rounds (x : ℚ) (e q : Nat) : Prop where
  le : q ≤ 2 ^ 53
  normal : e = 0 ∨ 2 ^ 52 ≤ q ∧ 2 ^ 52 * 2 ^ e ≤ x
  near : |x - q * 2 ^ e| ≤ 1 / 2 * 2 ^ e
  even : |x - q * 2 ^ e| = 1 / 2 * 2 ^ e → Even q

theorem rounds (n : Nat) {d : Nat} (hd : 0 < d) :
    Rounds (n / d) ((n / d).log2 - 52) (roundHalfEven n (d * 2 ^ ((n / d).log2 - 52))) := by
  generalize he : (n / d).log2 - 52 = e
  obtain ⟨hlow, hhigh⟩ := exponent_bounds n hd he
  obtain ⟨hnear, heven⟩ := roundHalfEven_near n (Nat.mul_pos hd (Nat.two_pow_pos e))
  generalize roundHalfEven n (d * 2 ^ e) = q at hnear heven
  have hu : (0 : ℚ) < 2 ^ e := by positivity
  have hx : (n / (d * 2 ^ e : Nat) : ℚ) - q = (n / d - q * 2 ^ e) / 2 ^ e := by
    push_cast
    field_simp
  rw [hx, abs_div, abs_of_pos hu] at hnear heven
  have hnear := (div_le_iff₀ hu).mp hnear
  obtain ⟨hl, hr⟩ := abs_le.mp hnear
  refine ⟨?_, hlow.imp_right fun h => ⟨?_, h⟩, hnear, fun h => heven ((div_eq_iff hu.ne').mpr h)⟩
  · have hq : (q : ℚ) * 2 ^ e < (2 ^ 53 + 1) * 2 ^ e := by linarith
    have := lt_of_mul_lt_mul_right hq hu.le
    exact Nat.lt_succ_iff.mp (by exact_mod_cast this)
  · have hq : (2 ^ 52 : ℚ) * 2 ^ e < (q + 1) * 2 ^ e := by linarith
    have := lt_of_mul_lt_mul_right hq hu.le
    exact Nat.lt_succ_iff.mp (by exact_mod_cast this)

namespace Rounds

variable {x : ℚ} {e q : Nat}

theorem units_eq (h : Rounds x e q) : units (e * 2 ^ 52 + q) = q * 2 ^ e :=
  units_add h.le (h.normal.imp_right And.left)

/-- A lower magnitude is half a step away or more, or further away than this one: where the steps
below are smaller, the number is not below this magnitude. -/
theorem far_below (h : Rounds x e q) {c : Nat} (hc : c < e * 2 ^ 52 + q) :
    1 / 2 * 2 ^ e ≤ |x - units c| ∨ |x - q * 2 ^ e| < |x - units c| := by
  by_cases hq : e = 0 ∨ 2 ^ 52 < q
  · obtain ⟨r, rfl⟩ : ∃ r, q = r + 1 := Nat.exists_eq_add_one.mpr (by omega)
    have hle : units c ≤ r * 2 ^ e := by
      rw [← units_add (Nat.le_of_succ_le h.le) (hq.imp_right Nat.le_of_lt_succ)]
      exact units_strictMono.monotone (Nat.le_of_lt_succ hc)
    have hle : (units c : ℚ) ≤ r * 2 ^ e := by exact_mod_cast hle
    obtain ⟨hl, -⟩ := abs_le.mp h.near
    push_cast at hl
    left
    refine le_trans ?_ (le_abs_self _)
    linarith
  · obtain he | ⟨hge, hx⟩ := h.normal
    · exact absurd (.inl he) hq
    have hq : q = 2 ^ 52 := by omega
    have hqx : (q : ℚ) * 2 ^ e ≤ x := by
      rw [hq]
      exact_mod_cast hx
    have hlt := units_strictMono hc
    rw [h.units_eq] at hlt
    have hlt : (units c : ℚ) < q * 2 ^ e := by exact_mod_cast hlt
    right
    rw [abs_of_nonneg (sub_nonneg.mpr hqx)]
    exact lt_of_lt_of_le (sub_lt_sub_left hlt x) (le_abs_self _)

/-- A greater magnitude is half a step away or more, as the steps above are no smaller. -/
theorem far_above (h : Rounds x e q) {c : Nat} (hc : e * 2 ^ 52 + q < c) :
    1 / 2 * 2 ^ e ≤ |x - units c| := by
  have hstep : 2 ^ e ≤ 2 ^ exponent (e * 2 ^ 52 + q) := by
    refine Nat.pow_le_pow_right two_pos ?_
    have := h.normal
    rw [exponent]
    omega
  have hle : (q + 1) * 2 ^ e ≤ units c := by
    have := units_strictMono.monotone (Nat.succ_le_of_lt hc)
    rw [Nat.succ_eq_add_one, units_succ, h.units_eq] at this
    rw [Nat.add_one_mul]
    omega
  have hle : ((q : ℚ) + 1) * 2 ^ e ≤ units c := by exact_mod_cast hle
  obtain ⟨-, hr⟩ := abs_le.mp h.near
  rw [abs_sub_comm]
  refine le_trans ?_ (le_abs_self _)
  linarith

/-- No other magnitude is nearer, and if one is as near, this one is even. -/
theorem nearest (h : Rounds x e q) {c : Nat} (hc : c ≠ e * 2 ^ 52 + q) :
    |x - units (e * 2 ^ 52 + q)| ≤ |x - units c| ∧
      (|x - units c| = |x - units (e * 2 ^ 52 + q)| → Even (e * 2 ^ 52 + q)) := by
  have hu : (units (e * 2 ^ 52 + q) : ℚ) = q * 2 ^ e := by rw [h.units_eq]; push_cast; rfl
  rw [hu]
  have hfar : 1 / 2 * 2 ^ e ≤ |x - units c| ∨ |x - q * 2 ^ e| < |x - units c| :=
    (Nat.lt_or_gt_of_ne hc).elim h.far_below fun hgt => .inl (h.far_above hgt)
  obtain hfar | hlt := hfar
  · refine ⟨h.near.trans hfar, fun heq => ?_⟩
    have := h.even (le_antisymm h.near (heq ▸ hfar))
    exact (Even.mul_left (by decide) e).add this
  · exact ⟨hlt.le, fun heq => absurd heq.symm hlt.ne⟩

end Rounds

/-- This magnitude is the nearest to a number of units. Infinity counts as the magnitude behind the
greatest. If another is as near, this one is even. -/
structure Nearest (x : ℚ) (bits : Nat) : Prop where
  le : bits ≤ infinityBits
  nearest : ∀ c ≤ infinityBits, |x - units bits| ≤ |x - units c|
  even : ∀ c ≤ infinityBits, c ≠ bits → |x - units c| = |x - units bits| → Even bits

/-- The nearest of all magnitudes, those beyond infinity included, is cut down to infinity. -/
theorem nearest_min {x : ℚ} {p : Nat} (h : ∀ c ≠ p, |x - units p| ≤ |x - units c| ∧
    (|x - units c| = |x - units p| → Even p)) : Nearest x (min p infinityBits) := by
  obtain hgt | hle := Nat.lt_or_ge infinityBits p
  · have hlt : (units infinityBits : ℚ) < units p := Nat.cast_lt.mpr (units_strictMono hgt)
    have hx : (units infinityBits : ℚ) ≤ x := by
      refine le_of_not_gt fun hx => ?_
      have hnear := (h infinityBits (Nat.ne_of_lt hgt)).1
      rw [abs_of_neg (sub_neg.mpr (hx.trans hlt)), abs_of_neg (sub_neg.mpr hx)] at hnear
      linarith
    rw [Nat.min_eq_right hgt.le]
    refine ⟨le_rfl, fun c hc => ?_, fun _ _ _ _ => Nat.even_iff.mpr rfl⟩
    have hle : (units c : ℚ) ≤ units infinityBits := Nat.cast_le.mpr (units_strictMono.monotone hc)
    rw [abs_of_nonneg (sub_nonneg.mpr hx)]
    exact (sub_le_sub_left hle x).trans (le_abs_self _)
  · rw [Nat.min_eq_left hle]
    refine ⟨hle, fun c _ => ?_, fun c _ hc => (h c hc).2⟩
    obtain rfl | hc := eq_or_ne c p
    · exact le_rfl
    · exact (h c hc).1

/-- Rounding finds the nearest magnitude. -/
theorem nearest_nearestUnits (n : Nat) {d : Nat} (hd : 0 < d) :
    Nearest (n / d) (nearestUnits n d) :=
  nearest_min fun _ hc => (rounds n hd).nearest hc

/-- There is one nearest magnitude. -/
theorem Nearest.unique {x : ℚ} {b c : Nat} (hb : Nearest x b) (hc : Nearest x c) : b = c := by
  by_contra hne
  wlog hlt : b < c
  · exact this hc hb (Ne.symm hne) (by omega)
  have heq : |x - units b| = |x - units c| :=
    le_antisymm (hb.nearest c hc.le) (hc.nearest b hb.le)
  -- both are even, so there is one between them, which would be nearer
  obtain ⟨k, hk⟩ := hb.even c hc.le (Ne.symm hne) heq.symm
  obtain ⟨l, hl⟩ := hc.even b hb.le hne heq
  have hsucc : b + 1 < c := by omega
  have hnear := hb.nearest (b + 1) (hsucc.le.trans hc.le)
  have hbelow : (units b : ℚ) < units (b + 1) := Nat.cast_lt.mpr (units_strictMono b.lt_succ_self)
  have habove : (units (b + 1) : ℚ) < units c := Nat.cast_lt.mpr (units_strictMono hsucc)
  have hmid : x - units b = units c - x := by
    obtain h | h := abs_eq_abs.mp heq <;> linarith
  rw [abs_of_pos (a := x - units b) (by linarith)] at hnear
  exact absurd hnear (not_le.mpr (abs_lt.mpr ⟨by linarith, by linarith⟩))

/-- A magnitude is nearest to itself. -/
theorem nearest_units {bits : Nat} (hb : bits ≤ infinityBits) : Nearest (units bits) bits where
  le := hb
  nearest c _ := by
    rw [sub_self, abs_zero]
    exact abs_nonneg _
  even c _ hc h := by
    rw [sub_self, abs_zero, abs_eq_zero, sub_eq_zero] at h
    exact absurd (units_strictMono.injective (Nat.cast_injective h)).symm hc

end Binary64
end SmallScript
