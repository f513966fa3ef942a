/-!
Decimal numerals and the binary64 numbers they denote. A numeral denotes the nearest binary64
number, ties to even; a number is written as the numeral on the coarsest decimal grid that denotes
it. Everything is exact arithmetic on natural numbers, in units of `2 ^ -1074`, the least positive
magnitude.
-/
namespace SmallScript

/-- The number `coefficient / 10 ^ scale`. -/
structure Decimal where
  coefficient : Nat
  scale : Nat
  deriving DecidableEq, Repr

namespace Decimal

/-- The numeral with these digits before and after the point. -/
def ofDigits (whole fraction : List Char) : Decimal :=
  ⟨Nat.ofDigitChars 10 (whole ++ fraction) 0, fraction.length⟩

/-- The numeral in full, without an exponent: all its digits, and a point if some come after it. -/
def digits (d : Decimal) : List Char :=
  if d.scale = 0 then Nat.toDigits 10 d.coefficient
  else
    let fraction := Nat.toDigits 10 (d.coefficient % Nat.pow 10 d.scale)
    Nat.toDigits 10 (d.coefficient / Nat.pow 10 d.scale) ++
      '.' :: (List.replicate (d.scale - fraction.length) '0' ++ fraction)

end Decimal

/-- The integer nearest to `n / d`; a tie goes to the even one. -/
def roundHalfEven (n d : Nat) : Nat :=
  if 2 * (n % d) < d then n / d
  else if d < 2 * (n % d) then n / d + 1
  else n / d + n / d % 2

namespace Binary64

/-- The bits of positive infinity; every smaller word is a finite magnitude. -/
def infinityBits : Nat := 2047 * Nat.pow 2 52

/-- The finite magnitude with these bits, in units of `2 ^ -1074`. -/
def units (bits : Nat) : Nat :=
  if bits < Nat.pow 2 52 then bits
  else (Nat.pow 2 52 + bits % Nat.pow 2 52) * Nat.pow 2 (bits / Nat.pow 2 52 - 1)

/-- The bits of the magnitude nearest to `n / d` units. Below `2 ^ 53` units magnitudes are one
unit apart; above, each keeps 53 binary digits. A carry out of those digits raises the exponent. -/
def nearestUnits (n d : Nat) : Nat :=
  let exponent := (n / d).log2 - 52
  min (exponent * Nat.pow 2 52 + roundHalfEven n (d * Nat.pow 2 exponent)) infinityBits

/-- The bits of the magnitude that a numeral denotes. -/
def nearest (d : Decimal) : Nat :=
  nearestUnits (d.coefficient * Nat.pow 2 1074) (Nat.pow 10 d.scale)

/-- The numeral `n / 10 ^ 1074` for a multiple `n` of `10 ^ place`, with no needless places. -/
def onGrid (n place : Nat) : Decimal :=
  if place ≤ 1074 then ⟨n / Nat.pow 10 place, 1074 - place⟩ else ⟨n / Nat.pow 10 1074, 0⟩

/-- The multiple of `10 ^ place` next to `n` that denotes the magnitude with these bits. If both
neighbours do, the nearer; of two equally near, the greater. -/
def neighbour? (bits n place : Nat) : Option Decimal :=
  let step := Nat.pow 10 place
  let below := onGrid (n / step * step) place
  let above := onGrid ((n / step + 1) * step) place
  if nearest below = bits ∧ (nearest above = bits → 2 * (n % step) < step) then some below
  else if nearest above = bits then some above
  else none

/-- At least the number of decimal digits of `n`, since `log 2 < 0.30103` to base ten. -/
def digitBound (n : Nat) : Nat := (n.log2 + 1) * 30103 / 100000 + 1

/-- The first hit on the grids from `10 ^ place` down to the exact value `n / 10 ^ 1074`. -/
def search (bits n : Nat) : Nat → Decimal
  | 0 => onGrid n 0
  | place + 1 => (neighbour? bits n (place + 1)).getD (search bits n place)

/-- The shortest numeral that denotes the finite magnitude with these bits. -/
def shortest (bits : Nat) : Decimal :=
  if bits = 0 then ⟨0, 0⟩
  else
    let exact := units bits * Nat.pow 5 1074
    search bits exact (digitBound exact)

end Binary64

/-- The number that a numeral denotes. -/
def Decimal.toFloat (d : Decimal) : Float :=
  Float.ofBits (UInt64.ofNat (Binary64.nearest d))

/-- The bits of a number without its sign. -/
def magnitudeBits (x : Float) : Nat := x.toBits.toNat % Nat.pow 2 63

/-- The sign bit of a number. -/
def isNegative (x : Float) : Bool := decide (Nat.pow 2 63 ≤ x.toBits.toNat)

/-- A number as the language writes it. -/
def numberText (x : Float) : List Char :=
  if Binary64.infinityBits < magnitudeBits x then ['N', 'a', 'N']
  else
    (if isNegative x then ['-'] else []) ++
      if magnitudeBits x = Binary64.infinityBits then ['i', 'n', 'f']
      else (Binary64.shortest (magnitudeBits x)).digits

end SmallScript
