import SymbolicAlgebra.Arithmetic.Decimal

/-!
# Decimals and double-precision numbers

Transcendental functions are computed in double precision, so decimals have to be turned into
doubles and back.

* `Binary64.ofScaled` rounds `m * 2 ^ x` to the nearest double, a tie to the even one.
* `Decimal.toFloat` first rounds a decimal to 53 binary digits, a tie away from zero, and then takes
  the nearest double; below the normal range these are two roundings.
* `Decimal.ofDouble` finds the shortest decimal that reads back as a given double.
-/

namespace SymbolicAlgebra

namespace Binary64

/-- The exponent of the smallest subnormal double. -/
def minExponent : Int := -1074

/-- The bits of positive infinity. -/
def infinityBits : Nat := 2047 * Nat.pow 2 52

/-- `n / 2 ^ k`, rounded to the nearest whole number, a tie to the even one. -/
def shiftRightEven (n k : Nat) : Nat :=
  let unit := Nat.pow 2 k
  let q := n / unit
  let r := n % unit
  if 2 * r < unit ∨ (2 * r = unit ∧ q % 2 = 0) then q else q + 1

/--
The bits of the double nearest to `m * 2 ^ x`. Its last bit has the weight `2 ^ u`; the exponent
field counts from `u = -1074`, and a significand that is rounded up to the next power of two carries
into that field.
-/
def bitsOfScaled (m : Nat) (x : Int) : Nat :=
  if m = 0 then 0
  else
    let u := max (Nat.log2 m + x - 52) minExponent
    let q := if u ≤ x then m * Nat.pow 2 (x - u).toNat else shiftRightEven m (u - x).toNat
    min ((u - minExponent).toNat * Nat.pow 2 52 + q) infinityBits

/-- The double nearest to `m * 2 ^ x`, infinite where that is too large. -/
def ofScaled (m : Int) (x : Int) : Float :=
  let size := Float.ofBits (UInt64.ofNat (bitsOfScaled m.natAbs x))
  if m < 0 then -size else size

/-- The double nearest to a whole number. -/
def ofInt (n : Int) : Float := ofScaled n 0

/-- The quotient of the doubles nearest to the numerator and the denominator. -/
def ofRat (r : Rat) : Float := ofInt r.num / ofInt r.den

/-- The double nearest to a binary number. -/
def ofBinary (x : Floating 2) : Float := ofScaled x.significand x.exponent

/-- The number of significant bits of a double. -/
def significantBits : Nat := 53

/-- Rounds `n / d` to 53 binary digits, a tie away from zero. -/
def roundQuotient (n : Int) (d : Nat) : Floating 2 :=
  let shift : Int := significantBits + digitCount 2 d - digitCount 2 n.natAbs
  let scaled (j : Int) : Nat × Nat :=
    if 0 ≤ j then (n.natAbs * Nat.pow 2 j.toNat, d) else (n.natAbs, d * Nat.pow 2 (-j).toNat)
  let first := scaled shift
  let shift := if first.1 / first.2 < Nat.pow 2 significantBits then shift else shift - 1
  let (num, den) := scaled shift
  let q : Int := (num / den : Nat)
  let r : Int := (num % den : Nat)
  Floating.ofParts (n.sign * (q + roundingStep q r den)) (-shift)

end Binary64

namespace Decimal

open Binary64

/--
The decimal in 53 binary digits. A whole multiple of a power of two is rounded once. Of the other
fractions those with at most 38 places are divided in binary and then rounded, so twice; those with
more places are rounded once.
-/
def toBinary (x : Decimal) : Floating 2 :=
  if 0 ≤ x.exponent then
    let five := radixPower 5 x.exponent.toNat
    (Floating.ofParts (x.significand * five) x.exponent).round significantBits
  else
    let places := (-x.exponent).toNat
    let five := radixPower 5 places
    if x.significand % five = 0 then
      (Floating.ofParts (x.significand / five) x.exponent).round significantBits
    else if places ≤ 38 then
      let num : Floating 2 := Floating.ofParts x.significand 0
      let den : Floating 2 := Floating.ofParts five places
      (num.divide significantBits den).round significantBits
    else roundQuotient x.significand (Nat.pow 10 places)

/-- The double for a decimal. -/
def toFloat (x : Decimal) : Float := Binary64.ofBinary x.toBinary

/-! ## The shortest decimal for a double -/

/--
The values that round to the double `m * 2 ^ q`, in units of `2 ^ (q - 2)`: from `low` to `high`
around `middle`, the ends included when `closed`.
-/
structure RoundingInterval where
  /-- The lower end. -/
  low : Nat
  /-- The double itself. -/
  middle : Nat
  /-- The upper end. -/
  high : Nat
  /-- The exponent of the unit. -/
  unitExponent : Int
  /-- Whether the ends belong to the interval. -/
  closed : Bool

namespace RoundingInterval

/--
The interval of a positive double. Below a power of two the doubles lie twice as close, so the lower
half of the interval of a power of two is half as wide.
-/
def ofDouble (m : Nat) (q : Int) : RoundingInterval :=
  let narrow := m = Nat.pow 2 52 ∧ minExponent < q
  ⟨4 * m - (if narrow then 1 else 2), 4 * m, 4 * m + 2, q - 2, m % 2 = 0⟩

/-- The number `t` of units and the number `c` of steps `10 ^ g`, over one denominator. -/
def scale (i : RoundingInterval) (g : Int) (t c : Nat) : Nat × Nat :=
  (t * Nat.pow 2 i.unitExponent.toNat * Nat.pow 10 (-g).toNat,
   c * Nat.pow 10 g.toNat * Nat.pow 2 (-i.unitExponent).toNat)

/-- Whether `c * 10 ^ g` lies in the interval. -/
def contains (i : RoundingInterval) (g : Int) (c : Nat) : Bool :=
  let (low, x) := i.scale g i.low c
  let (high, _) := i.scale g i.high c
  if i.closed then low ≤ x ∧ x ≤ high else low < x ∧ x < high

/--
The point of the grid of step `10 ^ g` that lies in the interval: one of the two neighbours of the
double, the nearer one if both do.
-/
def gridPoint? (i : RoundingInterval) (g : Int) : Option Nat :=
  let (value, step) := i.scale g i.middle 1
  let below := value / step
  match i.contains g below, i.contains g (below + 1) with
  | true, true => some (if 2 * (value % step) < step then below else below + 1)
  | true, false => some below
  | false, true => some (below + 1)
  | false, false => none

/-- Searches the grids from step `10 ^ g` down to the first that has a point in the interval. -/
def search (i : RoundingInterval) : Nat → Int → Decimal
  | 0, _ => Floating.zero
  | grids + 1, g =>
    match i.gridPoint? g with
    | some c => Floating.ofParts c g
    | none => i.search grids (g - 1)

/-- A power of ten at or above the double. -/
def leadingGrid (i : RoundingInterval) : Int :=
  let (value, step) := i.scale 0 i.middle 1
  if step ≤ value then digitCount 10 (value / step) else 2 - digitCount 10 (step / value)

end RoundingInterval

/--
The shortest decimal that reads back as the double `m * 2 ^ q`. Seventeen digits suffice for any
double, and the first grid may lie up to two places above the leading digit.
-/
def ofScaledDouble (m : Nat) (q : Int) : Decimal :=
  if m = 0 then Floating.zero
  else
    let i := RoundingInterval.ofDouble m q
    i.search 20 i.leadingGrid

/-- The shortest decimal that reads back as the finite double with these bits. -/
def ofBits (bits : Nat) : Decimal :=
  let fraction := bits % Nat.pow 2 52
  let field := bits / Nat.pow 2 52 % 2048
  let size :=
    if field = 0 then ofScaledDouble fraction minExponent
    else ofScaledDouble (fraction + Nat.pow 2 52) (minExponent + (field - 1 : Nat))
  if bits / Nat.pow 2 63 = 1 then size.negate else size

/-- The shortest decimal that reads back as a finite double; minus zero is zero. -/
def ofDouble (x : Float) : Decimal := ofBits x.toBits.toNat

end Decimal

end SymbolicAlgebra
