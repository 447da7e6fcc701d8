/-!
# Floating numbers in a radix

A floating number in radix `b` is `significand * b ^ exponent` for two integers, in canonical form:
the significand is not divisible by the radix, and zero has the exponent zero. Two such numbers are
equal as data exactly when they are equal as values, so equality needs no arithmetic.

The operations take the number `p` of significant digits they work with. They fall into two groups:

* `Floating.round` keeps `p` digits and sends a tie away from zero;
* `Floating.add`, `Floating.divide` and `Floating.squareRoot` compute one guarded result each. A sum
  that cancels may keep one digit more than `p`, a quotient keeps at least `p`: both keep what they
  have computed rather than rounding a second time.
-/

namespace SymbolicAlgebra

/-- A radix is a whole number above one. -/
class Radix (b : Nat) : Prop where
  /-- Positional notation needs at least two digits. -/
  one_lt : 1 < b

instance : Radix 2 := ⟨by decide⟩

instance : Radix 10 := ⟨by decide⟩

/-- The number of digits of `n` in base `b`; zero has none. -/
def digitCount (b : Nat) [Radix b] (n : Nat) : Nat :=
  if n = 0 then 0 else digitCount b (n / b) + 1
termination_by n
decreasing_by exact Nat.div_lt_self (by omega) Radix.one_lt

/-- The power `b ^ k` as an integer. -/
def radixPower (b k : Nat) : Int := Int.ofNat (Nat.pow b k)

/--
The whole number to add to `n` so that `n + low / unit` is rounded to the nearest whole number. A
tie goes away from zero, that is, in the direction of `low` unless `n` has the other sign.
-/
def roundingStep (n low unit : Int) : Int :=
  if 2 * low.natAbs < unit.natAbs then 0
  else if unit.natAbs < 2 * low.natAbs then low.sign
  else if n = 0 ∨ n.sign = low.sign then low.sign
  else 0

/-- A number `significand * b ^ exponent` in canonical form. -/
@[ext]
structure Floating (b : Nat) where
  /-- The digits, with their sign. -/
  significand : Int
  /-- The power of the radix that the digits are scaled by. -/
  exponent : Int
  /-- No trailing zeros, and one zero only. -/
  canonical : ¬ significand % (b : Int) = 0 ∨ significand = 0 ∧ exponent = 0
deriving DecidableEq

namespace Floating

variable {b : Nat}

/-- Moves trailing zeros of the significand into the exponent. -/
def strip (b : Nat) [Radix b] (significand exponent : Int) : Int × Int :=
  if significand % (b : Int) = 0 ∧ significand ≠ 0 then
    strip b (significand / (b : Int)) (exponent + 1)
  else (significand, exponent)
termination_by significand.natAbs
decreasing_by
  have hb : 1 < b := Radix.one_lt
  rename_i h
  obtain ⟨k, hk⟩ := Int.dvd_of_emod_eq_zero h.1
  have hb' : (b : Int) ≠ 0 := by omega
  rw [hk, Int.mul_ediv_cancel_left _ hb', Int.natAbs_mul, Int.natAbs_natCast]
  have hk0 : 0 < k.natAbs := by
    rcases Nat.eq_zero_or_pos k.natAbs with h0 | h0
    · exact absurd (by rw [hk, Int.natAbs_eq_zero.1 h0, Int.mul_zero]) h.2
    · exact h0
  calc k.natAbs = 1 * k.natAbs := (Nat.one_mul _).symm
    _ < b * k.natAbs := Nat.mul_lt_mul_of_pos_right hb hk0

/-- Stripping leaves no trailing zero, unless there is nothing but zero. -/
theorem strip_canonical [Radix b] (s e : Int) :
    ¬ (strip b s e).1 % (b : Int) = 0 ∨ (strip b s e).1 = 0 := by
  fun_induction strip b s e with
  | case1 s e h ih => exact ih
  | case2 s e h =>
    by_cases h0 : s = 0
    · exact Or.inr h0
    · exact Or.inl fun hd => h ⟨hd, h0⟩

/-- The number zero. -/
def zero : Floating b := ⟨0, 0, Or.inr ⟨rfl, rfl⟩⟩

instance : Inhabited (Floating b) := ⟨zero⟩

/-- The number `significand * b ^ exponent`, brought into canonical form. -/
def ofParts [Radix b] (significand exponent : Int) : Floating b :=
  let parts := strip b significand exponent
  if h : parts.1 = 0 then zero
  else ⟨parts.1, parts.2, Or.inl ((strip_canonical significand exponent).resolve_right h)⟩

/-- The number of significant digits. -/
def digits [Radix b] (x : Floating b) : Nat := digitCount b x.significand.natAbs

/-- The number with the other sign. -/
def negate (x : Floating b) : Floating b :=
  ⟨-x.significand, x.exponent, by
    rcases x.canonical with h | h
    · exact Or.inl fun h0 =>
        h (Int.emod_eq_zero_of_dvd ((Int.dvd_neg).1 (Int.dvd_of_emod_eq_zero h0)))
    · exact Or.inr ⟨by rw [h.1]; rfl, h.2⟩⟩

/-- The nearest number with at most `p` significant digits; a tie goes away from zero. -/
def round [Radix b] (p : Nat) (x : Floating b) : Floating b :=
  let d := x.digits
  if d ≤ p then x
  else
    let unit := radixPower b (d - p)
    let high := x.significand.tdiv unit
    let low := x.significand.tmod unit
    ofParts (high + roundingStep high low unit) (x.exponent + (d - p : Nat))

/-- The product, rounded to `p` digits. -/
def multiply [Radix b] (p : Nat) (x y : Floating b) : Floating b :=
  round p (ofParts (x.significand * y.significand) (x.exponent + y.exponent))

/-! ## Addition

A sum aligns the operand with the smaller exponent to the other one. What does not fit into the
working width is kept apart as a low part, so that the final rounding sees on which side of a tie
the exact sum lies. -/

/--
A sum under construction: `high * b ^ exponent` plus a low part of `lowDigits` further digits,
`low * b ^ (exponent - lowDigits)`.
-/
structure Aligned where
  /-- The leading digits. -/
  high : Int
  /-- The exponent of the leading digits. -/
  exponent : Int
  /-- The digits below them. -/
  low : Int
  /-- How many digits the low part has. -/
  lowDigits : Nat

/-- Splits `s` after its last `k` digits, truncating toward zero. -/
def splitDigits (b : Nat) (s : Int) (k : Nat) : Int × Int :=
  (s.tdiv (radixPower b k), s.tmod (radixPower b k))

namespace Aligned

/--
The aligned sum of `large`, whose exponent is the larger one, and `small`. `width` is the number of
digits that the result is going to keep. Nothing is dropped when the exact sum is short or when it
may cancel; an operand far below the other one only leaves its sign in the low part.
-/
def ofOperands [Radix b] (p width : Nat) (large small : Floating b) : Aligned :=
  let gap := (large.exponent - small.exponent).toNat
  let largeDigits := large.digits
  let smallDigits := small.digits
  let cancels := large.significand.sign ≠ small.significand.sign
  let exact : Aligned :=
    ⟨large.significand * radixPower b gap + small.significand, small.exponent, 0, 0⟩
  if cancels ∧ largeDigits + gap ≤ smallDigits + p then exact
  else if smallDigits + 1 < gap ∧ smallDigits + 1 + width < largeDigits + gap then
    ⟨large.significand, large.exponent, small.significand.sign, gap⟩
  else if p ≤ largeDigits then
    let (h, l) := splitDigits b small.significand gap
    ⟨large.significand + h, large.exponent, l, gap⟩
  else if p < gap + largeDigits then
    let left := p - largeDigits
    let right := gap - left
    let (h, l) := splitDigits b small.significand right
    ⟨large.significand * radixPower b left + h, large.exponent - left, l, right⟩
  else exact

/-- Brings the leading part to `width` digits, as far as the low part has digits to give. -/
def adjust (b : Nat) [Radix b] (width : Nat) (a : Aligned) : Aligned :=
  let d := digitCount b a.high.natAbs
  if width < d then
    let k := d - width
    let (h, l) := splitDigits b a.high k
    ⟨h, a.exponent + k, a.low + l * radixPower b a.lowDigits, a.lowDigits + k⟩
  else if d < width ∧ a.low ≠ 0 then
    let k := min a.lowDigits (width - d)
    let (pad, l) := splitDigits b a.low (a.lowDigits - k)
    ⟨a.high * radixPower b k + pad, a.exponent - k, l, a.lowDigits - k⟩
  else a

/-- Rounds the low part into the leading part. -/
def toFloating [Radix b] (a : Aligned) : Floating b :=
  ofParts (a.high + roundingStep a.high a.low (radixPower b a.lowDigits)) a.exponent

end Aligned

/--
The sum with `p` digits, or with `p + 1` digits where the signs differ. An operand added to zero
comes back untouched.
-/
def add [Radix b] (p : Nat) (x y : Floating b) : Floating b :=
  if x.significand = 0 then y
  else if y.significand = 0 then x
  else if x.exponent = y.exponent then
    round p (ofParts (x.significand + y.significand) x.exponent)
  else
    let width := if x.significand.sign ≠ y.significand.sign then p + 1 else p
    let aligned :=
      if y.exponent < x.exponent then Aligned.ofOperands p width x y
      else Aligned.ofOperands p width y x
    (aligned.adjust b width).toFloating

/-! ## Division and square root -/

/--
The quotient `x / y` for a `y` other than zero. It is exact when the significands divide; else it
keeps `p` digits, or the digits of the whole quotient of the significands where those are more.
-/
def divide [Radix b] (p : Nat) (x y : Floating b) : Floating b :=
  let n := x.significand
  let d := y.significand
  let e := x.exponent - y.exponent
  let q := n.tdiv d
  let r := n.tmod d
  if r = 0 then ofParts q e
  else if q = 0 then
    let k := digitCount b d.natAbs + p - digitCount b r.natAbs
    let q := (r * radixPower b k).tdiv d
    let r := (r * radixPower b k).tmod d
    ofParts (q + quotientStep q r d) (e - k)
  else
    let k := p - digitCount b q.natAbs
    let q' := q * radixPower b k + (r * radixPower b k).tdiv d
    let r' := (r * radixPower b k).tmod d
    ofParts (q' + quotientStep q' r' d) (e - k)
where
  /-- The rounding step for the remainder `r` of a division by `d`. -/
  quotientStep (q r d : Int) : Int := roundingStep q (r * d.sign) d

/--
The square root of a number above zero. The significand is scaled to about twice the working digits
and an even exponent, its whole square root is rounded to nearest, and the result is rounded to `p`
digits once more.
-/
def squareRoot [Radix b] (p : Nat) (x : Floating b) : Floating b :=
  if x.significand = 0 then x
  else
    let d := x.digits
    let k : Int := 2 * p - (d % 2 : Nat) + x.exponent % 2 - d
    let v := if 0 ≤ k then x.significand.natAbs * Nat.pow b k.toNat
      else x.significand.natAbs / Nat.pow b (-k).toNat
    let root := Nat.sqrt v
    let root := if root < v - root * root then root + 1 else root
    round p (ofParts (root : Int) ((x.exponent - k) / 2))

/-! ## Order -/

/-- The order of the values: both significands are scaled to the smaller exponent. -/
def order (x y : Floating b) : Ordering :=
  let e := min x.exponent y.exponent
  compare (x.significand * radixPower b (x.exponent - e).toNat)
    (y.significand * radixPower b (y.exponent - e).toNat)

/-- A number without digits below the point is whole. -/
def toInt? (x : Floating b) : Option Int :=
  if 0 ≤ x.exponent then some (x.significand * radixPower b x.exponent.toNat) else none

/-- The exact value. -/
def toRat (x : Floating b) : Rat :=
  if 0 ≤ x.exponent then (x.significand * radixPower b x.exponent.toNat : Int)
  else Rat.divInt x.significand (radixPower b (-x.exponent).toNat)

end Floating

end SymbolicAlgebra
