import SymbolicAlgebra.Arithmetic.Fault

/-!
# Integers and rationals

Core integers and rationals carry the exact levels of the number tower. This module adds the
operations with a rule of their own: the partial ones, machine ranges, powers and notation.
-/

namespace SymbolicAlgebra

/-! ## Integers -/

/--
The remainder of a division. It is never negative: `remainder (-7) 3` and `remainder (-7) (-3)` are
both 2.
-/
def remainder (a b : Int) : Except ArithmeticFault Int :=
  if b = 0 then .error .remainderByZero else .ok (a % b)

/-- The greatest common divisor of two numbers that are not both zero. -/
def greatestCommonDivisor (a b : Int) : Except ArithmeticFault Int :=
  if a = 0 ∧ b = 0 then .error .gcdOfZeros else .ok (Int.gcd a b)

/-- The least common multiple; it is zero when one of the numbers is. -/
def leastCommonMultiple (a b : Int) : Int := Int.lcm a b

/-- The power of an integer. -/
def integerPower (a : Int) (k : Nat) : Int :=
  let size : Int := (Nat.pow a.natAbs k : Nat)
  if a < 0 ∧ k % 2 = 1 then -size else size

/-- The number, if it fits into a signed word of `bits` bits. -/
def toSignedWord? (bits : Nat) (a : Int) : Option Int :=
  let bound : Int := (Nat.pow 2 (bits - 1) : Nat)
  if -bound ≤ a ∧ a < bound then some a else none

/-- The number, if it fits into an unsigned word of `bits` bits. -/
def toUnsignedWord? (bits : Nat) (a : Int) : Option Nat :=
  if 0 ≤ a ∧ a < (Nat.pow 2 bits : Nat) then some a.toNat else none

/--
Whether two integers are one and the same object: 0, 1 and −1 exist once, any other number exists
anew for each computation.
-/
def isSameObject (a b : Int) : Bool := a == b && a.natAbs ≤ 1

/-! ## Rationals -/

/-- The fraction `p / q` in lowest terms. -/
def fraction (p q : Int) : Except ArithmeticFault Rat :=
  if q = 0 then .error .zeroDenominator else .ok (Rat.divInt p q)

/-- The reciprocal of a rational other than zero. -/
def reciprocal (r : Rat) : Except ArithmeticFault Rat :=
  if r.num = 0 then .error .reciprocalOfZero else .ok (Rat.divInt r.den r.num)

/-- The quotient of two rationals. -/
def quotient (a b : Rat) : Except ArithmeticFault Rat :=
  if b.num = 0 then .error .rationalDivisionByZero else .ok (a / b)

/-- The power with a whole exponent; a negative power of zero has no value. -/
def rationalPower? (r : Rat) (k : Int) : Option Rat :=
  let num := integerPower r.num k.natAbs
  let den : Int := (Nat.pow r.den k.natAbs : Nat)
  if 0 ≤ k then some (Rat.divInt num den)
  else if num = 0 then none
  else some (Rat.divInt den num)

/-- The numerator of a rational with the denominator one. -/
def wholePart? (r : Rat) : Option Int := if r.den = 1 then some r.num else none

/-- The order of two rationals. -/
def compareRationals (a b : Rat) : Ordering := compare (a.num * b.den) (b.num * a.den)

/-- The absolute value. -/
def rationalAbs (r : Rat) : Rat := if r.num < 0 then -r else r

/-- A rational is written `p/q`, and without the denominator where that is one. -/
def rationalText (r : Rat) : String :=
  if r.den = 1 then toString r.num else toString r.num ++ "/" ++ toString r.den

/-- The square root of a perfect square. -/
def exactSquareRoot? (a : Int) : Option Int :=
  if a < 0 then none
  else
    let root := Nat.sqrt a.natAbs
    if root * root = a.natAbs then some root else none

end SymbolicAlgebra
