/-!
# Arithmetic faults

Exact arithmetic is partial at a few places: a remainder or a quotient by zero, a fraction without a
denominator, the greatest common divisor of two zeros. Operations that can meet such a place return
an `ArithmeticFault` instead of a value.
-/

namespace SymbolicAlgebra

/-- The reasons for which an exact operation has no value. -/
inductive ArithmeticFault where
  /-- The remainder of a division by zero. -/
  | remainderByZero
  /-- The greatest common divisor of zero and zero. -/
  | gcdOfZeros
  /-- A fraction with the denominator zero. -/
  | zeroDenominator
  /-- The reciprocal of zero. -/
  | reciprocalOfZero
  /-- The quotient of a rational by zero. -/
  | rationalDivisionByZero
deriving DecidableEq, Repr

/-- The text that reports a fault. -/
def ArithmeticFault.message : ArithmeticFault → String
  | remainderByZero => "divisor must not be 0"
  | gcdOfZeros => "the greatest common divisor is not defined between zeros!"
  | zeroDenominator => "rational with zero denominator"
  | reciprocalOfZero => "reciprocal of zero"
  | rationalDivisionByZero => "Divisor or denominator must not be zero!"

end SymbolicAlgebra
