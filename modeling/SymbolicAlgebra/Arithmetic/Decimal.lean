import SymbolicAlgebra.Arithmetic.Floating

/-!
# Decimals of fifty digits

The arithmetic of finite reals: floating numbers in radix ten, computed with fifty significant
digits, and their plain notation.
-/

namespace SymbolicAlgebra

/-- A number in decimal notation. -/
abbrev Decimal := Floating 10

namespace Decimal

/-- The number of significant digits that the operations work with. -/
def precision : Nat := 50

/-- The decimal of a whole number, rounded to the working precision. -/
def ofInt (n : Int) : Decimal := (Floating.ofParts n 0).round precision

/-- The sum. -/
def add (x y : Decimal) : Decimal := Floating.add precision x y

/-- The product. -/
def mul (x y : Decimal) : Decimal := Floating.multiply precision x y

/-- The quotient by a decimal other than zero. -/
def div (x y : Decimal) : Decimal := Floating.divide precision x y

/-- The square root of a decimal that is not negative. -/
def sqrt (x : Decimal) : Decimal := Floating.squareRoot precision x

/-- The approximation of a fraction: the numerator over the denominator, both rounded. -/
def ofRat (r : Rat) : Decimal := div (ofInt r.num) (ofInt r.den)

/-- Whether the decimal is zero. -/
def isZero (x : Decimal) : Bool := x.significand == 0

/-- Whether the decimal lies below zero. -/
def isNegative (x : Decimal) : Bool := x.significand < 0

/--
Plain notation: all digits and no exponent, `0.` before a leading fraction, no point in a whole
number.
-/
def toText (x : Decimal) : String :=
  let sign := if x.significand < 0 then "-" else ""
  let digits := toString x.significand.natAbs
  let zeros (n : Nat) : String := String.ofList (List.replicate n '0')
  let body :=
    if 0 ≤ x.exponent then digits ++ zeros x.exponent.toNat
    else
      let places := (-x.exponent).toNat
      if places < digits.length then
        let whole := digits.length - places
        String.ofList (digits.toList.take whole) ++ "."
          ++ String.ofList (digits.toList.drop whole)
      else "0." ++ zeros (places - digits.length) ++ digits
  if x.significand = 0 then "0" else sign ++ body

end Decimal

end SymbolicAlgebra
