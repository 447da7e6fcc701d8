import SymbolicAlgebra.Arithmetic.Exact
import SymbolicAlgebra.Arithmetic.Extended
import SymbolicAlgebra.Arithmetic.Factorization

/-!
# The number tower

A number is an integer, a rational, an extended real or a complex number. A binary operation works
on the wider of the two levels and then moves its result down to the narrowest level that holds it
exactly. On integers and rationals the results are exact; division by zero gives `NaN` on every
level.

A number keeps the level that it was given: a rational may have the denominator one, a real may be
whole. `Number.downcast` removes this freedom, and every operation but negation ends with it.
-/

namespace SymbolicAlgebra

/-- The levels of the tower, the narrowest first. -/
inductive Level where
  /-- Whole numbers. -/
  | integer
  /-- Fractions. -/
  | rational
  /-- Decimals, infinities and `NaN`. -/
  | real
  /-- Complex numbers. -/
  | complex
deriving DecidableEq, Repr

/-- The name of a level. -/
def Level.name : Level → String
  | integer => "Integer"
  | rational => "Rational"
  | real => "Real"
  | complex => "Complex"

/-- The wider of two levels. -/
def Level.join : Level → Level → Level
  | complex, _ | _, complex => complex
  | real, _ | _, real => real
  | rational, _ | _, rational => rational
  | integer, integer => integer

/-- A number of the tower. -/
inductive Number where
  /-- A whole number. -/
  | int (value : Int)
  /-- A fraction. -/
  | rat (value : Rat)
  /-- An extended real. -/
  | real (value : ExtReal)
  /-- A complex number. -/
  | complex (value : ExtComplex)
deriving DecidableEq

namespace Number

instance : Inhabited Number := ⟨.int 0⟩

instance (n : Nat) : OfNat Number n := ⟨.int n⟩

/-- The level that the number is given at. -/
def level : Number → Level
  | .int _ => .integer
  | .rat _ => .rational
  | .real _ => .real
  | .complex _ => .complex

/-- No meaningful value. -/
def nan : Number := .real .nan

/-- A rational on its narrowest level. -/
def ofRat (r : Rat) : Number :=
  match wholePart? r with
  | some n => .int n
  | none => .rat r

/-- A real on its narrowest level. -/
def ofReal (x : ExtReal) : Number :=
  match x.toInt? with
  | some n => .int n
  | none => .real x

/-- A complex number on its narrowest level. -/
def ofComplex (z : ExtComplex) : Number := if z.isReal then ofReal z.re else .complex z

/-- A double on its narrowest level. -/
def ofDouble (x : Float) : Number := ofReal (.ofDouble x)

/-- The same value on the narrowest level that holds it exactly. -/
def downcast : Number → Number
  | .int n => .int n
  | .rat r => ofRat r
  | .real x => ofReal x
  | .complex z => ofComplex z

/-- The value of a number on one of the exact levels. -/
def toRat? : Number → Option Rat
  | .int n => some n
  | .rat r => some r
  | _ => none

/-- The value on the real line, if the number lies there. -/
def toReal? : Number → Option ExtReal
  | .int n => some (.ofInt n)
  | .rat r => some (.ofRat r)
  | .real x => some x
  | .complex z => if z.isReal then some z.re else none

/-- The value on the real line, `NaN` off it. -/
def toReal (a : Number) : ExtReal := a.toReal?.getD .nan

/-- The number as a complex one. -/
def toComplex : Number → ExtComplex
  | .complex z => z
  | a => .ofReal a.toReal

/-- The integer that a number of the lowest level is. -/
def toInt? : Number → Option Int
  | .int n => some n
  | _ => none

/-- Whether the number lies on the real line. -/
def isReal : Number → Bool
  | .complex z => z.isReal
  | _ => true

/-- Whether the number is `NaN`, or has such a part. -/
def isNaN : Number → Bool
  | .real x => x.isNaN
  | .complex z => z.re.isNaN || z.im.isNaN
  | _ => false

/-- Whether the number is zero, on any level. -/
def isZero : Number → Bool
  | .int n => n == 0
  | .rat r => r.num == 0
  | .real x => x.isZero
  | .complex z => z.re.isZero && z.im.isZero

/-- Whether the number is one, on any level. -/
def isOne (a : Number) : Bool := a.downcast == .int 1

/--
The numeric order across the levels. Two exact numbers compare exactly; complex numbers and `NaN`
have no place in the order.
-/
def compare? (a b : Number) : Option Ordering :=
  match a.toRat?, b.toRat? with
  | some p, some q => some (compareRationals p q)
  | _, _ =>
    match a.toReal?, b.toReal? with
    | some x, some y => x.compare? y
    | _, _ => none

/-- Whether the number is ordered and below zero. -/
def isNegative (a : Number) : Bool := a.compare? 0 == some .lt

/-- Whether the number is ordered and above zero. -/
def isPositive (a : Number) : Bool := a.compare? 0 == some .gt

/-! ## Operations -/

/-- A binary operation, given by what it does on each level. -/
def lift (onRat : Rat → Rat → Rat) (onReal : ExtReal → ExtReal → ExtReal)
    (onComplex : ExtComplex → ExtComplex → ExtComplex) (a b : Number) : Number :=
  match a.toRat?, b.toRat? with
  | some p, some q => ofRat (onRat p q)
  | _, _ =>
    match a.level.join b.level with
    | .complex => ofComplex (onComplex a.toComplex b.toComplex)
    | _ => ofReal (onReal a.toReal b.toReal)

/-- The sum. -/
def add : Number → Number → Number := lift (· + ·) .add .add

/-- The difference. -/
def sub : Number → Number → Number := lift (· - ·) .sub .sub

/-- The product. -/
def mul : Number → Number → Number := lift (· * ·) .mul .mul

/-- The quotient; a division by zero has none. -/
def div (a b : Number) : Number := if b.isZero then nan else lift (· / ·) .div .div a b

/-- The number with the other sign, on its level. -/
def neg : Number → Number
  | .int n => .int (-n)
  | .rat r => .rat (-r)
  | .real x => .real x.negate
  | .complex z => .complex z.negate

instance : Add Number := ⟨add⟩
instance : Sub Number := ⟨sub⟩
instance : Mul Number := ⟨mul⟩
instance : Div Number := ⟨div⟩
instance : Neg Number := ⟨neg⟩

/-- The remainder of two integers; other levels and a zero divisor have none. -/
def rem : Number → Number → Number
  | .int a, .int b => if b = 0 then nan else .int (a % b)
  | _, _ => nan

/-- The quotient of two integers, on its narrowest level. -/
def ofQuotient (a b : Int) : Number := if b = 0 then nan else ofRat (Rat.divInt a b)

/-- The absolute value, on its narrowest level. -/
def abs : Number → Number
  | .int n => .int n.natAbs
  | .rat r => ofRat (rationalAbs r)
  | .real x => ofReal x.abs
  | .complex z => ofReal z.modulus

/-- The root of a rational that is not negative: exact for the square of a rational. -/
def rootOfRat (r : Rat) : Number :=
  match exactSquareRoot? r.num, exactSquareRoot? r.den with
  | some p, some q => ofRat (Rat.divInt p q)
  | _, _ => ofReal (ExtReal.ofRat r).sqrt

/-- The principal root of a rational, purely imaginary below zero. -/
def sqrtOfRat (r : Rat) : Number :=
  if r.num < 0 then ofComplex ⟨.zero, (rootOfRat (-r)).toReal⟩ else rootOfRat r

/-- The principal square root. -/
def sqrt : Number → Number
  | .int n => sqrtOfRat n
  | .rat r => sqrtOfRat r
  | .real x => if x.isNegative then ofComplex ⟨.zero, x.negate.sqrt⟩ else ofReal x.sqrt
  | .complex z => ofComplex z.sqrt

/--
The power. It is exact for a machine-sized whole exponent over an exact base, and a square root for
the exponent 1/2. Any other power is approximate: in double precision on the real line, by the
complex logarithm for a negative or complex base or a complex exponent.
-/
def pow (a b : Number) : Number :=
  match a.toRat?, b.toInt?.bind (toSignedWord? 32) with
  | some base, some k => (rationalPower? base k).elim nan ofRat
  | _, _ =>
    if b = .rat (Rat.divInt 1 2) then a.sqrt
    else
      match a.toReal?, b.toReal? with
      | some x, some y =>
        if x.isNegative then ofComplex (a.toComplex.pow b.toComplex)
        else ofDouble (Float.pow x.toDouble y.toDouble)
      | _, _ => ofComplex (a.toComplex.pow b.toComplex)

/-- The notation of the value; it does not show the level. -/
def toText : Number → String
  | .int n => toString n
  | .rat r => rationalText r
  | .real x => x.toText
  | .complex z => z.toText

end Number

end SymbolicAlgebra
