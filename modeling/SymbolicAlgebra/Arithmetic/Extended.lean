import SymbolicAlgebra.Arithmetic.Binary64

/-!
# Extended reals

A real is a decimal, one of the two infinities, or `NaN`, the value of an operation without a
meaningful result. The extra values keep the four operations total. Equality is equality of data, so
`NaN` equals itself; `ExtReal.compare?` is the numeric order, which `NaN` has no place in.
-/

namespace SymbolicAlgebra

/-- A decimal, an infinity, or `NaN`. -/
inductive ExtReal where
  /-- A finite real. -/
  | finite (value : Decimal)
  /-- Positive infinity. -/
  | posInf
  /-- Negative infinity. -/
  | negInf
  /-- No meaningful value. -/
  | nan
deriving DecidableEq, Inhabited

namespace ExtReal

/-- Finite zero. -/
def zero : ExtReal := .finite Floating.zero

/-- The real for a whole number, to the working precision. -/
def ofInt (n : Int) : ExtReal := .finite (Decimal.ofInt n)

/-- The real for a rational, to the working precision. -/
def ofRat (r : Rat) : ExtReal := .finite (Decimal.ofRat r)

/-- The shortest decimal that reads back as a double, or the special value. -/
def ofDouble (x : Float) : ExtReal :=
  if x.isNaN then .nan
  else if x.isInf then (if 0 < x then .posInf else .negInf)
  else .finite (Decimal.ofDouble x)

/-- The double nearest to a real. -/
def toDouble : ExtReal → Float
  | .finite d => Decimal.toFloat d
  | .posInf => 1.0 / 0.0
  | .negInf => -1.0 / 0.0
  | .nan => 0.0 / 0.0

/-- Whether the real is finite. -/
def isFinite : ExtReal → Bool
  | .finite _ => true
  | _ => false

/-- Whether the real is `NaN`. -/
def isNaN : ExtReal → Bool
  | .nan => true
  | _ => false

/-- Whether the real is an infinity. -/
def isInfinite : ExtReal → Bool
  | .posInf | .negInf => true
  | _ => false

/-- Whether the real is zero. -/
def isZero : ExtReal → Bool
  | .finite d => Decimal.isZero d
  | _ => false

/-- The numeric order; nothing compares with `NaN`. -/
def compare? : ExtReal → ExtReal → Option Ordering
  | .nan, _ | _, .nan => none
  | .finite a, .finite b => some (a.order b)
  | .posInf, .posInf | .negInf, .negInf => some .eq
  | .posInf, _ | _, .negInf => some .gt
  | .negInf, _ | _, .posInf => some .lt

/-- Whether the real lies below zero. -/
def isNegative (x : ExtReal) : Bool := x.compare? zero == some .lt

/-- Whether the real lies above zero. -/
def isPositive (x : ExtReal) : Bool := x.compare? zero == some .gt

/-- The whole number that the real equals. -/
def toInt? : ExtReal → Option Int
  | .finite d => d.toInt?
  | _ => none

/-- The real with the other sign. -/
def negate : ExtReal → ExtReal
  | .finite d => .finite d.negate
  | .posInf => .negInf
  | .negInf => .posInf
  | .nan => .nan

/-- The absolute value. -/
def abs (x : ExtReal) : ExtReal := if x.isNegative then x.negate else x

/-- The principal square root; there is none below zero. -/
def sqrt : ExtReal → ExtReal
  | .finite d => if Decimal.isNegative d then .nan else .finite (Decimal.sqrt d)
  | .posInf => .posInf
  | _ => .nan

/-- The sum; infinities of opposite signs have none. -/
def add : ExtReal → ExtReal → ExtReal
  | .finite a, .finite b => .finite (Decimal.add a b)
  | .nan, _ | _, .nan => .nan
  | .posInf, .negInf | .negInf, .posInf => .nan
  | .posInf, _ | _, .posInf => .posInf
  | .negInf, _ | _, .negInf => .negInf

/-- The difference: the sum with the negated subtrahend. -/
def sub (x y : ExtReal) : ExtReal := x.add y.negate

/-- The product; an infinity times zero has none. -/
def mul (x y : ExtReal) : ExtReal :=
  match x, y with
  | .finite a, .finite b => .finite (Decimal.mul a b)
  | .nan, _ | _, .nan => .nan
  | _, _ =>
    if x.isZero || y.isZero then .nan
    else if x.compare? zero == y.compare? zero then .posInf
    else .negInf

/-- The quotient; a division by zero and a quotient of infinities have none. -/
def div (x y : ExtReal) : ExtReal :=
  if y.isZero then .nan
  else
    match x, y with
    | .finite a, .finite b => .finite (Decimal.div a b)
    | .nan, _ | _, .nan => .nan
    | .finite _, _ => zero
    | _, .finite _ => if x.isPositive == y.isPositive then .posInf else .negInf
    | _, _ => .nan

/-- Plain notation for decimals, `+oo`, `-oo` and `NaN` for the others. -/
def toText : ExtReal → String
  | .finite d => Decimal.toText d
  | .posInf => "+oo"
  | .negInf => "-oo"
  | .nan => "NaN"

end ExtReal

/-! ## Complex numbers -/

/-- A complex number `re + im * i` over the extended reals. -/
structure ExtComplex where
  /-- The real part. -/
  re : ExtReal
  /-- The imaginary part. -/
  im : ExtReal
deriving DecidableEq, Inhabited

namespace ExtComplex

/-- The complex number on the real line. -/
def ofReal (x : ExtReal) : ExtComplex := ⟨x, .zero⟩

/-- The complex number with these doubles as parts. -/
def ofDoubles (re im : Float) : ExtComplex := ⟨.ofDouble re, .ofDouble im⟩

/-- The imaginary unit. -/
def unit : ExtComplex := ⟨.zero, .ofInt 1⟩

/-- Whether the number lies on the real line. -/
def isReal (z : ExtComplex) : Bool := z.im.isZero

/-- The conjugate. -/
def conj (z : ExtComplex) : ExtComplex := ⟨z.re, z.im.negate⟩

/-- The number with the other sign. -/
def negate (z : ExtComplex) : ExtComplex := ⟨z.re.negate, z.im.negate⟩

/-- The squared modulus. -/
def normSq (z : ExtComplex) : ExtReal := (z.re.mul z.re).add (z.im.mul z.im)

/-- The modulus. -/
def modulus (z : ExtComplex) : ExtReal := z.normSq.sqrt

/-- The principal argument as a double. -/
def arg (z : ExtComplex) : Float := Float.atan2 z.im.toDouble z.re.toDouble

/-- The sum. -/
def add (z w : ExtComplex) : ExtComplex := ⟨z.re.add w.re, z.im.add w.im⟩

/-- The difference. -/
def sub (z w : ExtComplex) : ExtComplex := ⟨z.re.sub w.re, z.im.sub w.im⟩

/--
The product. Two numbers on the real line are multiplied there: the cross terms would turn an
infinite part into `NaN`.
-/
def mul (z w : ExtComplex) : ExtComplex :=
  if z.isReal && w.isReal then ofReal (z.re.mul w.re)
  else ⟨(z.re.mul w.re).sub (z.im.mul w.im), (z.re.mul w.im).add (z.im.mul w.re)⟩

/-- The quotient, part by part where the divisor lies on the real line. -/
def div (z w : ExtComplex) : ExtComplex :=
  if w.isReal then ⟨z.re.div w.re, z.im.div w.re⟩
  else
    let n := z.mul w.conj
    let d := w.normSq
    ⟨n.re.div d, n.im.div d⟩

/--
The principal square root: `sqrt ((|z| + re) / 2)` and, with the sign of the imaginary part,
`sqrt ((|z| - re) / 2)`.
-/
def sqrt (z : ExtComplex) : ExtComplex :=
  let two := ExtReal.ofInt 2
  let m := z.modulus
  let re := ((m.add z.re).div two).sqrt
  let im := ((m.sub z.re).div two).sqrt
  ⟨re, if z.im.isNegative then im.negate else im⟩

/-- The exponential. -/
def exp (z : ExtComplex) : ExtComplex :=
  let scale := Float.exp z.re.toDouble
  let angle := z.im.toDouble
  ofDoubles (scale * Float.cos angle) (scale * Float.sin angle)

/-- The principal logarithm. -/
def log (z : ExtComplex) : ExtComplex :=
  ⟨.ofDouble (Float.log z.modulus.toDouble), .ofDouble z.arg⟩

/--
The principal power `e ^ (w * log z)`. A power of zero is zero where the real part of the exponent
is positive, and `NaN` elsewhere.
-/
def pow (z w : ExtComplex) : ExtComplex :=
  if z.re.isZero && z.im.isZero then
    if w.re.isPositive then ⟨.zero, .zero⟩ else ⟨.nan, .nan⟩
  else (w.mul z.log).exp

/-- The sine, `sin a cosh b + i cos a sinh b`. -/
def sin (z : ExtComplex) : ExtComplex :=
  let a := z.re.toDouble
  let b := z.im.toDouble
  ofDoubles (Float.sin a * Float.cosh b) (Float.cos a * Float.sinh b)

/-- The cosine, `cos a cosh b - i sin a sinh b`. -/
def cos (z : ExtComplex) : ExtComplex :=
  let a := z.re.toDouble
  let b := z.im.toDouble
  ofDoubles (Float.cos a * Float.cosh b) (-(Float.sin a * Float.sinh b))

/-- `re + im i`, with a minus for a negative imaginary part and without a zero real part. -/
def toText (z : ExtComplex) : String :=
  if z.re.isZero then z.im.toText ++ "i"
  else if z.im.isNegative then z.re.toText ++ " - " ++ z.im.negate.toText ++ "i"
  else z.re.toText ++ " + " ++ z.im.toText ++ "i"

end ExtComplex

end SymbolicAlgebra
