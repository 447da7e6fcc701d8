import SymbolicAlgebra.Expr.Equality

/-!
# Identities of functions

Patterns for the totient, the exponential, the logarithm and the trigonometric functions. Each
function here changes one kind of node and returns any other node as it is.
-/

namespace SymbolicAlgebra

/-! ## Totients -/

namespace Totient

/-- The prime that an integer literal stands for. -/
def primeLiteral? (e : Expr) : Option Int := e.toInt?.filter isPrime

/-- The exponent less one; a literal exponent has to be a positive integer. -/
def loweredExponent? (x : Expr) : Option Expr :=
  match x with
  | .number (.int k) => if 0 < k then some (.int (k - 1)) else none
  | .number _ => none
  | _ => some (.sumOf [x, .int (-1)])

/-- The totient of `p ^ k` is `p ^ (k - 1) * (p - 1)` for a prime literal `p`. -/
def ofPrimePower (e : Expr) : Expr :=
  match e.argOf? .phi with
  | some (.power b x) =>
    match primeLiteral? b, loweredExponent? x with
    | some p, some k => .productOf [.power b k, .int (p - 1)]
    | _, _ => e
  | _ => e

/-- The totient of a prime literal `p` is `p - 1`. -/
def ofPrime (e : Expr) : Expr :=
  match (e.argOf? .phi).bind primeLiteral? with
  | some p => .int (p - 1)
  | none => e

/-- The totient of an integer literal. -/
def ofInteger (e : Expr) : Expr :=
  match (e.argOf? .phi).bind Expr.toInt? with
  | some n => .int (totient n)
  | none => e

end Totient

/-! ## Exponential and logarithm -/

namespace ExpLog

/-- The exponential of zero is one. -/
def expSpecial (e : Expr) : Expr :=
  match e.argOf? .exp with
  | some a => if a.isZero then 1 else e
  | none => e

/-- The logarithms of one and of `e` are zero and one. -/
def lnSpecial (e : Expr) : Expr :=
  match e.argOf? .ln with
  | some a => if a.isOne then 0 else if a.toVar? = some "e" then 1 else e
  | none => e

/-- The exponential undoes the logarithm. -/
def expOfLn (e : Expr) : Expr := ((e.argOf? .exp).bind (Expr.argOf? .ln)).getD e

/-- The logarithm undoes the exponential. -/
def lnOfExp (e : Expr) : Expr := ((e.argOf? .ln).bind (Expr.argOf? .exp)).getD e

end ExpLog

/-! ## Trigonometry -/

namespace Trigonometry

/-- The values of the functions at zero. -/
def atZero? : Func → Option Expr
  | .sin | .tan | .arcsin | .arctan => some 0
  | .cos => some 1
  | _ => none

/-- The values of the functions at `pi`. -/
def atPi? : Func → Option Expr
  | .sin | .tan => some 0
  | .cos => some (.int (-1))
  | _ => none

/-- Values at zero and at `pi`. -/
def specialValues (e : Expr) : Expr :=
  match e with
  | .apply f [a] =>
    if a.isZero then (atZero? f).getD e
    else if a.toVar? = some "pi" then (atPi? f).getD e
    else e
  | _ => e

/-- Odd functions move a sign out, the cosine drops it. -/
def parity (e : Expr) : Expr :=
  match e with
  | .apply f [.neg a] =>
    match f with
    | .sin | .tan | .arcsin | .arctan => -.call f a
    | .cos => .call f a
    | _ => e
  | _ => e

/-- The argument of `f` applied to the inverse function. -/
def undone? (f inverse : Func) (e : Expr) : Option Expr :=
  (e.argOf? f).bind (Expr.argOf? inverse)

/-- A function applied to its inverse gives the argument. -/
def inverseComposition (e : Expr) : Expr :=
  ([(Func.sin, Func.arcsin), (.cos, .arccos), (.tan, .arctan)].findSome?
    fun (f, inverse) => undone? f inverse e).getD e

/-- The argument of a function whose square the term is. -/
def squaredArg? (f : Func) : Expr → Option Expr
  | .power b x => if x.toInt? = some 2 then b.argOf? f else none
  | _ => none

/-- The positions of a squared sine and a squared cosine of equal arguments. -/
def pythagoreanPair? (terms : List Expr) : Option (Nat × Nat) :=
  terms.zipIdx.findSome? fun (t, i) =>
    (squaredArg? .sin t).bind fun a =>
      (terms.findIdx? fun u => (squaredArg? .cos u).any (· == a)).map fun j => (i, j)

/-- A squared sine and a squared cosine of equal arguments add up to one. -/
def pythagorean (e : Expr) : Expr :=
  match e with
  | .sum terms =>
    match pythagoreanPair? terms with
    | some (i, j) =>
      .sumOf (((terms.zipIdx.filter fun (_, k) => k != i && k != j).map Prod.fst) ++ [1])
    | none => e
  | _ => e

end Trigonometry

end SymbolicAlgebra
