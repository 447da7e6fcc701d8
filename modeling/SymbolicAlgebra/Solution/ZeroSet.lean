import SymbolicAlgebra.Polynomial.Roots
import SymbolicAlgebra.SetExpr.Algebra

/-!
# Zero sets

`Expr.zeroSet x e` is the set of all values of `x` for which `e` is zero. The normal form of `e` is
taken apart as far as possible: a product is zero where one of its factors is, a positive power
where its base is, a quotient where its numerator is and its denominator is not. What is left has
to be a polynomial of degree one or two.
-/

namespace SymbolicAlgebra

/-- Why there is no set of solutions. -/
inductive SolveError where
  /-- No method finds the zeros of the expression. -/
  | noZeroSet (e : Expr)
  /-- No method finds where the expression is positive. -/
  | noPositiveSet (e : Expr)
  /-- No method solves statements of this kind. -/
  | noMethod (statement : Expr)
  /-- The expression states nothing. -/
  | notAStatement (e : Expr)

/-- The text that reports why there is no set of solutions. -/
def SolveError.message : SolveError → String
  | noZeroSet e => "solving is not implemented for `" ++ e.toText ++ " = 0`"
  | noPositiveSet e => "solving is not implemented for `" ++ e.toText ++ " > 0`"
  | noMethod statement => "solving is not implemented for `" ++ statement.toText ++ "`"
  | notAStatement e => "`" ++ e.toText ++ "` is not a statement"

namespace ZeroSet

/-- Whether an expression is known to be zero. -/
def vanishes (e : Expr) : Bool := e.eval?.any Number.isZero

/-- The set of all reals if the expression is known to be zero, else the empty set. -/
def ofConstant (e : Expr) : SetExpr := if vanishes e then .reals else .empty

/-- Whether a power is zero exactly where its base is: the exponent is a positive literal. -/
def isPositiveExponent (x : String) (exponent : Expr) : Bool :=
  !exponent.containsVar x && exponent.toNumber?.any Number.isPositive

/-- Drops the points listed at which a denominator is known to be zero. -/
def dropPoles (x : String) (den : Expr) : SetExpr → SetExpr
  | .finite points => .ofElements (points.filter fun p => !vanishes (den.substitute x p))
  | s => s

/-- The zeros of a polynomial of degree one or two. -/
def ofPolynomial (x : String) (e : Expr) : Except SolveError SetExpr :=
  match Coefficients.ofExpr? x e with
  | some [b, a] => .ok (.ofElements [(Linear.mk a b).root])
  | some [c, b, a] =>
    let roots := (Quadratic.mk a b c).roots
    .ok (.ofElements [roots.1, roots.2])
  | _ => .error (.noZeroSet e)

/-- The zeros of an expression in normal form, which is taken apart to a number of levels. -/
def within (x : String) : Nat → Expr → Except SolveError SetExpr
  | 0, e => .error (.noZeroSet e)
  | levels + 1, e =>
    if !e.containsVar x then .ok (ofConstant e)
    else
      match e with
      | .product es => do
        let sets ← (es.filter (Expr.containsVar x)).mapM fun f => within x levels f.normalForm
        return .uniteAll sets
      | .neg a => within x levels a.normalForm
      | .power b k =>
        if isPositiveExponent x k then within x levels b.normalForm
        else ofPolynomial x (.power b k)
      | .div a b => do return dropPoles x b (← within x levels a.normalForm)
      | e => ofPolynomial x e

end ZeroSet

/-- The values of `x` for which an expression is zero. The parts of a normal form are in normal form
too, once the passes have come to an end; each level of them has fewer nodes than the one before, so
that the size bounds the number of levels. -/
def Expr.zeroSet (x : String) (e : Expr) : Except SolveError SetExpr :=
  ZeroSet.within x e.normalForm.size e.normalForm

end SymbolicAlgebra
