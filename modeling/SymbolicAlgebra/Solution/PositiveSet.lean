import SymbolicAlgebra.Solution.ZeroSet

/-!
# Positive sets

`Expr.positiveSet x e` is the set of all values of `x` for which the polynomial `e` of degree one
or two is positive. A linear polynomial is positive on one side of its root. A quadratic one is
positive between its roots when its leading coefficient is negative, and outside of them otherwise;
complex roots give the empty set.
-/

namespace SymbolicAlgebra

namespace PositiveSet

/-- Whether the value of a coefficient is known to be negative. -/
def isNegative (a : Expr) : Bool := a.eval?.any Number.isNegative

/-- The points between two bounds, without the bounds. -/
def openInterval (left right : Expr) : SetExpr := .interval left false right false

/-- All points below a bound. -/
def rayBelow (bound : Expr) : SetExpr := openInterval .negInf bound

/-- All points above a bound. -/
def rayAbove (bound : Expr) : SetExpr := openInterval bound .posInf

/-- Two roots in ascending order, as far as their values can be compared. -/
def ascending (roots : Expr × Expr) : Expr × Expr :=
  if Interval.compareBounds? roots.1 roots.2 == some .gt then (roots.2, roots.1) else roots

/-- Where a linear polynomial is positive. -/
def ofLinear (p : Linear) : SetExpr :=
  let root := p.root
  if RootKind.ofExpr root = .complex then .empty
  else if isNegative p.a then rayBelow root
  else rayAbove root

/-- Where a quadratic polynomial is positive. -/
def ofQuadratic (p : Quadratic) : SetExpr :=
  let roots := p.roots
  if RootKind.ofExpr roots.1 = .complex || RootKind.ofExpr roots.2 = .complex then .empty
  else
    let (low, high) := ascending roots
    if isNegative p.a then openInterval low high
    else (rayBelow low).unite (rayAbove high)

end PositiveSet

/-- The values of `x` for which an expression is positive. -/
def Expr.positiveSet (x : String) (e : Expr) : Except SolveError SetExpr :=
  match Coefficients.ofExpr? x e with
  | some [b, a] => .ok (PositiveSet.ofLinear ⟨a, b⟩)
  | some [c, b, a] => .ok (PositiveSet.ofQuadratic ⟨a, b, c⟩)
  | _ => .error (.noPositiveSet e)

end SymbolicAlgebra
