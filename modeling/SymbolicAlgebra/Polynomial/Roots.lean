import SymbolicAlgebra.Expr.Evaluation
import SymbolicAlgebra.Polynomial.Coefficients

/-!
# Roots in closed form

The root of a linear polynomial is `-b / a`, and the roots of a quadratic one are `(-b - s) / (2
a)` and `(-b + s) / (2 a)`, where `s` is the square root of `b ^ 2 - 4 a c`. The coefficients may
hold other variables. Each root is in normal form; nothing excludes that `a` is zero.
-/

namespace SymbolicAlgebra

/-- What is known of the value of a root. -/
inductive RootKind where
  /-- Its value is a real, or it has no value. -/
  | real
  /-- Its value is a complex number. -/
  | complex
deriving DecidableEq

/-- The kind of an expression as a root. -/
def RootKind.ofExpr (root : Expr) : RootKind :=
  match root.eval? with
  | some (.complex _) => .complex
  | _ => .real

namespace Linear

/-- The root. -/
def root (p : Linear) : Expr := (-p.b / p.a).normalForm

end Linear

namespace Quadratic

/-- The discriminant `b ^ 2 - 4 a c`. -/
def discriminant (p : Quadratic) : Expr := (.power p.b 2 - 4 * p.a * p.c : Expr).normalForm

/-- The roots: first the one where the square root is subtracted. -/
def roots (p : Quadratic) : Expr × Expr :=
  let s := (Expr.call .sqrt p.discriminant).normalForm
  (((-p.b - s) / (2 * p.a)).normalForm, ((-p.b + s) / (2 * p.a)).normalForm)

end Quadratic

end SymbolicAlgebra
