import SymbolicAlgebra.Expr.Equality

/-!
# Terms

A term is a numeric coefficient times a list of factors that are neither numbers, negations nor
products. `Term.ofExpr` reads an expression as a term, whatever way its products and signs are
nested, and `Term.toExpr` writes the term in the one form that the simplifier uses: the coefficient
first, left out where it is one, a sign where it is minus one.
-/

namespace SymbolicAlgebra

/-- A coefficient and the factors beside it. -/
structure Term where
  /-- The numeric factor. -/
  coefficient : Number
  /-- The other factors, in their order. -/
  factors : List Expr

namespace Term

mutual

/-- Multiplies a term by an expression, which is taken apart at its products and signs. -/
def times (t : Term) : Expr → Term
  | .number n => ⟨t.coefficient * n, t.factors⟩
  | .neg a => Term.times ⟨-t.coefficient, t.factors⟩ a
  | .product es => Term.timesAll t es
  | e => ⟨t.coefficient, t.factors ++ [e]⟩

/-- Multiplies a term by all expressions of a list. -/
def timesAll (t : Term) : List Expr → Term
  | [] => t
  | e :: es => Term.timesAll (Term.times t e) es

end

/-- The expression as a term. -/
def ofExpr (e : Expr) : Term := Term.times ⟨1, []⟩ e

/-- The term as an expression. -/
def toExpr (t : Term) : Expr :=
  if t.factors.isEmpty || t.coefficient.isZero then .number t.coefficient
  else if t.coefficient.isOne then .productOf t.factors
  else if (-t.coefficient).isOne then -.productOf t.factors
  else .productOf (.number t.coefficient :: t.factors)

end Term

end SymbolicAlgebra
