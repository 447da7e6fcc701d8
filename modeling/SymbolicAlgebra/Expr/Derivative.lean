import SymbolicAlgebra.Expr.Children
import SymbolicAlgebra.Expr.Text

/-!
# Derivatives

`Expr.derive` differentiates with respect to a variable, by the rules for sums, products,
quotients, powers and compositions. The result is not simplified; only terms that are a literal
zero and factors that are a literal one are left out while it is built.

A part without the variable has the derivative zero, whatever functions occur in it. Statements and
sets have no derivative at all.
-/

namespace SymbolicAlgebra

/-- An expression without a derivative. -/
structure NotDifferentiable where
  /-- The expression. -/
  expr : Expr

/-- The text that reports an expression without a derivative. -/
def NotDifferentiable.message (e : NotDifferentiable) : String :=
  "cannot differentiate `" ++ e.expr.toText ++ "`"

namespace Differentiation

/-- A sum that leaves out literal zeros. -/
def sumNonzero (terms : List Expr) : Expr := Expr.sumOf (terms.filter fun t => !t.isZero)

/-- The terms of the product rule: each has one factor replaced by its derivative. -/
def productTerms (factors derivatives : List Expr) : List Expr :=
  (derivatives.zipIdx.filter fun d => !d.1.isZero).map fun (d, i) =>
    Expr.productOf (factors.set i d)

/-- The quotient rule `(n' d - n d') / d ^ 2`. -/
def ofQuotient (num den num' den' : Expr) : Expr :=
  let subtrahend := if den'.isZero then den' else -Expr.times num den'
  sumNonzero [Expr.times num' den, subtrahend] / .power den 2

/-- The rule `e b ^ (e - 1) b'` for a constant exponent. -/
def ofConstantExponent (base exponent base' : Expr) : Expr :=
  Expr.times (exponent * .power base (exponent - 1)) base'

/-- The rule `b ^ e ln b e'` for a constant base. -/
def ofConstantBase (base exponent exponent' : Expr) : Expr :=
  Expr.times (.power base exponent * .call .ln base) exponent'

/-- The rule `b ^ e (e' ln b + e b' / b)` for the general power. -/
def ofPower (base exponent base' exponent' : Expr) : Expr :=
  .power base exponent
    * .sumOf [exponent' * .call .ln base, exponent * (base' / base)]

/-- The derivative of a built-in function at `u`, if it has one. -/
def ofFunc? (f : Func) (u : Expr) : Option Expr :=
  match f with
  | .sin => some (.call .cos u)
  | .cos => some (-.call .sin u)
  | .tan => some (1 / .power (.call .cos u) 2)
  | .arcsin => some (1 / .call .sqrt (1 - .power u 2))
  | .arccos => some (-(1 / .call .sqrt (1 - .power u 2)))
  | .arctan => some (1 / (1 + .power u 2))
  | .exp => some (.call .exp u)
  | .ln => some (1 / u)
  | .sqrt => some (1 / (2 * .call .sqrt u))
  | .abs => some (u / .call .abs u)
  | .phi | .named _ => none

end Differentiation

open Differentiation

namespace Expr

mutual

/-- The derivative with respect to a variable. -/
def derive (v : String) (e : Expr) : Except NotDifferentiable Expr :=
  if !e.containsVar v then
    if e.isStatement then .error ⟨e⟩
    else
      match e with
      | .set _ => .error ⟨e⟩
      | _ => .ok 0
  else
    match e with
    | .var _ => .ok 1
    | .sum es => do return sumNonzero (← deriveAll v es)
    | .product es => do return sumNonzero (productTerms es (← deriveAll v es))
    | .neg a => do return -(← a.derive v)
    | .div a b => do
      let a' ← a.derive v
      let b' ← b.derive v
      return ofQuotient a b a' b'
    | .power b x =>
      if !x.containsVar v then do return ofConstantExponent b x (← b.derive v)
      else if !b.containsVar v then do return ofConstantBase b x (← x.derive v)
      else do
        let x' ← x.derive v
        let b' ← b.derive v
        return ofPower b x b' x'
    | .apply f [u] =>
      match ofFunc? f u with
      | some outer => do return Expr.times outer (← u.derive v)
      | none => .error ⟨.apply f [u]⟩
    | e => .error ⟨e⟩

/-- The derivatives of all expressions of a list. -/
def deriveAll (v : String) : List Expr → Except NotDifferentiable (List Expr)
  | [] => .ok []
  | e :: es => do return (← e.derive v) :: (← deriveAll v es)

end

end Expr

end SymbolicAlgebra
