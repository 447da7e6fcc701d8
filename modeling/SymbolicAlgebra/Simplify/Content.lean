import SymbolicAlgebra.Expr.Children
import SymbolicAlgebra.Simplify.Term

/-!
# Content of sums

`Expr.factorize` pulls the common content out of every sum of a tree, the innermost first: the
greatest common divisor of the numerators over the least common multiple of the denominators, with
the sign of the first coefficient, and the common powers of the terms. So `6 x ^ 2 + 9 x` becomes
`3 x (2 x + 3)`.

The divisors are folded from zero, so a sum whose first coefficient is zero asks for the divisor of
two zeros, which does not exist.
-/

namespace SymbolicAlgebra

namespace Content

/-- A term with its factors read as powers with positive whole exponents. -/
structure PowerTerm where
  /-- The numeric factor. -/
  coefficient : Number
  /-- Bases with their exponents. -/
  powers : List (Expr × Int)

/-- A factor as a power with a positive whole exponent. -/
def positivePower (factor : Expr) : Expr × Int :=
  match factor with
  | .power b x =>
    match x.toInt? with
    | some k => if 0 < k then (b, k) else (factor, 1)
    | none => (factor, 1)
  | _ => (factor, 1)

/-- An expression as a term of powers. -/
def PowerTerm.ofExpr (e : Expr) : PowerTerm :=
  let t := Term.ofExpr e
  ⟨t.coefficient, t.factors.map positivePower⟩

/-- The exponent of the first power with this base. -/
def exponentIn? (powers : List (Expr × Int)) (base : Expr) : Option Int :=
  (powers.find? fun p => p.1 == base).map Prod.snd

/-- The power as a factor; an exponent one is left out. -/
def toFactor (p : Expr × Int) : Expr := if p.2 = 1 then p.1 else .power p.1 (.int p.2)

/-- The least exponent of a base in all terms, if it occurs in each of them. -/
def leastExponent? (base : Expr) : Int → List PowerTerm → Option Int
  | k, [] => some k
  | k, t :: ts =>
    match exponentIn? t.powers base with
    | some other => leastExponent? base (if other < k then other else k) ts
    | none => none

/-- The powers of the first term that occur in all others, with their least exponents. -/
def commonPowers (first : PowerTerm) (rest : List PowerTerm) : List (Expr × Int) :=
  first.powers.filterMap fun (base, k) =>
    (leastExponent? base k rest).map fun least => (base, least)

/--
The greatest common divisor of the numerators and the least common multiple of the denominators, on
top of what is known so far; none when a coefficient is not exact.
-/
def divisors (num den : Int) : List Number → Except ArithmeticFault (Option (Int × Int))
  | [] => .ok (some (num, den))
  | c :: cs =>
    match c.toRat? with
    | none => .ok none
    | some r => do
      let num ← greatestCommonDivisor num r.num
      divisors num (leastCommonMultiple den r.den) cs

/-- The common content of the coefficients, with the sign of the first one. -/
def ofCoefficients (coefficients : List Number) : Except ArithmeticFault (Option Rat) := do
  match ← divisors 0 1 coefficients with
  | none => return none
  | some (num, den) =>
    if num = 0 then return none
    else
      let content := Rat.divInt num den
      return some (if coefficients.head?.any Number.isNegative then -content else content)

/-- What is left of a term when the content and the common powers are taken out. -/
def cofactor (content : Option Rat) (common : List (Expr × Int)) (t : PowerTerm) : Expr :=
  let coefficient := match content with
    | some c => t.coefficient / .ofRat c
    | none => t.coefficient
  let factors := t.powers.filterMap fun (base, k) =>
    let left := match exponentIn? common base with
      | some least => k - least
      | none => k
    if 0 < left then some (toFactor (base, left)) else none
  Term.toExpr ⟨coefficient, factors⟩

/-- A sum with its content and its common powers in front; one without either is unchanged. -/
def factorSum (terms : List Expr) : Except ArithmeticFault Expr :=
  match terms.map PowerTerm.ofExpr with
  | [] => .ok (.sum terms)
  | first :: rest => do
    let common := commonPowers first rest
    let content := (← ofCoefficients ((first :: rest).map PowerTerm.coefficient)).filter
      fun c => !(Number.ofRat c).isOne
    if common.isEmpty && content.isNone then return .sum terms
    else
      let cofactors := (first :: rest).map (cofactor content common)
      return .productOf
        (content.toList.map .rat ++ common.map toFactor ++ [.sumOf cofactors])

/-- Factors a node, if it is a sum. -/
def factorNode : Expr → Except ArithmeticFault Expr
  | .sum terms => factorSum terms
  | e => .ok e

end Content

/-- Factors the content out of every sum, the innermost first. -/
def Expr.factorize (e : Expr) : Except ArithmeticFault Expr :=
  e.mapBottomUpM Content.factorNode

end SymbolicAlgebra
