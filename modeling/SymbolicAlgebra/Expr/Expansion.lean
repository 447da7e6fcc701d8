import SymbolicAlgebra.Expr.Children

/-!
# Expansion

`Expr.expand` multiplies out: it distributes products over sums, quotients over the terms of their
numerators and negations over the terms below them, and it writes small whole powers of sums as
products. The result is the sum of the terms that come out, in the order in which a product of lists
enumerates them.
-/

namespace SymbolicAlgebra

/-- The largest exponent for which a power of a sum is multiplied out. -/
def maxExpansionPower : Nat := 16

namespace Expansion

/-- The factors of a product, or the expression as its only factor. -/
def factors : Expr → List Expr
  | .product es => es
  | e => [e]

/-- Multiplies a factor without a sign with a term; signs of the term move to the front. -/
def multiplyRight (a b : Expr) : Expr :=
  if a.isOne then b
  else if b.isOne then a
  else
    match b with
    | .neg inner => .neg (multiplyRight a inner)
    | b => .productOf (factors a ++ factors b)

/-- Multiplies two terms. Signs move to the front, literal ones are left out, products merge. -/
def multiply (a b : Expr) : Expr :=
  match a with
  | .neg inner => if b.isOne then .neg inner else .neg (multiply inner b)
  | a => multiplyRight a b

/-- All products of a term on the left with a term on the right. -/
def distribute (left right : List Expr) : List Expr :=
  left.flatMap fun a => right.map (multiply a)

/-- The terms of a product of sums. -/
def multiplyOut (operands : List (List Expr)) : List Expr := operands.foldl distribute [1]

/-- The exponent of a power that is multiplied out. -/
def smallExponent? (x : Expr) : Option Nat :=
  (x.toInt?.bind (toUnsignedWord? 32)).filter fun n => n ≤ maxExpansionPower

/-- The terms of a power whose base and exponent are expanded. -/
def powerTerms (exponent : Expr) (baseTerms exponentTerms : List Expr) : List Expr :=
  let kept : Expr := .power (.sumOf baseTerms) (.sumOf exponentTerms)
  match smallExponent? exponent with
  | some n => if 1 < baseTerms.length then multiplyOut (List.replicate n baseTerms) else [kept]
  | none => [kept]

end Expansion

open Expansion

namespace Expr

mutual

/-- The terms of the expanded expression. -/
def expandTerms : Expr → List Expr
  | .sum es => (expandAll es).flatten
  | .neg a => a.expandTerms.map .neg
  | .product es => multiplyOut (expandAll es)
  | .div a b =>
    let den := sumOf b.expandTerms
    a.expandTerms.map fun t => t / den
  | .power b x => powerTerms x b.expandTerms x.expandTerms
  | .number n => [.number n]
  | .var v => [.var v]
  | .boolean b => [.boolean b]
  | .apply f es => [.apply f ((expandAll es).map sumOf)]
  | .not a => [.not (sumOf a.expandTerms)]
  | .and a b => [.and (sumOf a.expandTerms) (sumOf b.expandTerms)]
  | .or a b => [.or (sumOf a.expandTerms) (sumOf b.expandTerms)]
  | .compare r a b => [.compare r (sumOf a.expandTerms) (sumOf b.expandTerms)]
  | .set s => [.set (expandSet s)]
  | .mem a s => [.mem (sumOf a.expandTerms) (expandSet s)]

/-- The terms of each expression of a list. -/
def expandAll : List Expr → List (List Expr)
  | [] => []
  | e :: es => e.expandTerms :: expandAll es

/-- The set with its points and bounds expanded. -/
def expandSet : SetExpr → SetExpr
  | .empty => .empty
  | .finite es => .finite (distinct ((expandAll es).map sumOf))
  | .interval l lc r rc => .interval (sumOf l.expandTerms) lc (sumOf r.expandTerms) rc
  | .union a b => .union (expandSet a) (expandSet b)
  | .intersection a b => .intersection (expandSet a) (expandSet b)

end

/-- The expanded expression. -/
def expand (e : Expr) : Expr := sumOf e.expandTerms

end Expr

end SymbolicAlgebra
