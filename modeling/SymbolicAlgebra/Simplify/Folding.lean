import SymbolicAlgebra.Simplify.Term

/-!
# Arithmetic patterns

Each function here changes one kind of node and returns any other node as it is.

* A folded sum has no sum among its operands; its terms have different factors and stand in the
  order of their first occurrence, with the constant at the end.
* A folded product has no product, sign or number among its operands, apart from one coefficient in
  front; its factors have different bases.
* Powers, quotients, signs, square roots and absolute values of numbers are computed where the
  result is exact.
-/

namespace SymbolicAlgebra

namespace Folding

/-! ## Sums -/

mutual

/-- The terms of a sum, with the sums among them taken apart; any other expression is one term. -/
def flattenSum : Expr → List Expr
  | .sum es => flattenSums es
  | e => [e]

/-- The terms of all expressions of a list. -/
def flattenSums : List Expr → List Expr
  | [] => []
  | e :: es => flattenSum e ++ flattenSums es

end

/-- Adds a term to the like one, or puts it at the end. -/
def addLike : List Term → Term → List Term
  | [], t => [t]
  | g :: gs, t =>
    if sameAll g.factors t.factors then ⟨g.coefficient + t.coefficient, g.factors⟩ :: gs
    else g :: addLike gs t

/-- A constant and the groups of like terms. -/
structure Collected where
  /-- The sum of the terms without factors. -/
  constant : Number
  /-- One term for each list of factors, in the order of their first occurrence. -/
  groups : List Term

/-- Adds a term to a collection. -/
def Collected.add (c : Collected) (t : Term) : Collected :=
  if t.factors.isEmpty then ⟨c.constant + t.coefficient, c.groups⟩
  else ⟨c.constant, addLike c.groups t⟩

/-- The terms of a sum, collected. -/
def collect (terms : List Term) : Collected := terms.foldl Collected.add ⟨0, []⟩

/-- The collected terms that are not zero, the constant at the end. -/
def Collected.toTerms (c : Collected) : List Expr :=
  (c.groups.filter fun t => !t.coefficient.isZero).map Term.toExpr
    ++ if c.constant.isZero then [] else [.number c.constant]

/-- The sum of the operands with like terms collected. -/
def collectSum (e : Expr) : Expr :=
  .sumOf (collect ((flattenSum e).map Term.ofExpr)).toTerms

/-- Flattens a sum, collects like terms and folds the constant. -/
def foldSum : Expr → Expr
  | .sum es => collectSum (.sum es)
  | e => e

/-! ## Products -/

/-- A base with the exponents that it occurs with. -/
structure PowerGroup where
  /-- The base. -/
  base : Expr
  /-- Its exponents, in their order. -/
  exponents : List Expr

/-- The base and the exponent of a factor. -/
def baseAndExponent : Expr → Expr × Expr
  | .power b x => (b, x)
  | e => (e, 1)

/-- Adds a power to the group of its base, or puts it at the end. -/
def addPower : List PowerGroup → Expr × Expr → List PowerGroup
  | [], (b, x) => [⟨b, [x]⟩]
  | g :: gs, (b, x) =>
    if g.base == b then ⟨g.base, g.exponents ++ [x]⟩ :: gs else g :: addPower gs (b, x)

/-- The factor for a group; exponents that add up to zero leave none. -/
def PowerGroup.toFactor? (g : PowerGroup) : Option Expr :=
  let exponent := match g.exponents with
    | [x] => x
    | xs => foldSum (.sumOf xs)
  if exponent.isZero then none
  else if exponent.isOne then some g.base
  else some (.power g.base exponent)

/-- Merges the factors with equal bases. -/
def mergePowers (factors : List Expr) : List Expr :=
  ((factors.map baseAndExponent).foldl addPower []).filterMap PowerGroup.toFactor?

/-- Flattens a product, folds its coefficient and merges equal bases. -/
def foldProduct : Expr → Expr
  | .product es =>
    let t := Term.ofExpr (.product es)
    if t.coefficient.isZero then 0 else Term.toExpr ⟨t.coefficient, mergePowers t.factors⟩
  | e => e

/-! ## Powers -/

/-- The largest size of an exponent for which a power of an exact number is computed. -/
def maxFoldedExponent : Int := 1024

/--
The absolute value as a signed word of 64 bits. The least word has no absolute value among the words
and stays as it is.
-/
def wordAbs (k : Int) : Int := Int.bmod k.natAbs 18446744073709551616

/-- Whether the number is on one of the exact levels. -/
def isExact (n : Number) : Bool := n.toRat?.isSome

/-- The power of two numbers, where computing it loses nothing that was exact. -/
def foldNumericPower? (base exponent : Number) : Option Number :=
  if isExact base && isExact exponent then
    match exponent with
    | .int k =>
      match (toSignedWord? 64 k).filter fun k => wordAbs k ≤ maxFoldedExponent with
      | some k => if base.isZero && k < 0 then none else some (base.pow exponent)
      | none => none
    | _ => if isExact (base.pow exponent) then some (base.pow exponent) else none
  else some (base.pow exponent)

/-- A whole power of a power with a whole exponent has the product of both. -/
def foldNestedPower? (base : Expr) (outer : Int) : Option Expr :=
  match base with
  | .power inner x => x.toInt?.map fun k => .power inner (.int (k * outer))
  | _ => none

/-- The exponents zero and one, the base one, numeric powers and powers of powers. -/
def foldPower : Expr → Expr
  | .power b x =>
    if x.isZero || b.isOne then 1
    else if x.isOne then b
    else
      match b, x with
      | .number m, .number n => (foldNumericPower? m n).elim (.power b x) .number
      | _, .number (.int k) => (foldNestedPower? b k).getD (.power b x)
      | _, _ => .power b x
  | e => e

/-! ## Signs and quotients -/

/-- Removes two signs; the sign of a number or a product goes into its coefficient. -/
def foldNeg : Expr → Expr
  | .neg (.neg a) => a
  | .neg a => (Term.ofExpr (.neg a)).toExpr
  | e => e

/-- Division by one, of zero, by itself and by a number other than zero. -/
def foldDiv : Expr → Expr
  | .div a b =>
    if b.isOne then a
    else
      match b with
      | .number d =>
        if d.isZero then .div a b
        else
          let t := Term.ofExpr a
          Term.toExpr ⟨t.coefficient / d, t.factors⟩
      | _ => if a.isZero then 0 else if a == b then 1 else .div a b
  | e => e

/-! ## Roots and absolute values -/

/-- The largest radicand that is searched for square factors. -/
def maxSquarePart : Int := 1000000000000

/-- Splits a number into the largest square in it and the rest: the root of the square first. -/
def splitSquare (n : Int) : Nat × Nat :=
  (primeFactors n).foldl
    (fun acc f => (acc.1 * Nat.pow f.1 (f.2 / 2), acc.2 * Nat.pow f.1 (f.2 % 2))) (1, 1)

/-- The root of the largest square in a positive number and the rest, if there is a square. -/
def squarePart? (n : Int) : Option (Nat × Nat) :=
  if 0 < n ∧ n ≤ maxSquarePart then
    let parts := splitSquare n
    if parts.1 = 1 then none else some parts
  else none

/-- The form of a root of a number, unless it stays as it is. -/
def foldedRoot? (n : Number) : Option Expr :=
  if !isExact n || isExact n.sqrt then some (.number n.sqrt)
  else if n.isNegative && isExact (-n).sqrt then some (.number n.sqrt)
  else
    (n.toInt?.bind squarePart?).map fun (outer, inner) =>
      .productOf [.int outer, .call .sqrt (.int inner)]

/--
Square roots of numbers. A root that is not exact stays symbolic, and small integers have their
square factors pulled out: the root of 8 is twice the root of 2.
-/
def foldSqrt (e : Expr) : Expr :=
  match (e.argOf? .sqrt).bind Expr.toNumber? with
  | some n => (foldedRoot? n).getD e
  | none => e

/-- The absolute value of a number. -/
def foldAbs (e : Expr) : Expr :=
  match (e.argOf? .abs).bind Expr.toNumber? with
  | some n => .number n.abs
  | none => e

end Folding

end SymbolicAlgebra
