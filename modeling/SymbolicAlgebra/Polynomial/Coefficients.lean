import SymbolicAlgebra.Simplify.Simplifier

/-!
# Coefficients

An expression may be a polynomial in one of its variables: sums, products and negations of
polynomials are polynomials, and so are small powers of them and quotients by expressions without
the variable. `Coefficients.ofExpr?` reads the coefficients, which are expressions without the
variable, the constant one first. They are brought into normal form, and zeros at the end are
dropped.

Literal zeros and ones are left out while coefficients are added and multiplied, so that only what
the expression holds appears in them.
-/

namespace SymbolicAlgebra

/-- The largest degree of a polynomial. -/
def maxDegree : Nat := 16

/-- The coefficients of a polynomial, the constant one first. -/
abbrev Coefficients := List Expr

namespace Coefficients

/-- The coefficients of the sum of two polynomials. -/
def add : Coefficients → Coefficients → Coefficients
  | [], q => q
  | p, [] => p
  | a :: p, b :: q => a.plus b :: add p q

/-- The products of a coefficient of `p` and one of `q` that belong to the degree `k`; a literal
zero makes no product. -/
def productsAt (p q : Coefficients) (k : Nat) : List Expr :=
  (List.range (k + 1)).filterMap fun i => do
    let a ← p[i]?
    let b ← q[k - i]?
    if a.isZero || b.isZero then none else some (a.times b)

/-- The coefficients of the product of two polynomials, unless its degree is too large. -/
def mul? (p q : Coefficients) : Option Coefficients :=
  let degree := p.length + q.length - 2
  if maxDegree < degree then none
  else some ((List.range (degree + 1)).map fun k => (productsAt p q k).foldl Expr.plus 0)

/-- The coefficients of a product of polynomials. -/
def product? (ps : List Coefficients) : Option Coefficients := ps.foldlM mul? [1]

/-- The exponent of a power that is multiplied out: a whole number up to the largest degree. -/
def degree? (exponent : Expr) : Option Nat :=
  match exponent.toInt? with
  | some (.ofNat k) => if k ≤ maxDegree then some k else none
  | _ => none

mutual

/-- The coefficients as they come out of the expression. -/
def collect? (x : String) (e : Expr) : Option Coefficients :=
  if !e.containsVar x then some [e]
  else
    match e with
    | .var _ => some [0, 1]
    | .sum es => (collectAll? x es).map fun ps => ps.foldl add [0]
    | .product es => (collectAll? x es).bind product?
    | .neg a => (collect? x a).map fun p => p.map .neg
    | .power b k =>
      if k.containsVar x then none
      else do
        let k ← degree? k
        let p ← collect? x b
        product? (List.replicate k p)
    | .div a b =>
      if b.containsVar x then none
      else (collect? x a).map fun p => p.map fun c => c / b
    | _ => none

/-- The coefficients of each expression of a list. -/
def collectAll? (x : String) : List Expr → Option (List Coefficients)
  | [] => some []
  | e :: es => do return (← collect? x e) :: (← collectAll? x es)

end

/-- Drops literal zeros at the end, but never the constant coefficient. -/
def trim : Coefficients → Coefficients
  | [] => []
  | c :: cs => c :: (cs.reverse.dropWhile Expr.isZero).reverse

/-- The coefficients of an expression in `x`, if it is a polynomial in `x`. -/
def ofExpr? (x : String) (e : Expr) : Option Coefficients :=
  (collect? x e).map fun p => trim (p.map Expr.normalForm)

end Coefficients

/-- The polynomial `a x + b`. -/
structure Linear where
  /-- The coefficient of the variable. -/
  a : Expr
  /-- The constant. -/
  b : Expr

/-- The polynomial `a x ^ 2 + b x + c`. -/
structure Quadratic where
  /-- The coefficient of the square. -/
  a : Expr
  /-- The coefficient of the variable. -/
  b : Expr
  /-- The constant. -/
  c : Expr

/-- Reads an expression as a polynomial of degree one. -/
def Linear.ofExpr? (x : String) (e : Expr) : Option Linear :=
  match Coefficients.ofExpr? x e with
  | some [b, a] => some ⟨a, b⟩
  | _ => none

/-- Reads an expression as a polynomial of degree two. -/
def Quadratic.ofExpr? (x : String) (e : Expr) : Option Quadratic :=
  match Coefficients.ofExpr? x e with
  | some [c, b, a] => some ⟨a, b, c⟩
  | _ => none

end SymbolicAlgebra
