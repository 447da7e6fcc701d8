import SymbolicAlgebra.Expr.Basic

/-!
# Structural equality

Two expressions are equal when they are the same tree, with number literals compared together with
their level. There is one exception: two lists of points are equal when they have the same length
and the elements of one are among the elements of the other, in whatever order.

`distinct` keeps the first of several equal elements. It is how lists of points are built, so that
no two points of a set are equal.
-/

namespace SymbolicAlgebra

mutual

/-- Whether two expressions are equal. -/
def Expr.same : Expr → Expr → Bool
  | .number a, .number b => a == b
  | .var a, .var b => a == b
  | .sum as, .sum bs => sameAll as bs
  | .product as, .product bs => sameAll as bs
  | .power a x, .power b y => Expr.same a b && Expr.same x y
  | .neg a, .neg b => Expr.same a b
  | .div a x, .div b y => Expr.same a b && Expr.same x y
  | .apply f as, .apply g bs => f == g && sameAll as bs
  | .boolean a, .boolean b => a == b
  | .not a, .not b => Expr.same a b
  | .and a x, .and b y => Expr.same a b && Expr.same x y
  | .or a x, .or b y => Expr.same a b && Expr.same x y
  | .compare r a x, .compare s b y => r == s && Expr.same a b && Expr.same x y
  | .set a, .set b => SetExpr.same a b
  | .mem a x, .mem b y => Expr.same a b && SetExpr.same x y
  | _, _ => false

/-- Whether two lists are equal element by element. -/
def sameAll : List Expr → List Expr → Bool
  | [], [] => true
  | a :: as, b :: bs => Expr.same a b && sameAll as bs
  | _, _ => false

/-- Whether every element of the first list is equal to one of the second. -/
def allAmong : List Expr → List Expr → Bool
  | [], _ => true
  | a :: as, bs => bs.any (fun b => Expr.same a b) && allAmong as bs

/-- Whether two sets are written with the same parts. -/
def SetExpr.same : SetExpr → SetExpr → Bool
  | .empty, .empty => true
  | .finite as, .finite bs => as.length == bs.length && allAmong as bs
  | .interval a c b d, .interval a' c' b' d' =>
    Expr.same a a' && c == c' && Expr.same b b' && d == d'
  | .union a b, .union a' b' => SetExpr.same a a' && SetExpr.same b b'
  | .intersection a b, .intersection a' b' => SetExpr.same a a' && SetExpr.same b b'
  | _, _ => false

end

instance : BEq Expr := ⟨Expr.same⟩

instance : BEq SetExpr := ⟨SetExpr.same⟩

/-- Appends an element, unless an equal one is there. -/
def insertDistinct (es : List Expr) (e : Expr) : List Expr :=
  if es.any (· == e) then es else es ++ [e]

/-- The elements without repetitions, in the order of their first occurrences. -/
def distinct (es : List Expr) : List Expr := es.foldl insertDistinct []

/-- The set of the elements listed; without elements it is the empty set. -/
def SetExpr.ofElements (es : List Expr) : SetExpr :=
  match distinct es with
  | [] => .empty
  | ds => .finite ds

end SymbolicAlgebra
