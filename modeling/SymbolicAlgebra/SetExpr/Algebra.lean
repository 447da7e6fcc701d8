import SymbolicAlgebra.Expr.Evaluation

/-!
# Set algebra

Union and intersection are worked out where the parts decide the result, and otherwise left as they
are. The empty set is neutral for the union and absorbing for the intersection in every case.

* Two lists of points are merged or filtered by structural equality.
* The union of an interval and points closes the ends that are among the points, and drops the
  points inside.
* The intersection of points with another set keeps the points that lie in it, if that is decided
  for each of them.
* The intersection of two intervals is worked out when their bounds can be compared.
-/

namespace SymbolicAlgebra

/-- The points between two bounds. -/
structure Interval where
  /-- The left bound. -/
  left : Expr
  /-- Whether the left bound belongs to the interval. -/
  leftClosed : Bool
  /-- The right bound. -/
  right : Expr
  /-- Whether the right bound belongs to the interval. -/
  rightClosed : Bool

namespace Interval

/-- The interval as a set. -/
def toSet (i : Interval) : SetExpr := .interval i.left i.leftClosed i.right i.rightClosed

/-- Whether a point lies in the interval, where that can be decided. -/
def contains? (i : Interval) (e : Expr) : Option Bool := i.toSet.contains? e

/-- The order of the values of two bounds. -/
def compareBounds? (a b : Expr) : Option Ordering := do (← a.eval?).compare? (← b.eval?)

/-- The intersection of two intervals whose bounds can be compared. -/
def intersect? (a b : Interval) : Option SetExpr := do
  let (left, leftClosed) := match ← compareBounds? a.left b.left with
    | .gt => (a.left, a.leftClosed)
    | .lt => (b.left, b.leftClosed)
    | .eq => (a.left, a.leftClosed && b.leftClosed)
  let (right, rightClosed) := match ← compareBounds? a.right b.right with
    | .lt => (a.right, a.rightClosed)
    | .gt => (b.right, b.rightClosed)
    | .eq => (a.right, a.rightClosed && b.rightClosed)
  let isEmpty := match ← compareBounds? left right with
    | .gt => true
    | .eq => !(leftClosed && rightClosed)
    | .lt => false
  return if isEmpty then .empty else .interval left leftClosed right rightClosed

/-- Adds a point: it closes an open end, or is inside, or joins the points that stay apart. -/
def absorb (state : Interval × List Expr) (point : Expr) : Interval × List Expr :=
  let (i, apart) := state
  if !i.leftClosed && point == i.left then ({ i with leftClosed := true }, apart)
  else if !i.rightClosed && point == i.right then ({ i with rightClosed := true }, apart)
  else if i.contains? point == some true then (i, apart)
  else (i, insertDistinct apart point)

/-- The union of an interval and points. -/
def unionWithPoints (i : Interval) (points : List Expr) : SetExpr :=
  match points.foldl absorb (i, []) with
  | (i, []) => i.toSet
  | (i, apart) => .union i.toSet (.finite apart)

end Interval

namespace SetExpr

/-- The union of two sets. -/
def unite (a b : SetExpr) : SetExpr :=
  if a.isEmpty then b
  else if b.isEmpty || a == b then a
  else
    match a, b with
    | .finite as, .finite bs => .finite (bs.foldl insertDistinct as)
    | .interval l lc r rc, .finite ps | .finite ps, .interval l lc r rc =>
      Interval.unionWithPoints ⟨l, lc, r, rc⟩ ps
    | a, b => .union a b

/-- The points that lie in a set, if that is decided for each of them. -/
def filterPoints? (s : SetExpr) (points : List Expr) : Option (List Expr) := do
  let keep ← points.mapM s.contains?
  return (points.zip keep).filterMap fun (e, k) => if k then some e else none

/-- The intersection of points with a set of another shape. -/
def intersectPoints (points : List Expr) (s : SetExpr) : SetExpr :=
  match s.filterPoints? points with
  | some kept => .ofElements kept
  | none => .intersection (.finite points) s

/-- The intersection of two sets. -/
def intersect (a b : SetExpr) : SetExpr :=
  if a.isEmpty || b.isEmpty then .empty
  else if a == b then a
  else
    match a, b with
    | .finite as, .finite bs => .ofElements (as.filter fun e => bs.any (· == e))
    | .finite ps, s | s, .finite ps => intersectPoints ps s
    | .interval l lc r rc, .interval l' lc' r' rc' =>
      match Interval.intersect? ⟨l, lc, r, rc⟩ ⟨l', lc', r', rc'⟩ with
      | some s => s
      | none => .intersection a b
    | a, b => .intersection a b

/-- The union of a list of sets. -/
def uniteAll (sets : List SetExpr) : SetExpr := sets.foldl unite .empty

/-- The intersection of a list of sets, empty for no sets. -/
def intersectAll : List SetExpr → SetExpr
  | [] => .empty
  | s :: rest => rest.foldl intersect s

end SetExpr

end SymbolicAlgebra
