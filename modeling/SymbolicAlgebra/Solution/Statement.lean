import SymbolicAlgebra.Solution.PositiveSet

/-!
# Solving statements

`Expr.solutionSet x s` is the set of all values of `x` for which the statement `s` holds. A
comparison asks for the zeros or the positive values of the difference of its sides; conjunctions
and disjunctions are intersections and unions.
-/

namespace SymbolicAlgebra

/-- The points listed that are no complex numbers; another set as it is. -/
def realPoints : SetExpr → SetExpr
  | .finite points => .ofElements (points.filter fun p => RootKind.ofExpr p = .real)
  | s => s

/-- The values of `x` for which a relation holds between two sides. -/
def Comparison.solutionSet (x : String) (left right : Expr) :
    Comparison → Except SolveError SetExpr
  | .equal => (left - right).zeroSet x
  | .greater => (left - right).positiveSet x
  | .less => (right - left).positiveSet x
  | .greaterEqual => do
    return (← (left - right).positiveSet x).unite (realPoints (← (left - right).zeroSet x))
  | .lessEqual => do
    return (← (right - left).positiveSet x).unite (realPoints (← (left - right).zeroSet x))

/-- The values of `x` for which a statement holds. -/
def Expr.solutionSet (x : String) : Expr → Except SolveError SetExpr
  | .boolean true => .ok .reals
  | .boolean false => .ok .empty
  | .compare relation a b => relation.solutionSet x a b
  | .and a b => do return (← a.solutionSet x).intersect (← b.solutionSet x)
  | .or a b => do return (← a.solutionSet x).unite (← b.solutionSet x)
  | .mem a s => if a.toVar? = some x then .ok s else .error (.noMethod (.mem a s))
  | .not a => .error (.noMethod (.not a))
  | e => .error (.notAStatement e)

end SymbolicAlgebra
