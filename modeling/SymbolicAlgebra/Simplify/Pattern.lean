import SymbolicAlgebra.Expr.Children
import SymbolicAlgebra.Simplify.Folding
import SymbolicAlgebra.Simplify.Identities

/-!
# The pattern library

A pattern is a named change of single nodes. `Pattern.pass` applies patterns to every node of a
tree, the innermost first, and `Pattern.normalize` repeats the pass until nothing changes or a
number of passes is used up.
-/

namespace SymbolicAlgebra

/-- A named change of one node. -/
structure Pattern where
  /-- The name that the pattern is chosen by. -/
  name : String
  /-- What it makes of a node; a node that it does not fit comes back as it is. -/
  apply : Expr → Expr

namespace Pattern

/-- The patterns about Euler's totient. -/
def numberTheory : List Pattern :=
  [⟨"phi-prime-power", Totient.ofPrimePower⟩,
   ⟨"phi-prime", Totient.ofPrime⟩,
   ⟨"phi-integer", Totient.ofInteger⟩]

/-- The patterns about arithmetic. -/
def arithmetic : List Pattern :=
  [⟨"fold-sum", Folding.foldSum⟩,
   ⟨"fold-product", Folding.foldProduct⟩,
   ⟨"fold-power", Folding.foldPower⟩,
   ⟨"fold-neg", Folding.foldNeg⟩,
   ⟨"fold-div", Folding.foldDiv⟩,
   ⟨"fold-sqrt", Folding.foldSqrt⟩,
   ⟨"fold-abs", Folding.foldAbs⟩]

/-- The patterns about exponentials and logarithms. -/
def expLog : List Pattern :=
  [⟨"exp-special", ExpLog.expSpecial⟩,
   ⟨"ln-special", ExpLog.lnSpecial⟩,
   ⟨"exp-ln", ExpLog.expOfLn⟩,
   ⟨"ln-exp", ExpLog.lnOfExp⟩]

/-- The patterns about trigonometric functions. -/
def trigonometry : List Pattern :=
  [⟨"trig-special", Trigonometry.specialValues⟩,
   ⟨"trig-parity", Trigonometry.parity⟩,
   ⟨"trig-inverse", Trigonometry.inverseComposition⟩,
   ⟨"pythagorean", Trigonometry.pythagorean⟩]

/-- All patterns, in the order in which they are applied. -/
def library : List Pattern := numberTheory ++ arithmetic ++ expLog ++ trigonometry

/-- Applies a pattern to one node; a result equal to the node leaves the node itself. -/
def step (node : Expr) (p : Pattern) : Expr :=
  let next := p.apply node
  if next == node then node else next

/-- Applies patterns to every node, the innermost first, and to each node one after the other. -/
def pass (patterns : List Pattern) (e : Expr) : Expr :=
  e.mapBottomUp fun node => patterns.foldl step node

/-- A tree after some passes, and how many there were. -/
structure Normalized where
  /-- The tree. -/
  expr : Expr
  /-- The number of passes, the last one without an effect included. -/
  passes : Nat

/-- Repeats the pass until nothing changes, at most `limit` times. -/
def normalizeWithin (patterns : List Pattern) : Nat → Expr → Normalized
  | 0, e => ⟨e, 0⟩
  | limit + 1, e =>
    let next := pass patterns e
    if next == e then ⟨e, 1⟩
    else
      let rest := normalizeWithin patterns limit next
      ⟨rest.expr, rest.passes + 1⟩

/-- Repeats the pass until nothing changes, at most `limit` times but at least once. -/
def normalize (patterns : List Pattern) (limit : Nat) (e : Expr) : Normalized :=
  normalizeWithin patterns (max limit 1) e

end Pattern

end SymbolicAlgebra
