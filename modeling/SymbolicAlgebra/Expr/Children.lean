import SymbolicAlgebra.Expr.Equality

/-!
# Subexpressions

The children of an expression are its direct operands, from left to right; for a set they are its
points and bounds. This module has the three ways in which the rest of the library goes through a
tree:

* `Expr.fold` computes a value from the bottom up;
* `Expr.mapBottomUp` rebuilds every node from its transformed children and transforms it then;
* `Expr.replaceOutermost` replaces the outermost nodes that a function has an answer for.

A list of points is rebuilt without repetitions, since different points may become equal.
-/

namespace SymbolicAlgebra

variable {α : Type} {m : Type → Type}

/-! ## Children -/

/-- The points and bounds of a set, from left to right. -/
def SetExpr.entities : SetExpr → List Expr
  | .empty => []
  | .finite es => es
  | .interval l _ r _ => [l, r]
  | .union a b => a.entities ++ b.entities
  | .intersection a b => a.entities ++ b.entities

/-- The set with each point and bound replaced, in an order of effects from left to right. -/
def SetExpr.mapEntitiesM [Monad m] (f : Expr → m Expr) : SetExpr → m SetExpr
  | .empty => pure .empty
  | .finite es => do return .finite (distinct (← es.mapM f))
  | .interval l lc r rc => do return .interval (← f l) lc (← f r) rc
  | .union a b => do return .union (← a.mapEntitiesM f) (← b.mapEntitiesM f)
  | .intersection a b => do return .intersection (← a.mapEntitiesM f) (← b.mapEntitiesM f)

/-- The set with each point and bound replaced. -/
def SetExpr.mapEntities (f : Expr → Expr) (s : SetExpr) : SetExpr :=
  Id.run (s.mapEntitiesM fun e => pure (f e))

namespace Expr

/-- The direct operands, from left to right. -/
def children : Expr → List Expr
  | .number _ | .var _ | .boolean _ => []
  | .sum es | .product es | .apply _ es => es
  | .neg a | .not a => [a]
  | .power a b | .div a b | .and a b | .or a b | .compare _ a b => [a, b]
  | .set s => s.entities
  | .mem a s => a :: s.entities

/-- The expression with each child replaced, in an order of effects from left to right. -/
def mapChildrenM [Monad m] (f : Expr → m Expr) : Expr → m Expr
  | .number n => pure (.number n)
  | .var v => pure (.var v)
  | .boolean b => pure (.boolean b)
  | .sum es => do return .sum (← es.mapM f)
  | .product es => do return .product (← es.mapM f)
  | .apply g es => do return .apply g (← es.mapM f)
  | .neg a => do return .neg (← f a)
  | .not a => do return .not (← f a)
  | .power a b => do return .power (← f a) (← f b)
  | .div a b => do return .div (← f a) (← f b)
  | .and a b => do return .and (← f a) (← f b)
  | .or a b => do return .or (← f a) (← f b)
  | .compare r a b => do return .compare r (← f a) (← f b)
  | .set s => do return .set (← s.mapEntitiesM f)
  | .mem a s => do return .mem (← f a) (← s.mapEntitiesM f)

/-- The expression with each child replaced. -/
def mapChildren (f : Expr → Expr) (e : Expr) : Expr :=
  Id.run (e.mapChildrenM fun c => pure (f c))

/-- Hands out the next of a list of replacements, and the old expression when they have run out. -/
def nextOr (old : Expr) : StateM (List Expr) Expr := fun replacements =>
  match replacements with
  | [] => (old, [])
  | e :: rest => (e, rest)

/--
The expression with its children replaced in order by those listed. Missing ones leave the old child
in place, superfluous ones are ignored.
-/
def withChildren (e : Expr) (replacements : List Expr) : Expr :=
  (e.mapChildrenM nextOr replacements).1

/-! ## Recursion through the children -/

mutual

/-- A value computed from the bottom up: `f` is given a node and the values of its children. -/
def fold (f : Expr → List α → α) : Expr → α
  | .number n => f (.number n) []
  | .var v => f (.var v) []
  | .boolean b => f (.boolean b) []
  | .sum es => f (.sum es) (foldAll f es)
  | .product es => f (.product es) (foldAll f es)
  | .apply g es => f (.apply g es) (foldAll f es)
  | .neg a => f (.neg a) [fold f a]
  | .not a => f (.not a) [fold f a]
  | .power a b => f (.power a b) [fold f a, fold f b]
  | .div a b => f (.div a b) [fold f a, fold f b]
  | .and a b => f (.and a b) [fold f a, fold f b]
  | .or a b => f (.or a b) [fold f a, fold f b]
  | .compare r a b => f (.compare r a b) [fold f a, fold f b]
  | .set s => f (.set s) (foldSet f s)
  | .mem a s => f (.mem a s) (fold f a :: foldSet f s)

/-- The values of the expressions of a list. -/
def foldAll (f : Expr → List α → α) : List Expr → List α
  | [] => []
  | e :: es => fold f e :: foldAll f es

/-- The values of the points and bounds of a set. -/
def foldSet (f : Expr → List α → α) : SetExpr → List α
  | .empty => []
  | .finite es => foldAll f es
  | .interval l _ r _ => [fold f l, fold f r]
  | .union a b => foldSet f a ++ foldSet f b
  | .intersection a b => foldSet f a ++ foldSet f b

end

mutual

/-- Transforms the children first and then the node made of them. -/
def mapBottomUpM [Monad m] (f : Expr → m Expr) : Expr → m Expr
  | .number n => f (.number n)
  | .var v => f (.var v)
  | .boolean b => f (.boolean b)
  | .sum es => do f (.sum (← mapBottomUpAllM f es))
  | .product es => do f (.product (← mapBottomUpAllM f es))
  | .apply g es => do f (.apply g (← mapBottomUpAllM f es))
  | .neg a => do f (.neg (← mapBottomUpM f a))
  | .not a => do f (.not (← mapBottomUpM f a))
  | .power a b => do f (.power (← mapBottomUpM f a) (← mapBottomUpM f b))
  | .div a b => do f (.div (← mapBottomUpM f a) (← mapBottomUpM f b))
  | .and a b => do f (.and (← mapBottomUpM f a) (← mapBottomUpM f b))
  | .or a b => do f (.or (← mapBottomUpM f a) (← mapBottomUpM f b))
  | .compare r a b => do f (.compare r (← mapBottomUpM f a) (← mapBottomUpM f b))
  | .set s => do f (.set (← mapBottomUpSetM f s))
  | .mem a s => do f (.mem (← mapBottomUpM f a) (← mapBottomUpSetM f s))

/-- Transforms the expressions of a list. -/
def mapBottomUpAllM [Monad m] (f : Expr → m Expr) : List Expr → m (List Expr)
  | [] => pure []
  | e :: es => do return (← mapBottomUpM f e) :: (← mapBottomUpAllM f es)

/-- Transforms the points and bounds of a set. -/
def mapBottomUpSetM [Monad m] (f : Expr → m Expr) : SetExpr → m SetExpr
  | .empty => pure .empty
  | .finite es => do return .finite (distinct (← mapBottomUpAllM f es))
  | .interval l lc r rc => do
    return .interval (← mapBottomUpM f l) lc (← mapBottomUpM f r) rc
  | .union a b => do return .union (← mapBottomUpSetM f a) (← mapBottomUpSetM f b)
  | .intersection a b => do return .intersection (← mapBottomUpSetM f a) (← mapBottomUpSetM f b)

end

/-- Transforms the children first and then the node made of them. -/
def mapBottomUp (f : Expr → Expr) (e : Expr) : Expr :=
  Id.run (mapBottomUpM (fun c => pure (f c)) e)

mutual

/-- Replaces the outermost nodes that `f` answers for; the others keep their shape. -/
def replaceOutermost (f : Expr → Option Expr) (e : Expr) : Expr :=
  match f e with
  | some r => r
  | none =>
    match e with
    | .number n => .number n
    | .var v => .var v
    | .boolean b => .boolean b
    | .sum es => .sum (replaceOutermostAll f es)
    | .product es => .product (replaceOutermostAll f es)
    | .apply g es => .apply g (replaceOutermostAll f es)
    | .neg a => .neg (replaceOutermost f a)
    | .not a => .not (replaceOutermost f a)
    | .power a b => .power (replaceOutermost f a) (replaceOutermost f b)
    | .div a b => .div (replaceOutermost f a) (replaceOutermost f b)
    | .and a b => .and (replaceOutermost f a) (replaceOutermost f b)
    | .or a b => .or (replaceOutermost f a) (replaceOutermost f b)
    | .compare r a b => .compare r (replaceOutermost f a) (replaceOutermost f b)
    | .set s => .set (replaceOutermostSet f s)
    | .mem a s => .mem (replaceOutermost f a) (replaceOutermostSet f s)

/-- Replaces inside the expressions of a list. -/
def replaceOutermostAll (f : Expr → Option Expr) : List Expr → List Expr
  | [] => []
  | e :: es => replaceOutermost f e :: replaceOutermostAll f es

/-- Replaces inside the points and bounds of a set. -/
def replaceOutermostSet (f : Expr → Option Expr) : SetExpr → SetExpr
  | .empty => .empty
  | .finite es => .finite (distinct (replaceOutermostAll f es))
  | .interval l lc r rc => .interval (replaceOutermost f l) lc (replaceOutermost f r) rc
  | .union a b => .union (replaceOutermostSet f a) (replaceOutermostSet f b)
  | .intersection a b => .intersection (replaceOutermostSet f a) (replaceOutermostSet f b)

end

/-! ## What occurs in an expression -/

/-- The number of nodes. -/
def size (e : Expr) : Nat := e.fold fun _ sizes => sizes.foldl (· + ·) 1

/-- Whether a variable occurs. -/
def containsVar (v : String) (e : Expr) : Bool :=
  e.fold fun node below =>
    match node with
    | .var w => w == v
    | _ => below.any id

/-- The names that stand for constants. -/
def constants : List String := ["pi", "e"]

/-- The variables in the order of their occurrences, constants left out. -/
def variableNames (e : Expr) : List String :=
  e.fold fun node below =>
    match node with
    | .var v => if constants.contains v then [] else [v]
    | _ => below.flatten

/-- The variables in alphabetical order, each once. -/
def freeVariables (e : Expr) : List String :=
  (e.variableNames.mergeSort fun a b => a ≤ b).eraseReps

/-! ## Substitution -/

/-- Puts a value in the place of a variable. Parts without the variable stay as they are. -/
def substitute (e : Expr) (v : String) (value : Expr) : Expr :=
  e.replaceOutermost fun node =>
    if !node.containsVar v then some node
    else
      match node with
      | .var _ => some value
      | _ => none

/-- Puts an expression in the place of another one, at its outermost occurrences. -/
def replace (e old new : Expr) : Expr :=
  e.replaceOutermost fun node => if node == old then some new else none

end Expr

end SymbolicAlgebra
