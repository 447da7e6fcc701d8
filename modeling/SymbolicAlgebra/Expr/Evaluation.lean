import SymbolicAlgebra.Arithmetic.Literal
import SymbolicAlgebra.Expr.Equality
import SymbolicAlgebra.Expr.Text

/-!
# Evaluation

`Expr.eval` computes the number that an expression without free variables stands for, and
`Expr.truth` the truth of a statement. `SetExpr.contains?` decides whether a point lies in a set; it
has no answer when a point or a bound that matters cannot be evaluated.

An evaluation error names the innermost expression that has no value, and why.
-/

namespace SymbolicAlgebra

/-- Why an expression has no value. -/
inductive EvalFault where
  /-- A variable stands for no number. -/
  | freeVariable
  /-- The function has no value at the argument. -/
  | noNumericValue
  /-- The function takes one argument. -/
  | wrongArgumentCount
  /-- A statement stands where a number is asked for. -/
  | statementAsNumber
  /-- A set stands where a number is asked for. -/
  | setAsNumber
  /-- The sides of a comparison have no order. -/
  | unordered
  /-- It is not known whether the element lies in the set. -/
  | undecidable
  /-- The expression is not a statement. -/
  | notAStatement
deriving DecidableEq, Repr

/-- The reason in words. -/
def EvalFault.reason : EvalFault → String
  | freeVariable => "free variable"
  | noNumericValue => "no numeric value"
  | wrongArgumentCount => "wrong number of arguments"
  | statementAsNumber => "statement in numeric context"
  | setAsNumber => "set in numeric context"
  | unordered => "unordered operands"
  | undecidable => "undecidable membership"
  | notAStatement => "not a statement"

/-- An expression without a value. -/
structure EvalError where
  /-- The expression. -/
  expr : Expr
  /-- Why it has no value. -/
  fault : EvalFault

/-- The text that reports an evaluation error. -/
def EvalError.message (e : EvalError) : String :=
  "cannot evaluate `" ++ e.expr.toText ++ "`: " ++ e.fault.reason

/-! ## Functions of numbers -/

namespace Func

/-- The built-in functions of the real line that are computed in double precision. -/
def atDouble? (f : Func) (x : Float) : Option Float :=
  match f with
  | sin => some (Float.sin x)
  | cos => some (Float.cos x)
  | tan => some (Float.tan x)
  | arcsin => some (Float.asin x)
  | arccos => some (Float.acos x)
  | arctan => some (Float.atan x)
  | exp => some (Float.exp x)
  | ln => some (Float.log x)
  | sqrt | abs | phi | named _ => none

/-- The built-in functions that are computed off the real line. -/
def atComplex? (f : Func) (z : ExtComplex) : Option ExtComplex :=
  match f with
  | sin => some z.sin
  | cos => some z.cos
  | tan => some (z.sin.div z.cos)
  | exp => some z.exp
  | ln => some z.log
  | _ => none

/--
The value of a function at a number. Roots and absolute values are exact where they can be, the
totient takes integers only, and the logarithm of a negative number is complex.
-/
def eval? (f : Func) (a : Number) : Option Number :=
  match f with
  | sqrt => some a.sqrt
  | abs => some a.abs
  | phi => a.toInt?.map fun n => .int (totient n)
  | f =>
    match a.toReal? with
    | some x =>
      let v := x.toDouble
      if f = ln ∧ v < 0 then some (.ofComplex a.toComplex.log)
      else (f.atDouble? v).map Number.ofDouble
    | none => (f.atComplex? a.toComplex).map Number.ofComplex

end Func

/-! ## Numbers -/

/-- The number for a text of digits, on the real level. -/
def realConstant (digits : String) : Number :=
  match Literal.parseReal? digits with
  | some x => .real x
  | none => .nan

/-- The ratio of a circle's circumference to its diameter, to fifty digits. -/
def piValue : Number := realConstant "3.14159265358979323846264338327950288419716939937510"

/-- The base of the natural logarithm, to fifty digits. -/
def eulerValue : Number := realConstant "2.71828182845904523536028747135266249775724709369995"

namespace Expr

mutual

/-- The number that an expression stands for. -/
def eval : Expr → Except EvalError Number
  | .number n => .ok n
  | .var v =>
    if v = "pi" then .ok piValue
    else if v = "e" then .ok eulerValue
    else .error ⟨.var v, .freeVariable⟩
  | .sum es => evalFold Number.add 0 es
  | .product es => evalFold Number.mul 1 es
  | .power b x => do return (← b.eval).pow (← x.eval)
  | .neg a => do return -(← a.eval)
  | .div a b => do return (← a.eval) / (← b.eval)
  | .apply f es => do
    match ← evalAll es with
    | [a] =>
      match f.eval? a with
      | some value => .ok value
      | none => .error ⟨.apply f es, .noNumericValue⟩
    | _ => .error ⟨.apply f es, .wrongArgumentCount⟩
  | .set s => .error ⟨.set s, .setAsNumber⟩
  | e => .error ⟨e, .statementAsNumber⟩

/-- Combines the values of all operands with an accumulated value, from left to right. -/
def evalFold (combine : Number → Number → Number) (acc : Number) : List Expr →
    Except EvalError Number
  | [] => .ok acc
  | e :: es => do evalFold combine (combine acc (← e.eval)) es

/-- The values of all expressions of a list. -/
def evalAll : List Expr → Except EvalError (List Number)
  | [] => .ok []
  | e :: es => do return (← e.eval) :: (← evalAll es)

end

/-- The value, if there is one. -/
def eval? (e : Expr) : Option Number := e.eval.toOption

end Expr

/-! ## Membership -/

/-- Compares a number with the value of a bound. -/
def compareWithBound? (x : Number) (bound : Expr) : Option Ordering :=
  bound.eval?.bind x.compare?

/-- Whether a number lies between two bounds. A complex number does not. -/
def betweenBounds? (left : Expr) (leftClosed : Bool) (right : Expr) (rightClosed : Bool)
    (x : Number) : Option Bool :=
  if !x.isReal then some false
  else do
    let fromLeft ← compareWithBound? x left
    let fromRight ← compareWithBound? x right
    return (fromLeft == .gt || (fromLeft == .eq && leftClosed))
      && (fromRight == .lt || (fromRight == .eq && rightClosed))

/-- Whether two numbers are the same point: equal as data or in the numeric order. -/
def samePoint (a b : Number) : Bool := a == b || a.compare? b == some .eq

/--
Whether a number is among the values of points. A point without a value leaves the question open
when no other one answers it.
-/
def amongValues? (points : List Expr) (x : Number) : Option Bool :=
  let values := points.map Expr.eval?
  if values.any fun value => value.any fun y => samePoint y x then some true
  else if values.all Option.isSome then some false
  else none

/-- The disjunction of two answers that may be open. -/
def orElse? : Option Bool → Option Bool → Option Bool
  | some true, _ | _, some true => some true
  | some false, some false => some false
  | _, _ => none

/-- The conjunction of two answers that may be open. -/
def andThen? : Option Bool → Option Bool → Option Bool
  | some false, _ | _, some false => some false
  | some true, some true => some true
  | _, _ => none

/-- Whether a point lies in a set, where that can be decided. -/
def SetExpr.contains? : SetExpr → Expr → Option Bool
  | .empty, _ => some false
  | .finite points, e =>
    if points.any (· == e) then some true
    else e.eval?.bind (amongValues? points)
  | .interval l lc r rc, e => e.eval?.bind (betweenBounds? l lc r rc)
  | .union a b, e => orElse? (a.contains? e) (b.contains? e)
  | .intersection a b, e => andThen? (a.contains? e) (b.contains? e)

/-! ## Statements -/

namespace Expr

/--
Whether a relation holds between two numbers. Numbers without an order are equal when they are the
same data, and have no other relation.
-/
def compareNumbers (relation : Comparison) (a b : Number) : Option Bool :=
  match a.compare? b with
  | some o => some (relation.holds o)
  | none => if relation = .equal then some (a == b) else none

/-- The truth of a statement. The right side of a connective counts only if the left side leaves the
answer open. -/
def truth : Expr → Except EvalError Bool
  | .boolean b => .ok b
  | .not a => do return !(← a.truth)
  | .and a b => do if ← a.truth then b.truth else return false
  | .or a b => do if ← a.truth then return true else b.truth
  | .compare relation a b => do
    let x ← a.eval
    let y ← b.eval
    match compareNumbers relation x y with
    | some truth => .ok truth
    | none => .error ⟨.compare relation a b, .unordered⟩
  | .mem a s => do
    let x ← a.eval
    match s.contains? (.number x) with
    | some truth => .ok truth
    | none => .error ⟨.mem a s, .undecidable⟩
  | e => .error ⟨e, .notAStatement⟩

end Expr

end SymbolicAlgebra
