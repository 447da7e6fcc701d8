import SymbolicAlgebra.Arithmetic.Number

/-!
# Expressions and sets

An expression is a tree of numbers, variables, arithmetic, function calls, statements and sets. Sums
and products take any number of operands. A set is written out as a list of points, as an interval,
or as a union or an intersection that has not been worked out; points and bounds are expressions
again, so the two types are defined together.

Building an expression computes nothing: `x + 1` is the sum of two operands, and `x - y` is the sum
of `x` and a negated `y`.
-/

namespace SymbolicAlgebra

/-- The functions that can be applied: the built-in ones, and any other by its name. -/
inductive Func where
  | sin
  | cos
  | tan
  | arcsin
  | arccos
  | arctan
  | exp
  | ln
  | sqrt
  | abs
  /-- Euler's totient. -/
  | phi
  /-- A function without a meaning of its own. -/
  | named (name : String)
deriving DecidableEq

namespace Func

/-- The name that a function is written with. -/
def name : Func → String
  | sin => "sin"
  | cos => "cos"
  | tan => "tan"
  | arcsin => "arcsin"
  | arccos => "arccos"
  | arctan => "arctan"
  | exp => "exp"
  | ln => "ln"
  | sqrt => "sqrt"
  | abs => "abs"
  | phi => "phi"
  | named s => s

/-- The function of a name; the inverse trigonometric functions have a short name too. -/
def ofName : String → Func
  | "sin" => sin
  | "cos" => cos
  | "tan" => tan
  | "arcsin" | "asin" => arcsin
  | "arccos" | "acos" => arccos
  | "arctan" | "atan" => arctan
  | "exp" => exp
  | "ln" => ln
  | "sqrt" => sqrt
  | "abs" => abs
  | "phi" => phi
  | s => named s

/-- Whether the function has a meaning of its own. -/
def isBuiltin : Func → Bool
  | named _ => false
  | _ => true

end Func

/-- The relations of comparisons. -/
inductive Comparison where
  | equal
  | less
  | greater
  | lessEqual
  | greaterEqual
deriving DecidableEq

namespace Comparison

/-- The sign that a relation is written with. -/
def symbol : Comparison → String
  | equal => "="
  | less => "<"
  | greater => ">"
  | lessEqual => "<="
  | greaterEqual => ">="

/-- The relation between the sides in the other order. -/
def flipped : Comparison → Comparison
  | equal => equal
  | less => greater
  | greater => less
  | lessEqual => greaterEqual
  | greaterEqual => lessEqual

/-- Whether the relation holds between two sides that compare in this way. -/
def holds : Comparison → Ordering → Bool
  | equal, o => o == .eq
  | less, o => o == .lt
  | greater, o => o == .gt
  | lessEqual, o => o != .gt
  | greaterEqual, o => o != .lt

end Comparison

mutual

/-- An expression. -/
inductive Expr where
  /-- A number literal. -/
  | number (value : Number)
  /-- A variable, or one of the constants `pi` and `e`. -/
  | var (name : String)
  /-- The sum of all operands. -/
  | sum (terms : List Expr)
  /-- The product of all operands. -/
  | product (factors : List Expr)
  /-- A power. -/
  | power (base exponent : Expr)
  /-- A negated expression. -/
  | neg (arg : Expr)
  /-- A quotient. -/
  | div (num den : Expr)
  /-- A function applied to arguments. -/
  | apply (func : Func) (args : List Expr)
  /-- A truth value. -/
  | boolean (value : Bool)
  /-- The negation of a statement. -/
  | not (statement : Expr)
  /-- The conjunction of two statements. -/
  | and (left right : Expr)
  /-- The disjunction of two statements. -/
  | or (left right : Expr)
  /-- A comparison. -/
  | compare (relation : Comparison) (left right : Expr)
  /-- A set as an expression. -/
  | set (value : SetExpr)
  /-- The statement that an element lies in a set. -/
  | mem (element : Expr) (set : SetExpr)

/-- A set of points. -/
inductive SetExpr where
  /-- The set without points. -/
  | empty
  /-- The set of the points listed. -/
  | finite (elements : List Expr)
  /-- The points between two bounds, each with a flag that tells whether it belongs to the set. -/
  | interval (left : Expr) (leftClosed : Bool) (right : Expr) (rightClosed : Bool)
  /-- A union that is not worked out. -/
  | union (left right : SetExpr)
  /-- An intersection that is not worked out. -/
  | intersection (left right : SetExpr)

end

namespace Expr

instance : Inhabited Expr := ⟨.number 0⟩

instance (n : Nat) : OfNat Expr n := ⟨.number (.int n)⟩

instance : Add Expr := ⟨fun a b => .sum [a, b]⟩
instance : Neg Expr := ⟨.neg⟩
instance : Sub Expr := ⟨fun a b => .sum [a, .neg b]⟩
instance : Mul Expr := ⟨fun a b => .product [a, b]⟩
instance : Div Expr := ⟨.div⟩

/-- An integer literal. -/
def int (n : Int) : Expr := .number (.int n)

/-- A rational literal on its narrowest level. -/
def rat (r : Rat) : Expr := .number (.ofRat r)

/-- Positive infinity. -/
def posInf : Expr := .number (.real .posInf)

/-- Negative infinity. -/
def negInf : Expr := .number (.real .negInf)

/-- The sum of a list: zero without operands, a single operand as it is. -/
def sumOf : List Expr → Expr
  | [] => 0
  | [e] => e
  | es => .sum es

/-- The product of a list: one without operands, a single operand as it is. -/
def productOf : List Expr → Expr
  | [] => 1
  | [e] => e
  | es => .product es

/-- A function of one argument. -/
def call (f : Func) (arg : Expr) : Expr := .apply f [arg]

/-- The argument of a call of `f` with one argument. -/
def argOf? (f : Func) : Expr → Option Expr
  | .apply g [arg] => if g = f then some arg else none
  | _ => none

/-- The number that a literal stands for. -/
def toNumber? : Expr → Option Number
  | .number n => some n
  | _ => none

/-- The integer that an integer literal stands for. -/
def toInt? (e : Expr) : Option Int := e.toNumber?.bind Number.toInt?

/-- The name of a variable. -/
def toVar? : Expr → Option String
  | .var v => some v
  | _ => none

/-- Whether the expression is a literal of value zero. -/
def isZero : Expr → Bool
  | .number n => n.isZero
  | _ => false

/-- Whether the expression is a literal of value one. -/
def isOne : Expr → Bool
  | .number n => n.isOne
  | _ => false

/-- The sum of two terms, of which a literal zero is left out. -/
def plus (a b : Expr) : Expr := if a.isZero then b else if b.isZero then a else a + b

/-- The product of two factors, of which a literal one is left out. -/
def times (a b : Expr) : Expr := if a.isOne then b else if b.isOne then a else a * b

/-- Whether the expression is a literal or a variable. -/
def isAtom : Expr → Bool
  | .number _ | .var _ | .boolean _ => true
  | _ => false

/-- Whether the expression is a statement. -/
def isStatement : Expr → Bool
  | .boolean _ | .not _ | .and _ _ | .or _ _ | .compare _ _ _ | .mem _ _ => true
  | _ => false

end Expr

namespace SetExpr

instance : Inhabited SetExpr := ⟨.empty⟩

/-- All reals. -/
def reals : SetExpr := .interval .negInf false .posInf false

/-- Whether the set is known to have no points: it lists none. -/
def isEmpty : SetExpr → Bool
  | .empty => true
  | .finite es => es.isEmpty
  | _ => false

end SetExpr

end SymbolicAlgebra
