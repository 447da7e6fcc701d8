import SymbolicAlgebra.Expr.Basic

/-!
# Notation of expressions

Every kind of expression has a priority, from the tightly binding leaves to the loosely binding
disjunctions. An operand is put into parentheses when it binds more loosely than its place allows.
Sums, products and statements take operands of their own priority without parentheses; a quotient
takes one on its left side only, a power, a negation and the sides of a comparison take none.

A negated term of a sum is written with a minus in front, unless it comes first.
-/

namespace SymbolicAlgebra

/-- How tightly an expression binds, the tightest first. -/
inductive Priority where
  | leaf
  | function
  | power
  | mul
  | sum
  | comparison
  | not
  | and
  | or
deriving DecidableEq

namespace Priority

/-- The position in the order of the priorities. -/
def rank : Priority → Nat
  | leaf => 0
  | function => 1
  | power => 2
  | mul => 3
  | sum => 4
  | comparison => 5
  | not => 6
  | and => 7
  | or => 8

/-- The name of a priority. -/
def name : Priority → String
  | leaf => "Leaf"
  | function => "Function"
  | power => "Power"
  | mul => "Mul"
  | sum => "Sum"
  | comparison => "Comparison"
  | not => "Not"
  | and => "And"
  | or => "Or"

end Priority

/--
How tightly a number literal binds. A fraction is written with a bar, a negative number with a sign
and a complex number with two parts as a sum.
-/
def Number.priority (n : Number) : Priority :=
  match n with
  | .rat _ => .mul
  | .complex z =>
    if !z.re.isZero then .sum
    else if z.im.isNegative then .mul
    else .leaf
  | _ => if n.isNegative then .mul else .leaf

/-- How tightly an expression binds. -/
def Expr.priority : Expr → Priority
  | .number n => n.priority
  | .var _ | .boolean _ | .set _ => .leaf
  | .apply _ _ => .function
  | .power _ _ => .power
  | .product _ | .neg _ | .div _ _ => .mul
  | .sum _ => .sum
  | .compare _ _ _ | .mem _ _ => .comparison
  | .not _ => .not
  | .and _ _ => .and
  | .or _ _ => .or

namespace Layout

/-- A text in parentheses, if they are needed. -/
def parenthesize (needed : Bool) (text : String) : String :=
  if needed then "(" ++ text ++ ")" else text

/-- The text of an operand in a place that takes operands of this priority and tighter ones. -/
def upTo (place : Priority) (e : Expr) (text : String) : String :=
  parenthesize (place.rank < e.priority.rank) text

/-- The text of an operand in a place that takes only operands tighter than this priority. -/
def below (place : Priority) (e : Expr) (text : String) : String :=
  parenthesize (place.rank ≤ e.priority.rank) text

end Layout

open Layout

mutual

/-- The notation of an expression. -/
def Expr.toText : Expr → String
  | .number n => n.toText
  | .var v => v
  | .sum es => sumText es
  | .product es => String.intercalate " * " (operandTexts .mul es)
  | .power b x => below .power b b.toText ++ "^" ++ below .power x x.toText
  | .neg a => "-" ++ below .mul a a.toText
  | .div a b => upTo .mul a a.toText ++ " / " ++ below .mul b b.toText
  | .apply f es => f.name ++ "(" ++ String.intercalate ", " (operandTexts .or es) ++ ")"
  | .boolean b => if b then "true" else "false"
  | .not a => "not " ++ upTo .not a a.toText
  | .and a b => upTo .and a a.toText ++ " and " ++ upTo .and b b.toText
  | .or a b => upTo .or a a.toText ++ " or " ++ upTo .or b b.toText
  | .compare r a b =>
    below .comparison a a.toText ++ " " ++ r.symbol ++ " " ++ below .comparison b b.toText
  | .set s => s.toText
  | .mem a s => below .comparison a a.toText ++ " in " ++ s.toText

/-- The texts of operands in places of one priority. -/
def operandTexts (place : Priority) : List Expr → List String
  | [] => []
  | e :: es => upTo place e e.toText :: operandTexts place es

/-- The terms of a sum with the signs between them. -/
def sumText : List Expr → String
  | [] => ""
  | e :: es => upTo .sum e e.toText ++ laterTermsText es

/-- The terms of a sum after the first one, each with the sign in front of it. -/
def laterTermsText : List Expr → String
  | [] => ""
  | .neg a :: es => " - " ++ below .sum a a.toText ++ laterTermsText es
  | e :: es => " + " ++ upTo .sum e e.toText ++ laterTermsText es

/-- The notation of a set. -/
def SetExpr.toText : SetExpr → String
  | .empty => "\x7b\x7d"
  | .finite es => "\x7b " ++ String.intercalate ", " (operandTexts .or es) ++ " \x7d"
  | .interval l lc r rc =>
    (if lc then "[" else "(") ++ l.toText ++ ", " ++ r.toText ++ (if rc then "]" else ")")
  | .union a b => a.toText ++ " \\/ " ++ b.toText
  | .intersection a b => "(" ++ a.toText ++ ") /\\ (" ++ b.toText ++ ")"

end

end SymbolicAlgebra
