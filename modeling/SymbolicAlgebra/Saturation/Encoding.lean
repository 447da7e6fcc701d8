import SymbolicAlgebra.Expr.Equality
import SymbolicAlgebra.Saturation.OpTerm

/-!
# Expressions as operator terms

An expression of integers, rationals, variables, arithmetic and most built-in functions has a form
as an operator term: sums and products become nested binary ones, a rational becomes a quotient of
literals. A part of another kind is kept in a list and stands in the term as a symbol `$i`, with
its position in the list; equal parts share a symbol.

The way back splices nested sums and products, makes rationals of quotients of literals and puts the
parts of the list in the places of their symbols.
-/

namespace SymbolicAlgebra

namespace Encoding

/-- The operator for a function, if the language has it. -/
def unaryOp? : Func → Option UnaryOp
  | .sin => some .sin
  | .cos => some .cos
  | .tan => some .tan
  | .arcsin => some .asin
  | .arccos => some .acos
  | .arctan => some .atan
  | .exp => some .exp
  | .ln => some .ln
  | .sqrt => some .sqrt
  | .abs => some .abs
  | .phi | .named _ => none

/-- Whether the language has the outermost node of an expression. -/
def covers : Expr → Bool
  | .number (.int _) | .number (.rat _) => true
  | .var _ | .sum _ | .product _ | .power _ _ | .neg _ | .div _ _ => true
  | .apply f [_] => (unaryOp? f).isSome
  | _ => false

/-! ## To terms -/

/-- The parts that are kept apart, in the order in which they were met. -/
abbrev Kept := List Expr

/-- The symbol for the part at a position. -/
def placeholder (index : Nat) : OpTerm := .symbol ("$" ++ toString index)

/-- Keeps a part, unless an equal one is there, and gives its symbol. -/
def keep (e : Expr) : StateM Kept OpTerm := fun kept =>
  match kept.findIdx? fun k => k == e with
  | some i => (placeholder i, kept)
  | none => (placeholder kept.length, kept ++ [e])

/-- Combines operands from the left; no operands give zero. -/
def nest (op : BinaryOp) : List OpTerm → OpTerm
  | [] => .num 0
  | t :: ts => ts.foldl (.binary op) t

mutual

/-- The term for an expression. -/
def toTerm : Expr → StateM Kept OpTerm
  | .number (.int n) => pure (.num n)
  | .number (.rat r) => pure (.binary .div (.num r.num) (.num r.den))
  | .var v => pure (.symbol v)
  | .sum es => do return nest .add (← toTerms es)
  | .product es => do return nest .mul (← toTerms es)
  | .power b x => do return .binary .pow (← toTerm b) (← toTerm x)
  | .neg a => do return .unary .neg (← toTerm a)
  | .div a b => do return .binary .div (← toTerm a) (← toTerm b)
  | .apply f [a] =>
    match unaryOp? f with
    | some op => do return .unary op (← toTerm a)
    | none => keep (.apply f [a])
  | e => keep e

/-- The terms for the expressions of a list. -/
def toTerms : List Expr → StateM Kept (List OpTerm)
  | [] => pure []
  | e :: es => do return (← toTerm e) :: (← toTerms es)

end

/-! ## From terms -/

/-- The function for an operator; negation is not a function. -/
def ofUnary : UnaryOp → Expr → Expr
  | .neg => .neg
  | .sin => .call .sin
  | .cos => .call .cos
  | .tan => .call .tan
  | .asin => .call .arcsin
  | .acos => .call .arccos
  | .atan => .call .arctan
  | .exp => .call .exp
  | .ln => .call .ln
  | .sqrt => .call .sqrt
  | .abs => .call .abs

/-- The terms of a sum, or the expression as its only term. -/
def terms : Expr → List Expr
  | .sum es => es
  | e => [e]

/-- The factors of a product, or the expression as its only factor. -/
def factors : Expr → List Expr
  | .product es => es
  | e => [e]

/-- A quotient of literals is a rational again. -/
def ofQuotient (a b : Expr) : Expr :=
  match a, b with
  | .number (.int p), .number (.int q) =>
    if q = 0 then .div a b else .number (.ofQuotient p q)
  | _, _ => .div a b

/-- The position that a symbol stands for: decimal digits after the dollar sign and an optional
plus. A position past the end of the list stands for no part, however large it is. -/
def position? (s : String) : Option Nat :=
  match s.toList with
  | '$' :: '+' :: digits => number? digits
  | '$' :: digits => number? digits
  | _ => none
where
  /-- The value of decimal digits. -/
  number? (digits : List Char) : Option Nat :=
    if digits.isEmpty || digits.any (fun c => c == '_') then none
    else Literal.readDigits? 10 0 digits

/-- The part that a symbol stands for, or the variable of that name. -/
def restore (kept : Kept) (s : String) : Expr :=
  ((position? s).bind fun i => kept[i]?).getD (.var s)

/-- The expression for a term. -/
def ofTerm (kept : Kept) : OpTerm → Expr
  | .num n => .int n
  | .symbol s => restore kept s
  | .unary op a => ofUnary op (ofTerm kept a)
  | .binary .add a b => .sumOf (terms (ofTerm kept a) ++ terms (ofTerm kept b))
  | .binary .sub a b => .sumOf (terms (ofTerm kept a) ++ [.neg (ofTerm kept b)])
  | .binary .mul a b => .productOf (factors (ofTerm kept a) ++ factors (ofTerm kept b))
  | .binary .div a b => ofQuotient (ofTerm kept a) (ofTerm kept b)
  | .binary .pow a b => .power (ofTerm kept a) (ofTerm kept b)

end Encoding

end SymbolicAlgebra
