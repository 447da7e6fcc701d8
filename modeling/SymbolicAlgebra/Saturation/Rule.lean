import SymbolicAlgebra.Saturation.EGraph

/-!
# Rules of saturation

A rule says that the terms of one shape are equal to terms of another shape. Shapes are templates:
terms with holes, which stand for any class of an e-graph. A rule may ask of the class in a hole
that it is not known to be zero, or that it is known to be an integer.

The three groups of rules hold wherever their left sides are defined: the laws of fields, laws of
trigonometric functions, and laws of exponentials, logarithms and roots of real arguments.
-/

namespace SymbolicAlgebra

/-- A term with holes. -/
inductive Template where
  /-- A hole, by its number. -/
  | hole (index : Nat)
  /-- An integer literal. -/
  | num (value : Int)
  /-- An operator with one operand. -/
  | unary (op : UnaryOp) (a : Template)
  /-- An operator with two operands. -/
  | binary (op : BinaryOp) (a b : Template)
deriving DecidableEq

namespace Template

instance (n : Nat) : OfNat Template n := ⟨.num n⟩
instance : Add Template := ⟨.binary .add⟩
instance : Sub Template := ⟨.binary .sub⟩
instance : Mul Template := ⟨.binary .mul⟩
instance : Div Template := ⟨.binary .div⟩
instance : Neg Template := ⟨.unary .neg⟩

/-- A power. -/
def pow (a b : Template) : Template := .binary .pow a b

end Template

/-- What a rule asks of the class in a hole. -/
inductive Guard where
  /-- The class is not known to be zero. -/
  | notZero (hole : Nat)
  /-- The class is known to be an integer. -/
  | isInteger (hole : Nat)
deriving DecidableEq

/-- A named rule. -/
structure Rule where
  /-- The name that the rule is chosen by. -/
  name : String
  /-- The shape of the terms that the rule applies to. -/
  left : Template
  /-- The shape of the terms that they are equal to. -/
  right : Template
  /-- The condition under which they are. -/
  guard? : Option Guard := none

namespace Rule

open Template

/-- The first hole. -/
abbrev a : Template := .hole 0

/-- The second hole. -/
abbrev b : Template := .hole 1

/-- The third hole. -/
abbrev c : Template := .hole 2

/-- A hole for a coefficient or an exponent. -/
abbrev m : Template := .hole 3

/-- Another hole for a coefficient or an exponent. -/
abbrev n : Template := .hole 4

/-- A function of one operand. -/
abbrev fn (op : UnaryOp) (t : Template) : Template := .unary op t

/-- The laws of rings and fields. A law that divides by a class asks that it is not known to be
zero, and merging nested powers asks for an integer as the outer exponent. -/
def arithmetic : List Rule :=
  [{ name := "add-0", left := a + 0, right := a },
   { name := "mul-1", left := a * 1, right := a },
   { name := "mul-0", left := a * 0, right := 0 },
   { name := "div-1", left := a / 1, right := a },
   { name := "pow-0", left := pow a 0, right := 1 },
   { name := "pow-1", left := pow a 1, right := a },
   { name := "neg-neg", left := - -a, right := a },
   { name := "neg-to-mul", left := -a, right := .num (-1) * a },
   { name := "mul-to-neg", left := .num (-1) * a, right := -a },
   { name := "sub-to-add", left := a - b, right := a + -b },
   { name := "add-inverse", left := a + -a, right := 0 },
   { name := "add-comm", left := a + b, right := b + a },
   { name := "mul-comm", left := a * b, right := b * a },
   { name := "add-assoc", left := a + (b + c), right := a + b + c },
   { name := "mul-assoc", left := a * (b * c), right := a * b * c },
   { name := "mul-distribute", left := a * (b + c), right := a * b + a * c },
   { name := "mul-collect", left := a * b + a * c, right := a * (b + c) },
   { name := "terms-double", left := a + a, right := 2 * a },
   { name := "terms-absorb", left := m * a + a, right := (m + 1) * a },
   { name := "terms-merge", left := m * a + n * a, right := (m + n) * a },
   { name := "pow-recip", left := pow a (.num (-1)), right := 1 / a },
   { name := "pow-square", left := a * a, right := pow a 2 },
   { name := "pow-merge", left := pow a m * pow a n, right := pow a (m + n) },
   { name := "pow-absorb", left := pow a m * a, right := pow a (m + 1) },
   { name := "pow-nest", left := pow (pow a m) n, right := pow a (m * n),
     guard? := some (.isInteger 4) },
   { name := "div-self", left := a / a, right := 1, guard? := some (.notZero 0) },
   { name := "div-neg", left := -a / b, right := -(a / b) },
   { name := "div-cancel", left := a * b / b, right := a, guard? := some (.notZero 1) },
   { name := "mul-div-cancel", left := a / b * b, right := a, guard? := some (.notZero 1) }]

/-- The Pythagorean identity, parity, quotients and inverse functions. -/
def trigonometry : List Rule :=
  [{ name := "pythagorean", left := pow (fn .sin a) 2 + pow (fn .cos a) 2, right := 1 },
   { name := "pythagorean-swapped", left := pow (fn .cos a) 2 + pow (fn .sin a) 2, right := 1 },
   { name := "tan-quotient", left := fn .sin a / fn .cos a, right := fn .tan a },
   { name := "sin-double", left := 2 * (fn .sin a * fn .cos a), right := fn .sin (2 * a) },
   { name := "sin-0", left := fn .sin 0, right := 0 },
   { name := "cos-0", left := fn .cos 0, right := 1 },
   { name := "tan-0", left := fn .tan 0, right := 0 },
   { name := "sin-odd", left := fn .sin (-a), right := -fn .sin a },
   { name := "cos-even", left := fn .cos (-a), right := fn .cos a },
   { name := "tan-odd", left := fn .tan (-a), right := -fn .tan a },
   { name := "sin-asin", left := fn .sin (fn .asin a), right := a },
   { name := "cos-acos", left := fn .cos (fn .acos a), right := a },
   { name := "tan-atan", left := fn .tan (fn .atan a), right := a }]

/-- The laws of exponentials, logarithms and roots. -/
def expLog : List Rule :=
  [{ name := "exp-0", left := fn .exp 0, right := 1 },
   { name := "ln-1", left := fn .ln 1, right := 0 },
   { name := "exp-ln", left := fn .exp (fn .ln a), right := a },
   { name := "ln-exp", left := fn .ln (fn .exp a), right := a },
   { name := "exp-scaled-ln", left := fn .exp (n * fn .ln a), right := pow a n },
   { name := "exp-product", left := fn .exp a * fn .exp b, right := fn .exp (a + b) },
   { name := "sqrt-as-pow", left := fn .sqrt a, right := pow a (1 / 2) },
   { name := "pow-as-sqrt", left := pow a (1 / 2), right := fn .sqrt a },
   { name := "sqrt-square", left := pow (fn .sqrt a) 2, right := a },
   { name := "sqrt-of-square", left := fn .sqrt (pow a 2), right := fn .abs a },
   { name := "ln-sqrt", left := fn .ln (fn .sqrt a), right := fn .ln a / 2 }]

/-- All rules, in the order in which they are applied. -/
def library : List Rule := arithmetic ++ trigonometry ++ expLog

end Rule

/-! ## Matching -/

/-- The classes in the holes of a template. -/
abbrev Bindings := List (Nat × ClassId)

namespace Template

/-- Whether all holes of a template are bound. -/
def isFilled (bindings : Bindings) : Template → Bool
  | .hole index => (bindings.lookup index).isSome
  | .num _ => true
  | .unary _ s => s.isFilled bindings
  | .binary _ s t => s.isFilled bindings && t.isFilled bindings

/-- The class of a template whose holes are filled, if all its nodes have been met. -/
def lookup? (g : EGraph) (bindings : Bindings) : Template → Option ClassId
  | .hole index => (bindings.lookup index).map g.root
  | .num n => g.lookup? (.num n)
  | .unary op s => do g.lookup? (.unary op (← s.lookup? g bindings))
  | .binary op s t => do g.lookup? (.binary op (← s.lookup? g bindings) (← t.lookup? g bindings))

/-- All ways to find a template in a class, on top of the bindings so far. Operands are matched from
left to right. A part whose holes are bound by then is looked up in the index, which still tells its
class when the class has dropped its nodes for a known value; any other part is searched for among
the nodes of the class. -/
def findIn (g : EGraph) (t : Template) (i : ClassId) (bindings : Bindings) : List Bindings :=
  if t.isFilled bindings then
    if t.lookup? g bindings = some i then [bindings] else []
  else
    match t with
    | .hole index => [(index, i) :: bindings]
    | .num _ => []
    | .unary op s =>
      (g.classOf i).nodes.toList.flatMap fun
        | .unary op' j => if op' = op then s.findIn g j bindings else []
        | _ => []
    | .binary op s t =>
      (g.classOf i).nodes.toList.flatMap fun
        | .binary op' j k =>
          if op' = op then (s.findIn g j bindings).flatMap (t.findIn g k) else []
        | _ => []

/-- Whether the node has the operator at the head of the template. -/
def headMatches : Template → ENode → Bool
  | .hole _, _ => true
  | .num n, .num m => n == m
  | .unary op _, .unary op' _ => op == op'
  | .binary op _ _, .binary op' _ _ => op == op'
  | _, _ => false

/-- All ways to find a template in a class that has a node with the operator of the template. -/
def matchesIn (g : EGraph) (t : Template) (i : ClassId) : List Bindings :=
  if (g.classOf i).nodes.any t.headMatches then t.findIn g i [] else []

/-- The class of a template whose holes are filled. -/
def enter (g : EGraph) (bindings : Bindings) : Template → EGraph × ClassId
  | .hole index => (g, (bindings.lookup index).getD 0)
  | .num n => g.add (.num n)
  | .unary op s =>
    let (g, i) := s.enter g bindings
    g.add (.unary op i)
  | .binary op s t =>
    let (g, i) := s.enter g bindings
    let (g, j) := t.enter g bindings
    g.add (.binary op i j)

end Template

/-- Whether the condition holds of the classes in the holes. -/
def Guard.holds (g : EGraph) (bindings : Bindings) : Guard → Bool
  | .notZero hole => ((bindings.lookup hole).bind g.value?) != some 0
  | .isInteger hole => ((bindings.lookup hole).bind g.value?).isSome

end SymbolicAlgebra
