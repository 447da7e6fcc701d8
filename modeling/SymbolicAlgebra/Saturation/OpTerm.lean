import SymbolicAlgebra.Arithmetic.Literal

/-!
# Operator terms

Equality saturation works on a small language: integer literals, symbols, and operators of one or
two operands. `OpNode` is one node of it over any kind of operands, `OpTerm` is a whole term.

Terms are written in prefix form, `(+ (* 2 x) y)`. An atom that reads as an integer literal is a
literal, any other atom is a symbol. A symbol that starts with a dollar sign stands for a part that
the language does not cover. An atom may stand in quotes, and has to if it is empty or has blanks or
parentheses in it; quoted or not, its characters are read and written as they are.
-/

namespace SymbolicAlgebra

/-- The operators of one operand. -/
inductive UnaryOp where
  | neg
  | sin
  | cos
  | tan
  | asin
  | acos
  | atan
  | exp
  | ln
  | sqrt
  | abs
deriving DecidableEq, Hashable

namespace UnaryOp

/-- The sign of an operator. -/
def sign : UnaryOp → String
  | neg => "neg"
  | sin => "sin"
  | cos => "cos"
  | tan => "tan"
  | asin => "asin"
  | acos => "acos"
  | atan => "atan"
  | exp => "exp"
  | ln => "ln"
  | sqrt => "sqrt"
  | abs => "abs"

/-- All operators of one operand. -/
def all : List UnaryOp := [neg, sin, cos, tan, asin, acos, atan, exp, ln, sqrt, abs]

/-- The operator with a sign. -/
def ofSign? (s : String) : Option UnaryOp := all.find? fun op => op.sign == s

end UnaryOp

/-- The operators of two operands. -/
inductive BinaryOp where
  | add
  | sub
  | mul
  | div
  | pow
deriving DecidableEq, Hashable

namespace BinaryOp

/-- The sign of an operator. -/
def sign : BinaryOp → String
  | add => "+"
  | sub => "-"
  | mul => "*"
  | div => "/"
  | pow => "^"

/-- All operators of two operands. -/
def all : List BinaryOp := [add, sub, mul, div, pow]

/-- The operator with a sign. -/
def ofSign? (s : String) : Option BinaryOp := all.find? fun op => op.sign == s

end BinaryOp

/-- A node over operands of any kind. -/
inductive OpNode (α : Type) where
  /-- An integer literal. -/
  | num (value : Int)
  /-- A symbol. -/
  | symbol (name : String)
  /-- An operator with one operand. -/
  | unary (op : UnaryOp) (a : α)
  /-- An operator with two operands. -/
  | binary (op : BinaryOp) (a b : α)
deriving DecidableEq, Hashable

namespace OpNode

variable {α β : Type}

instance : Inhabited (OpNode α) := ⟨.num 0⟩

/-- The node over other operands. -/
def map (f : α → β) : OpNode α → OpNode β
  | num n => .num n
  | symbol s => .symbol s
  | unary op a => .unary op (f a)
  | binary op a b => .binary op (f a) (f b)

/-- The operands. -/
def operands : OpNode α → List α
  | num _ | symbol _ => []
  | unary _ a => [a]
  | binary _ a b => [a, b]

/-- Whether the node has no operands. -/
def isLeaf : OpNode α → Bool
  | num _ | symbol _ => true
  | _ => false

/-- The place of a node's operator among all: literals and symbols come first, and negation stands
between the operators of two operands. -/
def rank : OpNode α → Nat
  | num _ => 0
  | symbol _ => 1
  | binary .add _ _ => 2
  | binary .sub _ _ => 3
  | binary .mul _ _ => 4
  | binary .div _ _ => 5
  | unary .neg _ => 6
  | binary .pow _ _ => 7
  | unary .sin _ => 8
  | unary .cos _ => 9
  | unary .tan _ => 10
  | unary .asin _ => 11
  | unary .acos _ => 12
  | unary .atan _ => 13
  | unary .exp _ => 14
  | unary .ln _ => 15
  | unary .sqrt _ => 16
  | unary .abs _ => 17

/-- The order of nodes: by the operators, then by literals, names or operands. -/
def order [Ord α] : OpNode α → OpNode α → Ordering
  | num m, num n => compare m n
  | symbol s, symbol t => compare s t
  | a, b => (compare a.rank b.rank).then (compareOperands a.operands b.operands)
where
  /-- The order of two lists of operands, by the first that differ. -/
  compareOperands : List α → List α → Ordering
    | a :: as, b :: bs => (compare a b).then (compareOperands as bs)
    | _, _ => .eq

/-- The largest exponent for which a power of literals is computed. -/
def maxExponent : Nat := 64

/-- The integer quotient, if the division leaves no remainder. -/
def exactQuotient? (a b : Int) : Option Int :=
  if b ≠ 0 ∧ a % b = 0 then some (a / b) else none

/-- The integer power for a small exponent that is not negative. -/
def smallPower? (a k : Int) : Option Int :=
  if 0 ≤ k ∧ k ≤ maxExponent then some (integerPower a k.toNat) else none

/-- The integer that a node is equal to, as far as the integers of its operands tell. -/
def fold? (value? : α → Option Int) : OpNode α → Option Int
  | num n => some n
  | unary .neg a => (value? a).map fun x => -x
  | binary .add a b => do return (← value? a) + (← value? b)
  | binary .sub a b => do return (← value? a) - (← value? b)
  | binary .mul a b => do return (← value? a) * (← value? b)
  | binary .div a b => do exactQuotient? (← value? a) (← value? b)
  | binary .pow a b => do smallPower? (← value? a) (← value? b)
  | _ => none

end OpNode

/-- A term of the language. -/
inductive OpTerm where
  /-- An integer literal. -/
  | num (value : Int)
  /-- A symbol. -/
  | symbol (name : String)
  /-- An operator with one operand. -/
  | unary (op : UnaryOp) (a : OpTerm)
  /-- An operator with two operands. -/
  | binary (op : BinaryOp) (a b : OpTerm)
deriving DecidableEq

namespace OpTerm

instance : Inhabited OpTerm := ⟨.num 0⟩

/-- The term made of a node over terms. -/
def ofNode : OpNode OpTerm → OpTerm
  | .num n => num n
  | .symbol s => symbol s
  | .unary op a => unary op a
  | .binary op a b => binary op a b

/-- All parts of the term, operands before the parts that they belong to. -/
def parts : OpTerm → List OpTerm
  | num n => [num n]
  | symbol s => [symbol s]
  | unary op a => a.parts ++ [unary op a]
  | binary op a b => a.parts ++ b.parts ++ [binary op a b]

/-- The value of a literal. -/
def literal? : OpTerm → Option Int
  | num n => some n
  | _ => none

/-- Whether the term is a symbol for a part that the language does not cover. -/
def isOpaqueSymbol : OpTerm → Bool
  | symbol s => s.startsWith "$"
  | _ => false

/-! ## Writing -/

/-- Whether an atom with the character in it is written in quotes: a blank, a tabulator, a
parenthesis, a brace or a percent sign. -/
def needsQuotes (c : Char) : Bool :=
  c == ' ' || c == '\t' || c == '(' || c == ')' || c == '\x7b' || c == '\x7d' || c == '%'

/-- The text of an atom, which is quoted when it is empty or has a character that needs quotes. The
characters themselves are written as they are. -/
def atomText (s : String) : String :=
  if s.isEmpty || s.any needsQuotes then "\"" ++ s ++ "\"" else s

/-- The text of a term, with single blanks. -/
def toText : OpTerm → String
  | num n => toString n
  | symbol s => atomText s
  | unary op a => "(" ++ op.sign ++ " " ++ a.toText ++ ")"
  | binary op a b => "(" ++ op.sign ++ " " ++ a.toText ++ " " ++ b.toText ++ ")"

/-! ## Reading -/

/-- The tokens of a text. -/
inductive Token where
  /-- An opening parenthesis. -/
  | opening
  /-- A closing parenthesis. -/
  | closing
  /-- An atom. -/
  | atom (text : String)
  /-- A quoted atom that the text ends in. -/
  | unclosed

/-- What the lexer is in the middle of. -/
inductive LexState where
  /-- Between atoms. -/
  | between
  /-- Inside an atom, with its characters so far in reverse. -/
  | bare (read : List Char)
  /-- Inside a quoted atom. -/
  | quoted (read : List Char)
  /-- After a backslash in a quoted atom. -/
  | escaped (read : List Char)

/-- The atom with these characters in reverse. -/
def atomOf (read : List Char) : Token := .atom (String.ofList read.reverse)

/-- Whether the character ends an atom without quotes. -/
def endsAtom (c : Char) : Bool := c == ' ' || c == '\n' || c == '\r'

/-- Whether the character may stand between atoms: one that ends an atom, or a tabulator. Any other
white space belongs to an atom. -/
def isSeparator (c : Char) : Bool := endsAtom c || c == '\t'

/-- Splits a text into tokens. In a quoted atom a backslash keeps the character after it from ending
the atom, and both stay in the text of the atom. -/
def tokens : LexState → List Char → List Token
  | .between, [] => []
  | .bare read, [] => [atomOf read]
  | .quoted _, [] | .escaped _, [] => [.unclosed]
  | .between, c :: cs =>
    if c = '(' then .opening :: tokens .between cs
    else if c = ')' then .closing :: tokens .between cs
    else if c = '"' then tokens (.quoted []) cs
    else if isSeparator c then tokens .between cs
    else tokens (.bare [c]) cs
  | .bare read, c :: cs =>
    if c = '(' then atomOf read :: .opening :: tokens .between cs
    else if c = ')' then atomOf read :: .closing :: tokens .between cs
    else if endsAtom c then atomOf read :: tokens .between cs
    else tokens (.bare (c :: read)) cs
  | .quoted read, c :: cs =>
    if c = '"' then atomOf read :: tokens .between cs
    else if c = '\\' then tokens (.escaped (c :: read)) cs
    else tokens (.quoted (c :: read)) cs
  | .escaped read, c :: cs => tokens (.quoted (c :: read)) cs

/-- An atom as a term. -/
def ofAtom (s : String) : OpTerm :=
  match Literal.integer? 10 s.toList with
  | some n => num n
  | none => symbol s

/-- The term for a sign with its operands. -/
def ofSign? (s : String) : List OpTerm → Option OpTerm
  | [] => some (ofAtom s)
  | [a] => (UnaryOp.ofSign? s).map (unary · a)
  | [a, b] => (BinaryOp.ofSign? s).map (binary · a b)
  | _ => none

/-- A list that is being read: its sign, once that is known, and its operands in reverse. -/
structure Frame where
  /-- The sign at the head of the list. -/
  head? : Option String
  /-- The operands so far, the last one first. -/
  operands : List OpTerm

/-- Reads tokens into the lists that are open, the innermost first, up to the end of the term. -/
def readTokens? : List Frame → List Token → Option OpTerm
  | _, [] | _, .unclosed :: _ => none
  | [], .atom s :: _ => some (ofAtom s)
  | ⟨none, _⟩ :: _, .opening :: _ => none
  | frames, .opening :: ts => readTokens? (⟨none, []⟩ :: frames) ts
  | [], .closing :: _ | ⟨none, _⟩ :: _, .closing :: _ => none
  | ⟨none, ops⟩ :: frames, .atom s :: ts => readTokens? (⟨some s, ops⟩ :: frames) ts
  | ⟨some h, ops⟩ :: frames, .atom s :: ts => readTokens? (⟨some h, ofAtom s :: ops⟩ :: frames) ts
  | ⟨some h, ops⟩ :: frames, .closing :: ts =>
    match ofSign? h ops.reverse, frames with
    | none, _ => none
    | some t, [] => some t
    | some t, f :: rest => readTokens? (⟨f.head?, t :: f.operands⟩ :: rest) ts

/-- Reads the term that a text starts with; what stands after it does not matter. -/
def parse? (text : String) : Option OpTerm := readTokens? [] (tokens .between text.toList)

end OpTerm

end SymbolicAlgebra
