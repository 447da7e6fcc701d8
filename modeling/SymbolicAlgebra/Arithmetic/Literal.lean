import SymbolicAlgebra.Arithmetic.Number

/-!
# Numeric literals

Two grammars are read. An integer literal is an optional sign and digits of a radix, with
underscores anywhere among them. A real literal is a sign, two digit groups around an optional
point, and an optional exponent after `e`, `E` or `@`.

The readers return `none` on malformed text. Reading with an error message is
`Literal.readInteger`, which names the text as it was given.
-/

namespace SymbolicAlgebra

/-- The text is not an integer literal in the radix asked for. -/
structure InvalidInteger where
  /-- The text as it was given. -/
  text : String
deriving DecidableEq, Repr

/-- The text that reports a malformed integer literal. -/
def InvalidInteger.message (e : InvalidInteger) : String := "invalid integer literal: " ++ e.text

namespace Literal

/-- The characters with the property White_Space. -/
def isBlank (c : Char) : Bool :=
  let n := c.toNat
  (9 ≤ n && n ≤ 13) || n == 0x20 || n == 0x85 || n == 0xA0 || n == 0x1680
    || (0x2000 ≤ n && n ≤ 0x200A) || n == 0x2028 || n == 0x2029 || n == 0x202F || n == 0x205F
    || n == 0x3000

/-- The text without white space at its ends. -/
def trim (cs : List Char) : List Char :=
  ((cs.dropWhile isBlank).reverse.dropWhile isBlank).reverse

/-- The value of a digit: `0` to `9`, then the letters of either case. -/
def digitValue? (c : Char) : Option Nat :=
  if '0' ≤ c ∧ c ≤ '9' then some (c.toNat - '0'.toNat)
  else if 'a' ≤ c ∧ c ≤ 'z' then some (c.toNat - 'a'.toNat + 10)
  else if 'A' ≤ c ∧ c ≤ 'Z' then some (c.toNat - 'A'.toNat + 10)
  else none

/-- Reads digits of a radix on top of the value read so far; underscores are skipped. -/
def readDigits? (radix : Nat) : Nat → List Char → Option Nat
  | value, [] => some value
  | value, c :: cs =>
    if c = '_' then readDigits? radix value cs
    else
      match digitValue? c with
      | some d => if d < radix then readDigits? radix (value * radix + d) cs else none
      | none => none

/-- Reads at least one digit or underscore. -/
def readNatural? (radix : Nat) (cs : List Char) : Option Nat :=
  if cs.isEmpty then none else readDigits? radix 0 cs

/-- Splits off one sign; the flag tells a minus. -/
def splitSign : List Char → Bool × List Char
  | '-' :: cs => (true, cs)
  | '+' :: cs => (false, cs)
  | cs => (false, cs)

/-- An integer literal in a radix from 2 to 36. -/
def integer? (radix : Nat) (cs : List Char) : Option Int :=
  if 2 ≤ radix ∧ radix ≤ 36 then
    let (negative, digits) := splitSign cs
    (readNatural? radix digits).map fun n => if negative then -(n : Int) else n
  else none

/-- Reads an integer literal in a radix, as it stands. -/
def readInteger (text : String) (radix : Nat) : Except InvalidInteger Int :=
  match integer? radix text.toList with
  | some n => .ok n
  | none => .error ⟨text⟩

/-- A decimal integer literal between white space. -/
def parseInteger? (text : String) : Option Int := integer? 10 (trim text.toList)

/-- The exponent of a real literal: a sign and decimal digits, within a signed word of 64 bits. -/
def exponent? (cs : List Char) : Option Int :=
  let (negative, digits) := splitSign cs
  if digits.isEmpty ∨ digits.any (fun c => c == '_') then none
  else
    (readDigits? 10 0 digits).bind fun n =>
      toSignedWord? 64 (if negative then -(n : Int) else n)

/-- A digit group of a real literal: an optional plus and at least one digit or underscore. -/
def digitGroup? (cs : List Char) : Option Nat :=
  match cs with
  | '+' :: rest => readNatural? 10 rest
  | _ => readNatural? 10 cs

/-- The number of places that a digit group takes after the point: a plus counts as one. -/
def groupPlaces (cs : List Char) : Nat := (cs.filter (fun c => c != '_')).length

/--
The part of a real literal before the exponent, as digits and the number of places after the point.
Digits of the value zero after the point take no places.
-/
def body? (cs : List Char) : Option (Nat × Nat) :=
  let before := cs.takeWhile (fun c => c != '.')
  match cs.dropWhile (fun c => c != '.') with
  | [] => (digitGroup? before).map fun n => (n, 0)
  | _ :: after =>
    if before.isEmpty ∧ after.isEmpty then none
    else
      let whole? := if before.isEmpty then some 0 else digitGroup? before
      let fraction? := if after.isEmpty then some 0 else digitGroup? after
      match whole?, fraction? with
      | some whole, some 0 => some (whole, 0)
      | some whole, some fraction =>
        let places := groupPlaces after
        some (whole * Nat.pow 10 places + fraction, places)
      | _, _ => none

/-- Whether the character separates the exponent of a real literal. -/
def isExponentMark (c : Char) : Bool := c == 'e' || c == 'E' || c == '@'

/-- A real literal without white space around it. -/
def decimal? (cs : List Char) : Option Decimal :=
  let (negative, unsigned) := splitSign cs
  let backwards := unsigned.reverse
  let tail := backwards.takeWhile (fun c => !isExponentMark c)
  let parts : Option (List Char × Int) :=
    match backwards.dropWhile (fun c => !isExponentMark c) with
    | [] => some (unsigned, 0)
    | _ :: body => (exponent? tail.reverse).map fun e => (body.reverse, e)
  parts.bind fun (body, e) =>
    (body? body).map fun (n, places) =>
      let value : Decimal := Floating.ofParts (if negative then -(n : Int) else n) (e - places)
      value.round Decimal.precision

/-- A real literal between white space. -/
def parseReal? (text : String) : Option ExtReal := (decimal? (trim text.toList)).map .finite

/-- A numeric literal: an integer if it reads as one, else a real on its narrowest level. -/
def parseNumber? (text : String) : Option Number :=
  match parseInteger? text with
  | some n => some (.int n)
  | none => (parseReal? text).map Number.ofReal

end Literal

end SymbolicAlgebra
