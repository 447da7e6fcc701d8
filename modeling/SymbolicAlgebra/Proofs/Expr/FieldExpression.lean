import SymbolicAlgebra.Proofs.Expr.ExactValue

/-!
# Field expressions

`Expr.IsField K e` says that `e` is built from exact numbers and variables by sums, products, signs,
quotients and powers whose exponents are integer literals in `K`.

Rewriting an expression need not leave literal exponents behind: a derivative has the exponent
`k - 1` as a difference that is not worked out. `Expr.exactValue?` therefore computes exponents too.
It has an answer where no division by zero and no negative power of zero occurs and every exponent
comes out as a whole number. On expressions with literal exponents this is `Expr.Defined`, and the
answer is `Expr.value`.
-/

namespace SymbolicAlgebra

variable {ρ : Assignment}

/-- The quotient, unless it is one by zero. -/
def exactQuotient? (p q : ℚ) : Option ℚ := if q = 0 then none else some (p / q)

/-- The power, if the exponent is whole, unless it is a negative power of zero. -/
def exactPower? (p x : ℚ) : Option ℚ :=
  if x.den = 1 ∧ (p = 0 → 0 ≤ x.num) then some (p ^ x.num) else none

/-- An exact power of a number with a whole exponent is the power. -/
theorem exactPower?_intCast {p : ℚ} {k : ℤ} (h : p = 0 → 0 ≤ k) :
    exactPower? p k = some (p ^ k) := by
  rw [exactPower?, Rat.num_intCast, if_pos ⟨Rat.den_intCast k, h⟩]

namespace Expr

/-- Expressions built from exact numbers and variables by the operations of a field; the exponents
of powers are integer literals in `K`. -/
inductive IsField (K : ℤ → Prop) : Expr → Prop
  | number {n : Number} {q : ℚ} (h : n.toRat? = some q) : IsField K (.number n)
  | var (v : String) : IsField K (.var v)
  | sum {es : List Expr} (h : ∀ e ∈ es, IsField K e) : IsField K (.sum es)
  | product {es : List Expr} (h : ∀ e ∈ es, IsField K e) : IsField K (.product es)
  | power {b : Expr} {k : ℤ} (hb : IsField K b) (hk : K k) : IsField K (.power b (.int k))
  | neg {a : Expr} (ha : IsField K a) : IsField K (.neg a)
  | div {a b : Expr} (ha : IsField K a) (hb : IsField K b) : IsField K (.div a b)

/-- There are no sets in a field expression. -/
theorem IsField.setFree {K : ℤ → Prop} {e : Expr} (h : e.IsField K) : e.SetFree := by
  induction h with
  | number h => exact .number _
  | var v => exact .var v
  | sum _ ih => exact .sum ih
  | product _ ih => exact .product ih
  | power _ _ ih => exact .power ih (.number _)
  | neg _ ih => exact .neg ih
  | div _ _ iha ihb => exact .div iha ihb

/-- Only a literal stands for a number. -/
theorem eq_number_of_toNumber? {e : Expr} {n : Number} (h : e.toNumber? = some n) :
    e = .number n := by
  cases e with
  | number m => exact congrArg Expr.number (Option.some.inj h)
  | _ => cases h

/-- Operands of a field expression are field expressions. -/
theorem IsField.of_mem_children {K : ℤ → Prop} {c e : Expr} (h : e.IsField K)
    (hc : c ∈ e.children) : c.IsField K := by
  cases h with
  | number h => simp [children] at hc
  | var v => simp [children] at hc
  | sum h | product h => exact h c hc
  | neg ha => exact List.mem_singleton.mp hc ▸ ha
  | power hb hk =>
    rcases List.mem_pair.mp hc with rfl | rfl
    · exact hb
    · exact .number (Number.toRat?_int _)
  | div ha hb =>
    rcases List.mem_pair.mp hc with rfl | rfl
    · exact ha
    · exact hb

/-- There are no function calls in a field expression. -/
theorem IsField.argOf?_eq_none {K : ℤ → Prop} {e : Expr} (h : e.IsField K) (f : Func) :
    e.argOf? f = none := by
  cases h <;> rfl

/-- Only field expressions have values. -/
theorem Defined.isField {e : Expr} (h : e.Defined ρ) : e.IsField fun _ => True := by
  induction h with
  | number h => exact .number h
  | var v => exact .var v
  | sum _ ih => exact .sum ih
  | product _ ih => exact .product ih
  | power _ _ ih => exact .power ih trivial
  | neg _ ih => exact .neg ih
  | div _ _ _ iha ihb => exact .div iha ihb

/-- The value in exact arithmetic, exponents included. -/
def exactValue? (ρ : Assignment) (e : Expr) : Option ℚ :=
  e.fold fun node below =>
    match node, below with
    | .number n, _ => n.toRat?
    | .var v, _ => some (ρ v)
    | .sum _, vs => vs.foldr (Option.map₂ (· + ·)) (some 0)
    | .product _, vs => vs.foldr (Option.map₂ (· * ·)) (some 1)
    | .power _ _, [b, x] => do exactPower? (← b) (← x)
    | .neg _, [a] => a.map (- ·)
    | .div _ _, [a, b] => do exactQuotient? (← a) (← b)
    | _, _ => none

/-! ## Values of the kinds of nodes -/

section ExactValue

variable {a b e x : Expr} {p q : ℚ} {k : ℤ} {es : List Expr} {v : Expr → ℚ}

/-- The exact value of a literal is that of the number. -/
@[simp]
theorem exactValue?_number (n : Number) : (Expr.number n).exactValue? ρ = n.toRat? := rfl

@[simp]
theorem exactValue?_int (k : ℤ) : (Expr.int k).exactValue? ρ = some (k : ℚ) := rfl

/-- The exact value of a variable is the assigned one. -/
@[simp]
theorem exactValue?_var (w : String) : (Expr.var w).exactValue? ρ = some (ρ w) := rfl

/-- Where all operands have values, these are combined as they are. -/
theorem foldr_exactValue? (f : ℚ → ℚ → ℚ) (u : ℚ) (h : ∀ e ∈ es, e.exactValue? ρ = some (v e)) :
    (es.map (exactValue? ρ)).foldr (Option.map₂ f) (some u) = some ((es.map v).foldr f u) := by
  induction es with
  | nil => rfl
  | cons e es ih =>
    obtain ⟨he, hes⟩ := List.forall_mem_cons.mp h
    rw [List.map_cons, List.foldr_cons, ih hes, he]
    rfl

/-- A sum has the sum of the exact values. -/
theorem exactValue?_sum (h : ∀ e ∈ es, e.exactValue? ρ = some (v e)) :
    (Expr.sum es).exactValue? ρ = some (es.map v).sum := by
  rw [exactValue?, fold, foldAll_eq_map]
  exact foldr_exactValue? (· + ·) 0 h

/-- A product has the product of the exact values. -/
theorem exactValue?_product (h : ∀ e ∈ es, e.exactValue? ρ = some (v e)) :
    (Expr.product es).exactValue? ρ = some (es.map v).prod := by
  rw [exactValue?, fold, foldAll_eq_map]
  exact foldr_exactValue? (· * ·) 1 h

/-- An expression with a sign has the negated exact value. -/
theorem exactValue?_neg (ha : a.exactValue? ρ = some p) :
    (Expr.neg a).exactValue? ρ = some (-p) := by
  change (a.exactValue? ρ).map (- ·) = _
  rw [ha, Option.map_some]

/-- A quotient has an exact value unless the denominator is zero. -/
theorem exactValue?_div (ha : a.exactValue? ρ = some p) (hb : b.exactValue? ρ = some q)
    (hq : q ≠ 0) : (Expr.div a b).exactValue? ρ = some (p / q) := by
  change ((a.exactValue? ρ).bind fun p => (b.exactValue? ρ).bind (exactQuotient? p)) = _
  rw [ha, hb, Option.bind_some, Option.bind_some, exactQuotient?, if_neg hq]

/-- A power with a whole exponent has an exact value, unless the exponent is negative and the base
zero. -/
theorem exactValue?_power (hb : b.exactValue? ρ = some p) (hx : x.exactValue? ρ = some (k : ℚ))
    (hk : p = 0 → 0 ≤ k) : (Expr.power b x).exactValue? ρ = some (p ^ k) := by
  change ((b.exactValue? ρ).bind fun p => (x.exactValue? ρ).bind (exactPower? p)) = _
  rw [hb, hx, Option.bind_some, Option.bind_some, exactPower?_intCast hk]

/-- Literal exponents are computed as they are. -/
theorem Defined.exactValue?_eq (h : e.Defined ρ) : e.exactValue? ρ = some (e.value ρ) := by
  induction h with
  | number h => rw [exactValue?_number, h, value_number h]
  | var v => rfl
  | sum _ ih => rw [value_sum, exactValue?_sum ih]
  | product _ ih => rw [value_product, exactValue?_product ih]
  | power _ hk ih => rw [value_power, exactValue?_power ih (exactValue?_int _) hk]
  | neg _ ih => rw [value_neg, exactValue?_neg ih]
  | div _ _ h iha ihb => rw [value_div, exactValue?_div iha ihb h]

/-! ## Sums and products as they are built -/

/-- A written sum has the sum of the exact values. -/
theorem exactValue?_sumOf (h : ∀ e ∈ es, e.exactValue? ρ = some (v e)) :
    (sumOf es).exactValue? ρ = some (es.map v).sum := by
  match es, h with
  | [], _ => rfl
  | [e], h => rw [sumOf, h e (by simp), List.map_singleton, List.sum_singleton]
  | _ :: _ :: _, h => exact exactValue?_sum h

/-- A written product has the product of the exact values. -/
theorem exactValue?_productOf (h : ∀ e ∈ es, e.exactValue? ρ = some (v e)) :
    (productOf es).exactValue? ρ = some (es.map v).prod := by
  match es, h with
  | [], _ => rfl
  | [e], h => rw [productOf, h e (by simp), List.map_singleton, List.prod_singleton]
  | _ :: _ :: _, h => exact exactValue?_product h

/-- What is known to be zero has the exact value zero. -/
theorem eq_zero_of_isZero (h : e.exactValue? ρ = some p) (hz : e.isZero = true) : p = 0 := by
  cases e with
  | number n => exact (Number.isZero_iff h).mp hz
  | _ => simp [isZero] at hz

/-- What is known to be one has the exact value one. -/
theorem eq_one_of_isOne (h : e.exactValue? ρ = some p) (hone : e.isOne = true) : p = 1 := by
  cases e with
  | number n => exact (Number.isOne_iff h).mp hone
  | _ => simp [isOne] at hone

/-- The exact value of the sum of two expressions. -/
theorem exactValue?_add (ha : a.exactValue? ρ = some p) (hb : b.exactValue? ρ = some q) :
    (a + b).exactValue? ρ = some (p + q) := by
  change Option.map₂ (· + ·) (a.exactValue? ρ) (Option.map₂ (· + ·) (b.exactValue? ρ) (some 0)) = _
  rw [ha, hb, Option.map₂_some_some, Option.map₂_some_some, add_zero]

/-- The exact value of the product of two expressions. -/
theorem exactValue?_mul (ha : a.exactValue? ρ = some p) (hb : b.exactValue? ρ = some q) :
    (a * b).exactValue? ρ = some (p * q) := by
  change Option.map₂ (· * ·) (a.exactValue? ρ) (Option.map₂ (· * ·) (b.exactValue? ρ) (some 1)) = _
  rw [ha, hb, Option.map₂_some_some, Option.map₂_some_some, mul_one]

/-- Leaving out a literal one does not change the exact value of a product. -/
theorem exactValue?_times (ha : a.exactValue? ρ = some p) (hb : b.exactValue? ρ = some q) :
    (a.times b).exactValue? ρ = some (p * q) := by
  rw [times]
  split_ifs with hone hone
  · rw [hb, eq_one_of_isOne ha hone, one_mul]
  · rw [ha, eq_one_of_isOne hb hone, mul_one]
  · exact exactValue?_mul ha hb

end ExactValue

end Expr

end SymbolicAlgebra
