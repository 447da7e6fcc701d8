import Mathlib.Algebra.Order.BigOperators.Group.List
import SymbolicAlgebra.Polynomial.Coefficients
import SymbolicAlgebra.Proofs.Expr.ExactValue

/-!
# Polynomial expressions

`Expr.IsPolynomial x e` says that `e` is built from the variable `x` and exact numbers by sums,
products, signs, quotients by numbers other than zero, and small powers. Two kinds of polynomial
expressions play a part in the proofs about normal forms:

* `Expr.IsSmall x e`: no part has a formal degree above `maxDegree`. Sizes of exponents stay below
  the bound up to which numeric powers are folded, so that arithmetic stays exact.
* `Expr.Settled x e`: each part is a number or has a positive formal degree. A settled expression
  without the variable is a number.
-/

namespace SymbolicAlgebra

namespace Expr

/-- Expressions built from `x` and exact numbers by sums, products, signs, quotients by numbers other
than zero, and powers with exponents up to `maxDegree`. -/
inductive IsPolynomial (x : String) : Expr → Prop
  | number {n : Number} {q : ℚ} (h : n.toRat? = some q) : IsPolynomial x (.number n)
  | var : IsPolynomial x (.var x)
  | sum {es : List Expr} (h : ∀ e ∈ es, IsPolynomial x e) : IsPolynomial x (.sum es)
  | product {es : List Expr} (h : ∀ e ∈ es, IsPolynomial x e) : IsPolynomial x (.product es)
  | neg {a : Expr} (ha : IsPolynomial x a) : IsPolynomial x (.neg a)
  | div {a : Expr} {n : Number} {q : ℚ} (ha : IsPolynomial x a) (hn : n.toRat? = some q)
      (hq : q ≠ 0) : IsPolynomial x (.div a (.number n))
  | power {b : Expr} {k : ℤ} (hb : IsPolynomial x b) (h0 : 0 ≤ k) (hk : k ≤ maxDegree) :
      IsPolynomial x (.power b (.int k))

/-! ## Formal degrees -/

/-- The degree in `x` that the shape of an expression shows; cancellation may lower it. -/
def degree (x : String) (e : Expr) : ℕ :=
  e.fold fun node below =>
    match node, below with
    | .var v, _ => if v = x then 1 else 0
    | .sum _, ds => ds.foldr max 0
    | .product _, ds => ds.sum
    | .power _ k, [d, _] => (k.toInt?.getD 0).toNat * d
    | .neg _, [d] => d
    | .div _ _, [d, _] => d
    | _, _ => 0

variable {x : String} {e : Expr}

@[simp]
theorem degree_number (n : Number) : (Expr.number n).degree x = 0 := rfl

@[simp]
theorem degree_var_self : (Expr.var x).degree x = 1 := if_pos rfl

/-- The degrees of factors add up. -/
@[simp]
theorem degree_product (es : List Expr) :
    (Expr.product es).degree x = (es.map (degree x)).sum := by
  rw [degree, fold, foldAll_eq_map]
  rfl

/-- A whole exponent multiplies the degree. -/
@[simp]
theorem degree_power (b : Expr) (k : ℤ) :
    (Expr.power b (.int k)).degree x = k.toNat * b.degree x := rfl

@[simp]
theorem degree_neg (a : Expr) : (Expr.neg a).degree x = a.degree x := rfl

@[simp]
theorem degree_div (a b : Expr) : (Expr.div a b).degree x = a.degree x := rfl

/-- The degree of a sum as a maximum. -/
theorem degree_sum (es : List Expr) :
    (Expr.sum es).degree x = (es.map (degree x)).foldr max 0 := by
  rw [degree, fold, foldAll_eq_map]
  rfl

/-- The degree of a sum is the greatest one of its terms. -/
theorem degree_sum_le_iff {es : List Expr} {d : ℕ} :
    (Expr.sum es).degree x ≤ d ↔ ∀ e ∈ es, e.degree x ≤ d := by
  rw [degree_sum]
  induction es with
  | nil => simp
  | cons e es ih =>
    simp only [List.map_cons, List.foldr_cons, max_le_iff, ih, List.mem_cons, forall_eq_or_imp]

/-- No term of a sum has a higher degree. -/
theorem degree_le_degree_sum {es : List Expr} (h : e ∈ es) :
    e.degree x ≤ (Expr.sum es).degree x :=
  degree_sum_le_iff.mp le_rfl e h

/-- No factor of a product has a higher degree. -/
theorem degree_le_degree_product {es : List Expr} (h : e ∈ es) :
    e.degree x ≤ (Expr.product es).degree x := by
  rw [degree_product]
  exact List.single_le_sum (fun _ _ => Nat.zero_le _) _ (List.mem_map_of_mem h)

/-! ## Small polynomials -/

/-- Polynomial expressions none of whose products and powers has a degree above `maxDegree`. A
denominator is any constant other than zero. -/
inductive IsSmall (x : String) : Expr → Prop
  | number {n : Number} {q : ℚ} (h : n.toRat? = some q) : IsSmall x (.number n)
  | var : IsSmall x (.var x)
  | sum {es : List Expr} (h : ∀ e ∈ es, IsSmall x e) : IsSmall x (.sum es)
  | product {es : List Expr} (h : ∀ e ∈ es, IsSmall x e)
      (hd : (Expr.product es).degree x ≤ maxDegree) : IsSmall x (.product es)
  | neg {a : Expr} (ha : IsSmall x a) : IsSmall x (.neg a)
  | div {a b : Expr} (ha : IsSmall x a) (hb : IsSmall x b) (hd : b.degree x = 0)
      (hne : ∀ ρ, b.value ρ ≠ 0) : IsSmall x (.div a b)
  | power {b : Expr} {k : ℤ} (hb : IsSmall x b) (h0 : 0 ≤ k) (hk : k ≤ maxDegree)
      (hd : (Expr.power b (.int k)).degree x ≤ maxDegree) : IsSmall x (.power b (.int k))

namespace IsSmall

/-- An integer is a small polynomial. -/
theorem int (k : ℤ) : IsSmall x (.int k) := .number rfl

/-- The degree of a small polynomial is within the bound. -/
theorem degree_le (h : IsSmall x e) : e.degree x ≤ maxDegree := by
  induction h with
  | number => exact Nat.zero_le _
  | var => rw [degree_var_self]; decide
  | sum _ ih => exact degree_sum_le_iff.mpr ih
  | product _ hd => exact hd
  | neg _ ih => exact ih
  | div _ _ _ _ ih => exact ih
  | power _ _ _ hd => exact hd

/-- A small polynomial has a value at every assignment. -/
theorem defined (h : IsSmall x e) (ρ : Assignment) : e.Defined ρ := by
  induction h with
  | number h => exact .number h
  | var => exact .var x
  | sum _ ih => exact .sum ih
  | product _ _ ih => exact .product ih
  | neg _ ih => exact .neg ih
  | div _ _ _ hne iha ihb => exact .div iha ihb (hne ρ)
  | power _ h0 _ _ ih => exact .power ih fun _ => h0

end IsSmall

/-! ## Settled polynomials -/

/-- Polynomial expressions without quotients in which every part but a number has a positive degree.
Numbers among the factors of a product are not zero. -/
inductive Settled (x : String) : Expr → Prop
  | number {n : Number} {q : ℚ} (h : n.toRat? = some q) : Settled x (.number n)
  | var : Settled x (.var x)
  | sum {es : List Expr} (h : ∀ e ∈ es, Settled x e) (hd : 1 ≤ (Expr.sum es).degree x) :
      Settled x (.sum es)
  | product {es : List Expr} (h : ∀ e ∈ es, Settled x e) (hz : ∀ e ∈ es, e.isZero = false)
      (hd : 1 ≤ (Expr.product es).degree x) : Settled x (.product es)
  | neg {a : Expr} (ha : Settled x a) (hd : 1 ≤ a.degree x) : Settled x (.neg a)
  | power {b : Expr} {k : ℤ} (hb : Settled x b) (hd : 1 ≤ b.degree x) (hk : 1 ≤ k) :
      Settled x (.power b (.int k))

namespace Settled

/-- An integer is settled. -/
theorem int (k : ℤ) : Settled x (.int k) := .number rfl

/-- A settled polynomial has a value at every assignment. -/
theorem defined (h : Settled x e) (ρ : Assignment) : e.Defined ρ := by
  induction h with
  | number h => exact .number h
  | var => exact .var x
  | sum _ _ ih => exact .sum ih
  | product _ _ _ ih => exact .product ih
  | neg _ _ ih => exact .neg ih
  | power _ _ hk ih => exact .power ih fun _ => by omega

/-- A settled polynomial has no sets. -/
theorem setFree (h : Settled x e) : e.SetFree := (h.defined fun _ => 0).setFree

/-- A settled expression is a number or has a positive degree. -/
theorem eq_number_or_degree_pos (h : Settled x e) :
    (∃ n q, e = .number n ∧ n.toRat? = some q) ∨ 1 ≤ e.degree x := by
  cases h with
  | number h => exact .inl ⟨_, _, rfl, h⟩
  | var => exact .inr (by rw [degree_var_self])
  | sum _ hd => exact .inr hd
  | product _ _ hd => exact .inr hd
  | neg _ hd => exact .inr hd
  | power _ hd hk =>
    refine .inr ?_
    rw [degree_power]
    exact Nat.mul_pos (by omega) hd

/-- A settled expression of degree zero is a number. -/
theorem eq_number (h : Settled x e) (hd : e.degree x = 0) : ∃ n q, e = .number n ∧ n.toRat? = some q :=
  h.eq_number_or_degree_pos.resolve_right (by omega)

/-- A settled polynomial of small degree is small in all parts. -/
theorem isSmall (h : Settled x e) (hd : e.degree x ≤ maxDegree) : e.IsSmall x := by
  induction h with
  | number h => exact .number h
  | var => exact .var
  | sum _ _ ih => exact .sum fun e he => ih e he ((degree_le_degree_sum he).trans hd)
  | product _ _ _ ih =>
    exact .product (fun e he => ih e he ((degree_le_degree_product he).trans hd)) hd
  | neg _ _ ih => exact .neg (ih hd)
  | @power b k _ hdb hk ih =>
    rw [degree_power] at hd
    have hb : b.degree x ≤ k.toNat * b.degree x := Nat.le_mul_of_pos_left _ (by omega)
    have hk' : k.toNat ≤ k.toNat * b.degree x := Nat.le_mul_of_pos_right _ hdb
    exact .power (ih (hb.trans hd)) (by omega) (by omega) hd

end Settled

end Expr

end SymbolicAlgebra
