import Mathlib.Algebra.Polynomial.Coeff
import Mathlib.Algebra.Polynomial.Eval.Defs
import Mathlib.Algebra.Polynomial.Roots
import SymbolicAlgebra.Polynomial.Coefficients
import SymbolicAlgebra.Proofs.Expr.ExactValue

/-!
# Coefficients are faithful

A list of coefficients stands for a polynomial over the rationals, once the variables in the
coefficients have values. Adding and multiplying lists of coefficients adds and multiplies these
polynomials, and the coefficients that are collected from an expression stand for a polynomial that
has the value of the expression at the value of the variable: `Coefficients.value_eq_eval`.

What the coefficients are made of is a matter of its own: `Coefficients.Closed` lists what a property of
expressions needs in order to pass on to sums and products of coefficients.
-/

namespace SymbolicAlgebra

open Polynomial

variable {ρ : Assignment} {x : String} {P : Expr → Prop}

namespace Coefficients

/-! ## Properties of all coefficients -/

/-- A property of zero, one, and the sum and the product of any two expressions that have it. -/
structure Closed (P : Expr → Prop) : Prop where
  zero : P 0
  one : P 1
  add : ∀ {a b : Expr}, P a → P b → P (a + b)
  mul : ∀ {a b : Expr}, P a → P b → P (a * b)

/-- All coefficients have a property, and there is a constant one. -/
structure All (P : Expr → Prop) (cs : Coefficients) : Prop where
  length_pos : 0 < cs.length
  forall_mem : ∀ c ∈ cs, P c

/-- One coefficient has the property of all. -/
theorem All.singleton {c : Expr} (hc : P c) : All P [c] := ⟨one_pos, List.forall_mem_singleton.mpr hc⟩

/-- The coefficients may be changed one by one. -/
theorem All.map {Q : Expr → Prop} {f : Expr → Expr} {cs : Coefficients} (h : cs.All P)
    (hf : ∀ {c : Expr}, P c → Q (f c)) : All Q (cs.map f) :=
  ⟨by simpa using h.length_pos, List.forall_mem_map.mpr fun c hc => hf (h.forall_mem c hc)⟩

/-- The sum that leaves out literal zeros has the property too. -/
theorem Closed.plus (hP : Closed P) {a b : Expr} (ha : P a) (hb : P b) : P (a.plus b) := by
  rw [Expr.plus]
  split_ifs
  · exact hb
  · exact ha
  · exact hP.add ha hb

/-- The product that leaves out literal ones has the property too. -/
theorem Closed.times (hP : Closed P) {a b : Expr} (ha : P a) (hb : P b) : P (a.times b) := by
  rw [Expr.times]
  split_ifs
  · exact hb
  · exact ha
  · exact hP.mul ha hb

/-- Adding coefficients of equal degree keeps the property. -/
theorem Closed.forall_mem_add (hP : Closed P) {p q : Coefficients} (hp : ∀ c ∈ p, P c)
    (hq : ∀ c ∈ q, P c) : ∀ c ∈ Coefficients.add p q, P c := by
  induction p generalizing q with
  | nil => exact hq
  | cons a p ih =>
    cases q with
    | nil => exact hp
    | cons b q =>
      obtain ⟨ha, hp⟩ := List.forall_mem_cons.mp hp
      obtain ⟨hb, hq⟩ := List.forall_mem_cons.mp hq
      exact List.forall_mem_cons.mpr ⟨hP.plus ha hb, ih hp hq⟩

/-- The longer of two polynomials decides how many coefficients the sum has. -/
theorem length_add (p q : Coefficients) : (add p q).length = max p.length q.length := by
  induction p generalizing q with
  | nil => simp [add]
  | cons a p ih =>
    cases q with
    | nil => simp [add]
    | cons b q => simp [add, ih]

/-- The coefficients of a sum of two polynomials have the property. -/
theorem Closed.all_add (hP : Closed P) {p q : Coefficients} (hp : p.All P) (hq : q.All P) :
    (Coefficients.add p q).All P := by
  have hpos := hp.length_pos
  exact ⟨by rw [length_add]; omega, hP.forall_mem_add hp.forall_mem hq.forall_mem⟩

/-- The coefficients of a sum of polynomials have the property. -/
theorem Closed.all_foldl_add (hP : Closed P) {p : Coefficients} {ps : List Coefficients}
    (hp : p.All P) (hps : ∀ q ∈ ps, All P q) : (ps.foldl Coefficients.add p).All P := by
  induction ps generalizing p with
  | nil => exact hp
  | cons q ps ih =>
    obtain ⟨hq, hps⟩ := List.forall_mem_cons.mp hps
    exact ih (hP.all_add hp hq) hps

/-- A sum over expressions with the property has it. -/
theorem Closed.foldl_plus (hP : Closed P) {a : Expr} {es : List Expr} (ha : P a)
    (hes : ∀ e ∈ es, P e) : P (es.foldl Expr.plus a) := by
  induction es generalizing a with
  | nil => exact ha
  | cons e es ih =>
    obtain ⟨he, hes⟩ := List.forall_mem_cons.mp hes
    exact ih (hP.plus ha he) hes

/-- The products of two coefficients have the property. -/
theorem Closed.forall_mem_productsAt (hP : Closed P) {p q : Coefficients} (hp : ∀ c ∈ p, P c)
    (hq : ∀ c ∈ q, P c) (k : ℕ) : ∀ e ∈ productsAt p q k, P e := by
  intro e he
  obtain ⟨i, -, h⟩ := List.mem_filterMap.mp he
  obtain ⟨a, ha, h⟩ := Option.bind_eq_some_iff.mp h
  obtain ⟨b, hb, h⟩ := Option.bind_eq_some_iff.mp h
  split_ifs at h
  obtain rfl := Option.some.inj h
  exact hP.times (hp a (List.mem_of_getElem? ha)) (hq b (List.mem_of_getElem? hb))

/-- The degrees of two factors add up, within the bound. -/
theorem length_mul? {p q r : Coefficients} (hp : 0 < p.length) (hq : 0 < q.length)
    (h : mul? p q = some r) :
    r.length + 1 = p.length + q.length ∧ r.length ≤ maxDegree + 1 := by
  rw [mul?] at h
  split_ifs at h with hdeg
  rw [← Option.some.inj h, List.length_map, List.length_range]
  omega

/-- The coefficients of a product of two polynomials have the property. -/
theorem Closed.all_mul? (hP : Closed P) {p q r : Coefficients} (hp : p.All P) (hq : q.All P)
    (h : mul? p q = some r) : r.All P := by
  have hpos := hp.length_pos
  have hpos' := hq.length_pos
  have hlen := length_mul? hpos hpos' h
  refine ⟨by omega, ?_⟩
  rw [mul?] at h
  split_ifs at h
  obtain rfl := Option.some.inj h
  refine List.forall_mem_map.mpr fun k _ => ?_
  exact hP.foldl_plus hP.zero (hP.forall_mem_productsAt hp.forall_mem hq.forall_mem k)

/-- The coefficients of further products have the property. -/
theorem Closed.all_foldlM_mul? (hP : Closed P) {p r : Coefficients} {ps : List Coefficients}
    (hp : p.All P) (hps : ∀ q ∈ ps, All P q) (h : ps.foldlM mul? p = some r) : r.All P := by
  induction ps generalizing p with
  | nil =>
    obtain rfl := Option.some.inj h
    exact hp
  | cons q ps ih =>
    obtain ⟨hq, hps⟩ := List.forall_mem_cons.mp hps
    rw [List.foldlM_cons] at h
    obtain ⟨pq, hpq, h⟩ := Option.bind_eq_some_iff.mp h
    exact ih (hP.all_mul? hp hq hpq) hps h

/-- The coefficients of a product of polynomials have the property. -/
theorem Closed.all_product? (hP : Closed P) {r : Coefficients} {ps : List Coefficients}
    (hps : ∀ q ∈ ps, All P q) (h : product? ps = some r) : r.All P :=
  hP.all_foldlM_mul? (.singleton hP.one) hps h

/-! ## The polynomial -/

/-- The polynomial whose coefficients are the values of the list. -/
noncomputable def toPolynomial (ρ : Assignment) : Coefficients → ℚ[X]
  | [] => 0
  | c :: cs => C (c.value ρ) + X * toPolynomial ρ cs

/-- One coefficient is a constant polynomial. -/
theorem toPolynomial_singleton (c : Expr) : toPolynomial ρ [c] = C (c.value ρ) := by
  rw [toPolynomial, toPolynomial, mul_zero, add_zero]

/-- The values of the coefficients are the coefficients of the polynomial. -/
theorem coeff_toPolynomial (cs : Coefficients) (k : ℕ) :
    (toPolynomial ρ cs).coeff k = (cs[k]?.map (Expr.value ρ)).getD 0 := by
  induction cs generalizing k with
  | nil => simp [toPolynomial]
  | cons c cs ih =>
    cases k with
    | zero => simp [toPolynomial]
    | succ k => simp [toPolynomial, coeff_C_succ, coeff_X_mul, ih]

/-- There are no coefficients behind the last one. -/
theorem coeff_toPolynomial_of_length_le {cs : Coefficients} {k : ℕ} (h : cs.length ≤ k) :
    (toPolynomial ρ cs).coeff k = 0 := by
  rw [coeff_toPolynomial, List.getElem?_eq_none h]
  rfl

/-- Zero and one are defined, and so are sums and products of what is. -/
theorem closed_defined : Closed (Expr.Defined ρ) where
  zero := .ofNat 0
  one := .ofNat 1
  add ha hb := .sum (by simpa using ⟨ha, hb⟩)
  mul ha hb := .product (by simpa using ⟨ha, hb⟩)

/-! ### Sums -/

/-- Leaving out a literal zero does not change the value of a sum. -/
theorem value_plus {a b : Expr} (ha : a.Defined ρ) (hb : b.Defined ρ) :
    (a.plus b).value ρ = a.value ρ + b.value ρ := by
  rw [Expr.plus]
  split_ifs with hza hzb
  · rw [ha.isZero_iff hza, zero_add]
  · rw [hb.isZero_iff hzb, add_zero]
  · exact (Expr.value_sum [a, b]).trans (by simp)

/-- Adding coefficients of equal degree adds the polynomials. -/
theorem toPolynomial_add {p q : Coefficients} (hp : ∀ c ∈ p, c.Defined ρ)
    (hq : ∀ c ∈ q, c.Defined ρ) :
    toPolynomial ρ (add p q) = toPolynomial ρ p + toPolynomial ρ q := by
  induction p generalizing q with
  | nil => rw [add, toPolynomial, zero_add]
  | cons a p ih =>
    cases q with
    | nil => rw [add, toPolynomial, add_zero]; simp
    | cons b q =>
      obtain ⟨ha, hp⟩ := List.forall_mem_cons.mp hp
      obtain ⟨hb, hq⟩ := List.forall_mem_cons.mp hq
      rw [add, toPolynomial, value_plus ha hb, ih hp hq, toPolynomial, toPolynomial, C_add]
      ring

/-- Adding polynomials one after the other adds them all. -/
theorem toPolynomial_foldl_add {p : Coefficients} {ps : List Coefficients}
    (hp : p.All (Expr.Defined ρ)) (hps : ∀ q ∈ ps, All (Expr.Defined ρ) q) :
    toPolynomial ρ (ps.foldl add p) = toPolynomial ρ p + (ps.map (toPolynomial ρ)).sum := by
  induction ps generalizing p with
  | nil => simp
  | cons q ps ih =>
    obtain ⟨hq, hps⟩ := List.forall_mem_cons.mp hps
    rw [List.foldl_cons, ih (closed_defined.all_add hp hq) hps,
      toPolynomial_add hp.forall_mem hq.forall_mem, List.map_cons, List.sum_cons, add_assoc]

/-! ### Products -/

/-- Leaving out a literal one does not change the value of a product. -/
theorem value_times {a b : Expr} (ha : a.Defined ρ) (hb : b.Defined ρ) :
    (a.times b).value ρ = a.value ρ * b.value ρ := by
  rw [Expr.times]
  split_ifs with h1a h1b
  · rw [ha.isOne_iff h1a, one_mul]
  · rw [hb.isOne_iff h1b, mul_one]
  · exact (Expr.value_product [a, b]).trans (by simp)

/-- A sum that is added up one after the other has the sum of the values. -/
theorem value_foldl_plus {a : Expr} {es : List Expr} (ha : a.Defined ρ)
    (hes : ∀ e ∈ es, e.Defined ρ) :
    (es.foldl Expr.plus a).value ρ = a.value ρ + (es.map (Expr.value ρ)).sum := by
  induction es generalizing a with
  | nil => simp
  | cons e es ih =>
    obtain ⟨he, hes⟩ := List.forall_mem_cons.mp hes
    rw [List.foldl_cons, ih (closed_defined.plus ha he) hes, value_plus ha he, List.map_cons,
      List.sum_cons, add_assoc]

/-- The product of two coefficients has no entry where a factor is missing or known to be zero. -/
theorem value_product_at {p q : Coefficients} (hp : ∀ c ∈ p, c.Defined ρ)
    (hq : ∀ c ∈ q, c.Defined ρ) (i j : ℕ) :
    ((do
      let a ← p[i]?
      let b ← q[j]?
      if a.isZero || b.isZero then none else some (a.times b) : Option Expr).map
        (Expr.value ρ)).getD 0
      = (toPolynomial ρ p).coeff i * (toPolynomial ρ q).coeff j := by
  rw [coeff_toPolynomial, coeff_toPolynomial]
  cases ha : p[i]? with
  | none => simp
  | some a =>
    cases hb : q[j]? with
    | none => simp
    | some b =>
      have hda : a.Defined ρ := hp a (List.mem_of_getElem? ha)
      have hdb : b.Defined ρ := hq b (List.mem_of_getElem? hb)
      simp only [Option.bind_eq_bind, Option.bind_some, Option.map_some, Option.getD_some]
      split_ifs with hz
      · rcases (Bool.or_eq_true _ _).mp hz with hz | hz
        · simp [hda.isZero_iff hz]
        · simp [hdb.isZero_iff hz]
      · rw [Option.map_some, Option.getD_some, value_times hda hdb]

/-- The products for one degree add up to the coefficient of the product. -/
theorem sum_value_productsAt {p q : Coefficients} (hp : ∀ c ∈ p, c.Defined ρ)
    (hq : ∀ c ∈ q, c.Defined ρ) (k : ℕ) :
    ((productsAt p q k).map (Expr.value ρ)).sum
      = (toPolynomial ρ p * toPolynomial ρ q).coeff k := by
  have hsum : ∀ {f : ℕ → Option Expr} (is : List ℕ),
      ((is.filterMap f).map (Expr.value ρ)).sum
        = (is.map fun i => ((f i).map (Expr.value ρ)).getD 0).sum := by
    intro f is
    induction is with
    | nil => rfl
    | cons i is ih =>
      rw [List.map_cons, List.sum_cons, ← ih]
      cases hi : f i with
      | none => rw [List.filterMap_cons_none hi, Option.map_none, Option.getD_none, zero_add]
      | some e =>
        rw [List.filterMap_cons_some hi, List.map_cons, List.sum_cons, Option.map_some,
          Option.getD_some]
  rw [productsAt, hsum, coeff_mul, Finset.Nat.sum_antidiagonal_eq_sum_range_succ_mk,
    List.map_congr_left fun i _ => value_product_at hp hq i (k - i)]
  rfl

/-- The product of lists of coefficients stands for the product of their polynomials. -/
theorem toPolynomial_mul? {p q r : Coefficients} (hp : p.All (Expr.Defined ρ))
    (hq : q.All (Expr.Defined ρ)) (h : mul? p q = some r) :
    toPolynomial ρ r = toPolynomial ρ p * toPolynomial ρ q := by
  have hpos := hp.length_pos
  have hpos' := hq.length_pos
  have hcoeff : ∀ k, ((productsAt p q k).foldl Expr.plus 0).value ρ
      = (toPolynomial ρ p * toPolynomial ρ q).coeff k := by
    intro k
    rw [value_foldl_plus (.ofNat 0) (closed_defined.forall_mem_productsAt hp.forall_mem hq.forall_mem k),
      sum_value_productsAt hp.forall_mem hq.forall_mem, Expr.value_ofNat, Nat.cast_zero, zero_add]
  rw [mul?] at h
  split_ifs at h
  have hr := Option.some.inj h
  ext k
  rw [coeff_toPolynomial, ← hr, List.getElem?_map]
  by_cases hk : k < p.length + q.length - 2 + 1
  · rw [List.getElem?_range hk, Option.map_some, Option.map_some, Option.getD_some, hcoeff k]
  · -- Above the degree, one of the factors of each product is beyond the end of its list.
    rw [List.getElem?_eq_none (by rw [List.length_range]; omega), coeff_mul]
    refine (Finset.sum_eq_zero fun ij hij => ?_).symm
    have hadd : ij.1 + ij.2 = k := Finset.HasAntidiagonal.mem_antidiagonal.mp hij
    by_cases hi : p.length ≤ ij.1
    · rw [coeff_toPolynomial_of_length_le hi, zero_mul]
    · have hj : q.length ≤ ij.2 := by omega
      rw [coeff_toPolynomial_of_length_le hj, mul_zero]

/-- Multiplying by polynomials one after the other multiplies by them all. -/
theorem toPolynomial_foldlM_mul? {p r : Coefficients} {ps : List Coefficients}
    (hp : p.All (Expr.Defined ρ)) (hps : ∀ q ∈ ps, All (Expr.Defined ρ) q)
    (h : ps.foldlM mul? p = some r) :
    toPolynomial ρ r = toPolynomial ρ p * (ps.map (toPolynomial ρ)).prod := by
  induction ps generalizing p with
  | nil =>
    obtain rfl : p = r := Option.some.inj h
    simp
  | cons q ps ih =>
    obtain ⟨hq, hps⟩ := List.forall_mem_cons.mp hps
    rw [List.foldlM_cons] at h
    obtain ⟨pq, hpq, h⟩ := Option.bind_eq_some_iff.mp h
    rw [ih (closed_defined.all_mul? hp hq hpq) hps h, toPolynomial_mul? hp hq hpq, List.map_cons,
      List.prod_cons, mul_assoc]

/-- The coefficients of a product make up the product of the polynomials. -/
theorem toPolynomial_product? {r : Coefficients} {ps : List Coefficients}
    (hps : ∀ q ∈ ps, All (Expr.Defined ρ) q) (h : product? ps = some r) :
    toPolynomial ρ r = (ps.map (toPolynomial ρ)).prod := by
  rw [toPolynomial_foldlM_mul? (.singleton (.ofNat 1)) hps h, toPolynomial_singleton,
    Expr.value_ofNat, Nat.cast_one, C_1, one_mul]

/-! ## Collecting -/

/-- An expression without the variable is its only coefficient. -/
theorem collect?_of_not_containsVar {e : Expr} (h : e.containsVar x = false) :
    collect? x e = some [e] := by
  rw [collect?.eq_def, h, Bool.not_false, if_pos rfl]

/-- How the coefficients of an expression come from the ones of its operands. -/
inductive Collected (x : String) : Expr → Coefficients → Prop
  | constant {e : Expr} (hx : e.containsVar x = false) : Collected x e [e]
  | var : Collected x (.var x) [0, 1]
  | sum {es : List Expr} {ps : List Coefficients} (hlen : es.length = ps.length)
      (h : ∀ {e p}, (e, p) ∈ es.zip ps → Collected x e p) :
      Collected x (.sum es) (ps.foldl add [0])
  | product {es : List Expr} {ps : List Coefficients} {r : Coefficients}
      (hlen : es.length = ps.length) (h : ∀ {e p}, (e, p) ∈ es.zip ps → Collected x e p)
      (hr : product? ps = some r) : Collected x (.product es) r
  | power {b k : Expr} {n : ℕ} {p r : Coefficients} (hn : degree? k = some n)
      (hb : Collected x b p) (hr : product? (.replicate n p) = some r) : Collected x (.power b k) r
  | neg {a : Expr} {p : Coefficients} (ha : Collected x a p) : Collected x (.neg a) (p.map .neg)
  | div {a b : Expr} {p : Coefficients} (ha : Collected x a p) (hb : b.containsVar x = false) :
      Collected x (.div a b) (p.map fun c => c / b)

mutual

/-- Coefficients are collected along the shape of an expression. -/
theorem collected_of_collect? :
    ∀ {e : Expr} {cs : Coefficients}, collect? x e = some cs → Collected x e cs := by
  intro e cs h
  cases hx : e.containsVar x with
  | false =>
    rw [collect?_of_not_containsVar hx] at h
    obtain rfl := Option.some.inj h
    exact .constant hx
  | true =>
    rw [collect?.eq_def, hx, Bool.not_true, if_neg Bool.false_ne_true] at h
    cases e with
    | var v =>
      obtain rfl : v = x := by simpa using hx
      obtain rfl := Option.some.inj h
      exact .var
    | sum es =>
      obtain ⟨ps, hps, rfl⟩ := Option.map_eq_some_iff.mp h
      obtain ⟨hlen, hmem⟩ := List.forall₂_iff_zip.mp (forall₂_collected hps)
      exact .sum hlen hmem
    | product es =>
      obtain ⟨ps, hps, hr⟩ := Option.bind_eq_some_iff.mp h
      obtain ⟨hlen, hmem⟩ := List.forall₂_iff_zip.mp (forall₂_collected hps)
      exact .product hlen hmem hr
    | power b k =>
      dsimp only at h
      split_ifs at h
      obtain ⟨n, hn, hbind⟩ := Option.bind_eq_some_iff.mp h
      obtain ⟨p, hp, hr⟩ := Option.bind_eq_some_iff.mp hbind
      exact .power hn (collected_of_collect? hp) hr
    | neg a =>
      obtain ⟨p, hp, rfl⟩ := Option.map_eq_some_iff.mp h
      exact .neg (collected_of_collect? hp)
    | div a b =>
      dsimp only at h
      split_ifs at h with hb
      obtain ⟨p, hp, rfl⟩ := Option.map_eq_some_iff.mp h
      exact .div (collected_of_collect? hp) ((Bool.not_eq_true _).mp hb)
    -- No other operation on the variable has coefficients.
    | _ => cases h

/-- The coefficients of each operand are collected along its shape. -/
theorem forall₂_collected :
    ∀ {es : List Expr} {ps : List Coefficients}, collectAll? x es = some ps →
      List.Forall₂ (Collected x) es ps := by
  intro es ps h
  cases es with
  | nil =>
    obtain rfl := Option.some.inj h
    exact .nil
  | cons e es =>
    obtain ⟨p, hp, h⟩ := Option.bind_eq_some_iff.mp h
    obtain ⟨qs, hqs, h⟩ := Option.bind_eq_some_iff.mp h
    obtain rfl := Option.some.inj h
    exact .cons (collected_of_collect? hp) (forall₂_collected hqs)

end

/-- What holds for the coefficients of each operand, in the shape that an induction over
`Collected` provides. -/
theorem forall₂_of_zip {es : List Expr} {ps : List Coefficients} {Q : Expr → Coefficients → Prop}
    (hlen : es.length = ps.length) (hes : ∀ e ∈ es, P e)
    (h : ∀ {e p}, (e, p) ∈ es.zip ps → P e → Q e p) : List.Forall₂ Q es ps :=
  List.forall₂_iff_zip.mpr ⟨hlen, fun hep => h hep (hes _ (List.of_mem_zip hep).1)⟩

/-- What is said of the second members of all pairs holds of the second list. -/
theorem forall_mem_of_forall₂ {es : List Expr} {ps : List Coefficients} {Q : Coefficients → Prop}
    (h : List.Forall₂ (fun _ p => Q p) es ps) : ∀ p ∈ ps, Q p := by
  induction h with
  | nil => exact fun _ hp => absurd hp List.not_mem_nil
  | cons hp _ ih => exact List.forall_mem_cons.mpr ⟨hp, ih⟩

/-! ## Values -/

/-- An exponent is a degree if it is a whole number within the bound. -/
theorem degree?_eq_some_iff {k : ℤ} {n : ℕ} :
    degree? (.int k) = some n ↔ k = n ∧ n ≤ maxDegree := by
  cases k with
  | ofNat m =>
    have hm : degree? (.int (.ofNat m)) = if m ≤ maxDegree then some m else none := rfl
    rw [hm]
    split_ifs with hle
    · simp only [Option.some.injEq, Int.ofNat_eq_natCast, Nat.cast_inj]
      exact ⟨fun h => ⟨h, h ▸ hle⟩, fun h => h.1⟩
    · simp only [Int.ofNat_eq_natCast, Nat.cast_inj, false_iff]
      exact fun h => hle (h.1 ▸ h.2)
  | negSucc m =>
    have hm : degree? (.int (.negSucc m)) = none := rfl
    rw [hm]
    simp

/-- Values that are read off polynomials one by one, as lists. -/
theorem values_of_forall₂ {es : List Expr} {ps : List Coefficients} {q : ℚ}
    (h : List.Forall₂ (fun e p => All (Expr.Defined ρ) p ∧
      e.value ρ = (toPolynomial ρ p).eval q) es ps) :
    (∀ p ∈ ps, All (Expr.Defined ρ) p) ∧
      es.map (Expr.value ρ) = (ps.map (toPolynomial ρ)).map (eval q) := by
  induction h with
  | nil => simp
  | cons h _ ih => exact ⟨List.forall_mem_cons.mpr ⟨h.1, ih.1⟩, by simp [h.2, ih.2]⟩

/-- Changing all signs negates the polynomial. -/
theorem toPolynomial_map_neg (p : Coefficients) :
    toPolynomial ρ (p.map .neg) = -toPolynomial ρ p := by
  induction p with
  | nil => simp [toPolynomial]
  | cons c p ih =>
    rw [List.map_cons, toPolynomial, ih, Expr.value_neg, toPolynomial, C_neg]
    ring

/-- Dividing all coefficients by a value scales the polynomial by its inverse. -/
theorem toPolynomial_map_div (p : Coefficients) (b : Expr) :
    toPolynomial ρ (p.map fun c => c / b) = C (b.value ρ)⁻¹ * toPolynomial ρ p := by
  induction p with
  | nil => simp [toPolynomial]
  | cons c p ih =>
    have hdiv : (c / b : Expr).value ρ = (b.value ρ)⁻¹ * c.value ρ :=
      (Expr.value_div c b).trans (by rw [div_eq_inv_mul])
    rw [List.map_cons, toPolynomial, ih, hdiv, toPolynomial, C_mul]
    ring

/-- The coefficients that are collected stand for a polynomial with the values of the expression. -/
theorem value_eq_eval {e : Expr} {cs : Coefficients} (he : e.Defined ρ)
    (h : collect? x e = some cs) :
    cs.All (Expr.Defined ρ) ∧ e.value ρ = (toPolynomial ρ cs).eval (ρ x) := by
  -- The induction is on how the coefficients were collected.
  have hc := collected_of_collect? h
  clear h
  induction hc with
  | constant => exact ⟨.singleton he, by rw [toPolynomial_singleton, eval_C]⟩
  | var =>
    refine ⟨⟨by simp, by simpa using ⟨.ofNat 0, .ofNat 1⟩⟩, ?_⟩
    rw [toPolynomial, toPolynomial_singleton, Expr.value_ofNat, Expr.value_ofNat, Expr.value_var]
    simp
  | sum hlen _ ih =>
    cases he with
    | sum hes =>
      obtain ⟨hd, hv⟩ := values_of_forall₂ (forall₂_of_zip hlen hes ih)
      have hzero : All (Expr.Defined ρ) [0] := .singleton (.ofNat 0)
      refine ⟨closed_defined.all_foldl_add hzero hd, ?_⟩
      rw [toPolynomial_foldl_add hzero hd, toPolynomial_singleton, Expr.value_ofNat, Nat.cast_zero,
        C_0, zero_add, eval_listSum, Expr.value_sum, hv]
  | product hlen _ hr ih =>
    cases he with
    | product hes =>
      obtain ⟨hd, hv⟩ := values_of_forall₂ (forall₂_of_zip hlen hes ih)
      refine ⟨closed_defined.all_product? hd hr, ?_⟩
      rw [toPolynomial_product? hd hr, eval_list_prod, Expr.value_product, hv]
  | @power _ _ n p _ hn _ hr ih =>
    cases he with
    | power hb hk =>
      obtain ⟨rfl, -⟩ := degree?_eq_some_iff.mp hn
      obtain ⟨hd, hv⟩ := ih hb
      have hall : ∀ q ∈ List.replicate n p, All (Expr.Defined ρ) q :=
        List.forall_mem_replicate.mpr (.inr hd)
      refine ⟨closed_defined.all_product? hall hr, ?_⟩
      rw [toPolynomial_product? hall hr, List.map_replicate, List.prod_replicate, eval_pow,
        Expr.value_power, hv, zpow_natCast]
  | neg _ ih =>
    cases he with
    | neg ha =>
      obtain ⟨hd, hv⟩ := ih ha
      refine ⟨hd.map .neg, ?_⟩
      rw [toPolynomial_map_neg, eval_neg, Expr.value_neg, hv]
  | div _ _ ih =>
    cases he with
    | div ha hb hne =>
      obtain ⟨hd, hv⟩ := ih ha
      refine ⟨hd.map fun hc => .div hc hb hne, ?_⟩
      rw [toPolynomial_map_div, eval_mul, eval_C, Expr.value_div, hv, div_eq_inv_mul]

end Coefficients

end SymbolicAlgebra
