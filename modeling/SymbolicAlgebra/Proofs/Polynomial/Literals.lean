import Mathlib.Algebra.CharZero.Infinite
import SymbolicAlgebra.Proofs.Polynomial.Coefficients
import SymbolicAlgebra.Proofs.Polynomial.NormalForm

/-!
# Coefficients of polynomials are numbers

The coefficients of a polynomial expression in its only variable are constant, so that their normal
forms are numbers. `Expr.Represents x e p` says that the polynomial `p` has the values of `e`; a
polynomial expression whose coefficients are read as `[c, b, a]` represents `a x ^ 2 + b x + c`.
-/

namespace SymbolicAlgebra

open Polynomial

variable {x : String} {ρ : Assignment}

namespace Expr

/-- The expression is a number with an exact value. -/
def IsNumber (e : Expr) (q : ℚ) : Prop := ∃ n, e = .number n ∧ n.toRat? = some q

/-- The value of a literal does not depend on the assignment. -/
theorem IsNumber.value_eq {e : Expr} {q : ℚ} (h : e.IsNumber q) : e.value ρ = q := by
  obtain ⟨n, rfl, hn⟩ := h
  exact value_number hn

/-- Literals are small, and have degree zero. -/
theorem IsNumber.isSmall {e : Expr} {q : ℚ} (h : e.IsNumber q) : e.IsSmall x ∧ e.degree x = 0 := by
  obtain ⟨n, rfl, hn⟩ := h
  exact ⟨.number hn, rfl⟩

/-- A literal that does not test as zero is not zero. -/
theorem IsNumber.ne_zero {e : Expr} {q : ℚ} (h : e.IsNumber q) (hz : e.isZero = false) : q ≠ 0 := by
  obtain ⟨n, rfl, hn⟩ := h
  intro hq
  rw [isZero, (Number.isZero_iff hn).mpr hq] at hz
  exact absurd hz (by simp)

/-! ## Constants -/

/-- A small polynomial of degree zero. -/
def IsConstant (x : String) (e : Expr) : Prop := e.IsSmall x ∧ e.degree x = 0

/-- Constants are closed under the arithmetic of coefficient lists. -/
theorem closed_isConstant : Coefficients.Closed (IsConstant x) where
  zero := ⟨.int 0, rfl⟩
  one := ⟨.int 1, rfl⟩
  add ha hb := ⟨.sum (by simpa using ⟨ha.1, hb.1⟩),
    Nat.le_zero.mp (degree_sum_le_iff.mpr (by simpa using ⟨ha.2, hb.2⟩))⟩
  mul := @fun a b ha hb => by
    have hd : (Expr.product [a, b]).degree x = 0 := by simp [ha.2, hb.2]
    exact ⟨.product (by simpa using ⟨ha.1, hb.1⟩) (by rw [hd]; exact Nat.zero_le _), hd⟩

/-- A small expression without the variable is a constant. -/
theorem IsSmall.degree_eq_zero {e : Expr} (h : e.IsSmall x) (hx : e.containsVar x = false) :
    e.degree x = 0 := by
  induction h with
  | number h => rfl
  | var => simp at hx
  | sum h ih =>
    rw [containsVar_sum, List.any_eq_false] at hx
    exact Nat.le_zero.mp (degree_sum_le_iff.mpr fun e he => (ih e he (by simpa using hx e he)).le)
  | product h hd ih =>
    rw [containsVar_product, List.any_eq_false] at hx
    rw [degree_product]
    refine List.sum_eq_zero fun d hd => ?_
    obtain ⟨e, he, rfl⟩ := List.mem_map.mp hd
    exact ih e he (by simpa using hx e he)
  | neg _ ih => exact ih (by rwa [containsVar_neg] at hx)
  | div _ _ _ _ iha =>
    rw [containsVar_div, Bool.or_eq_false_iff] at hx
    exact iha hx.1
  | power _ _ _ _ ih =>
    rw [containsVar_power, Bool.or_eq_false_iff] at hx
    rw [degree_power, ih hx.1, Nat.mul_zero]

end Expr

namespace Coefficients

open SymbolicAlgebra.Expr (IsConstant)

/-- The coefficients of a small polynomial are constant. -/
theorem all_isConstant {e : Expr} {cs : Coefficients} (he : e.IsSmall x)
    (h : collect? x e = some cs) : cs.All (IsConstant x) := by
  have hc := collected_of_collect? h
  clear h
  induction hc with
  | constant hx => exact .singleton ⟨he, he.degree_eq_zero hx⟩
  | var => exact ⟨by simp, by simpa using ⟨Expr.closed_isConstant.zero, Expr.closed_isConstant.one⟩⟩
  | sum hlen _ ih =>
    cases he with
    | sum hes =>
      exact Expr.closed_isConstant.all_foldl_add (.singleton Expr.closed_isConstant.zero)
        (forall_mem_of_forall₂ (forall₂_of_zip hlen hes ih))
  | product hlen _ hr ih =>
    cases he with
    | product hes =>
      exact Expr.closed_isConstant.all_product? (forall_mem_of_forall₂ (forall₂_of_zip hlen hes ih)) hr
  | power _ _ hr ih =>
    cases he with
    | power hb =>
      exact Expr.closed_isConstant.all_product? (List.forall_mem_replicate.mpr (.inr (ih hb))) hr
  | neg _ ih =>
    cases he with
    | neg ha => exact (ih ha).map fun hc => ⟨.neg hc.1, hc.2⟩
  | div _ _ ih =>
    cases he with
    | div ha hb hd hne => exact (ih ha).map fun hc => ⟨.div hc.1 hb hd hne, hc.2⟩

/-! ## Which polynomial expressions have coefficients -/

/-- The longest list gives its length to a sum of coefficient lists. -/
theorem length_foldl_add {p : Coefficients} {ps : List Coefficients} {ds : List ℕ}
    (hp : 0 < p.length) (hps : List.Forall₂ (fun q d => q.length = d + 1) ps ds) :
    (ps.foldl add p).length = max p.length (ds.foldr max 0 + 1) := by
  induction hps generalizing p with
  | nil =>
    rw [List.foldl_nil, List.foldr_nil]
    omega
  | @cons q d ps ds hq _ ih =>
    rw [List.foldl_cons, ih (by rw [length_add]; omega), length_add, hq, List.foldr_cons]
    omega

/-- The degrees add up in a product, and the limit on the degree is kept. -/
theorem length_foldlM_mul? {p r : Coefficients} {ps : List Coefficients} {ds : List ℕ}
    (hp : 0 < p.length) (hps : List.Forall₂ (fun q d => q.length = d + 1) ps ds)
    (h : ps.foldlM mul? p = some r) :
    r.length = p.length + ds.sum ∧ r.length ≤ max p.length (maxDegree + 1) := by
  induction hps generalizing p with
  | nil =>
    obtain rfl := Option.some.inj h
    exact ⟨rfl, le_max_left _ _⟩
  | @cons q d ps ds hq hrest ih =>
    rw [List.foldlM_cons] at h
    obtain ⟨pq, hpq, h⟩ := Option.bind_eq_some_iff.mp h
    obtain ⟨hlen, hmax⟩ := length_mul? hp (by omega) hpq
    obtain ⟨hr, hrmax⟩ := ih (by omega) h
    rw [List.sum_cons]
    exact ⟨by omega, by omega⟩

/-- The length of a product of coefficient lists tells the sum of the degrees. -/
theorem length_product? {r : Coefficients} {ps : List Coefficients} {ds : List ℕ}
    (hps : List.Forall₂ (fun q d => q.length = d + 1) ps ds) (h : product? ps = some r) :
    r.length = ds.sum + 1 ∧ ds.sum ≤ maxDegree := by
  obtain ⟨hlen, hmax⟩ := length_foldlM_mul? one_pos hps h
  rw [List.length_singleton] at hlen hmax
  exact ⟨by omega, by omega⟩

/-- A polynomial expression without the variable is constant. -/
theorem isConstant_of_not_containsVar {e : Expr} (h : e.IsPolynomial x)
    (hx : e.containsVar x = false) : e.IsConstant x := by
  suffices hs : e.IsSmall x from ⟨hs, hs.degree_eq_zero hx⟩
  induction h with
  | number h => exact .number h
  | var => exact .var
  | sum _ ih =>
    rw [Expr.containsVar_sum, List.any_eq_false] at hx
    exact .sum fun e he => ih e he (by simpa using hx e he)
  | @product es _ ih =>
    rw [Expr.containsVar_product, List.any_eq_false] at hx
    have hs : ∀ e ∈ es, e.IsSmall x := fun e he => ih e he (by simpa using hx e he)
    refine .product hs ?_
    rw [Expr.degree_product, List.sum_eq_zero]
    · exact Nat.zero_le _
    · exact List.forall_mem_map.mpr fun e he => (hs e he).degree_eq_zero (by simpa using hx e he)
  | neg _ ih => exact .neg (ih (by rwa [Expr.containsVar_neg] at hx))
  | div _ hn hq ih =>
    rw [Expr.containsVar_div, Bool.or_eq_false_iff] at hx
    exact .div (ih hx.1) (.number hn) rfl fun ρ => by rwa [Expr.value_number hn]
  | power _ h0 hk ih =>
    rw [Expr.containsVar_power, Bool.or_eq_false_iff] at hx
    have hs := ih hx.1
    refine .power hs h0 hk ?_
    rw [Expr.degree_power, hs.degree_eq_zero hx.1, Nat.mul_zero]
    exact Nat.zero_le _

/-- A polynomial expression with coefficients is small, and it has as many coefficients as its degree
asks for. -/
theorem isSmall_of_collect? {e : Expr} {cs : Coefficients} (he : e.IsPolynomial x)
    (h : collect? x e = some cs) : e.IsSmall x ∧ cs.length = e.degree x + 1 := by
  have hforall : ∀ {es : List Expr} {ps : List Coefficients},
      List.Forall₂ (fun e p => e.IsSmall x ∧ p.length = e.degree x + 1) es ps →
        (∀ e ∈ es, e.IsSmall x) ∧
        List.Forall₂ (fun q d => q.length = d + 1) ps (es.map (Expr.degree x)) := by
    intro es ps h
    induction h with
    | nil => exact ⟨by simp, .nil⟩
    | cons h _ ih => exact ⟨List.forall_mem_cons.mpr ⟨h.1, ih.1⟩, .cons h.2 ih.2⟩
  -- The induction is on how the coefficients were collected, and the expression has to follow.
  have hc := collected_of_collect? h
  clear h
  induction hc with
  | constant hx =>
    obtain ⟨hs, hd⟩ := isConstant_of_not_containsVar he hx
    exact ⟨hs, by rw [hd]; rfl⟩
  | var => exact ⟨.var, by rw [Expr.degree_var_self]; rfl⟩
  | sum hlen _ ih =>
    cases he with
    | sum hes =>
      obtain ⟨hs, hlen⟩ := hforall (forall₂_of_zip hlen hes ih)
      refine ⟨.sum hs, ?_⟩
      rw [length_foldl_add one_pos hlen, Expr.degree_sum, List.length_singleton]
      omega
  | product hlen _ hr ih =>
    cases he with
    | product hes =>
      obtain ⟨hs, hlen⟩ := hforall (forall₂_of_zip hlen hes ih)
      obtain ⟨hr, hd⟩ := length_product? hlen hr
      rw [← Expr.degree_product] at hr hd
      exact ⟨.product hs hd, hr⟩
  | @power b _ n p _ hn _ hr ih =>
    cases he with
    | power hb h0 hk =>
      obtain ⟨rfl, -⟩ := degree?_eq_some_iff.mp hn
      obtain ⟨hs, hlen⟩ := ih hb
      -- A power is multiplied out as a product of equal factors.
      have hall : List.Forall₂ (fun q d => q.length = d + 1) (List.replicate n p)
          (List.replicate n (b.degree x)) := by
        clear hr hn hk h0
        induction n with
        | zero => exact .nil
        | succ n ihn => exact .cons hlen ihn
      obtain ⟨hr, hd⟩ := length_product? hall hr
      rw [List.sum_replicate, smul_eq_mul] at hr hd
      exact ⟨.power hs h0 hk hd, hr⟩
  | neg _ ih =>
    cases he with
    | neg ha =>
      obtain ⟨hs, hlen⟩ := ih ha
      exact ⟨.neg hs, by rwa [List.length_map]⟩
  | div _ _ ih =>
    cases he with
    | div ha hn hq =>
      obtain ⟨hs, hlen⟩ := ih ha
      exact ⟨.div hs (.number hn) rfl fun ρ => by rwa [Expr.value_number hn],
        by rwa [List.length_map]⟩

/-! ## Reading a polynomial -/

/-- Appended coefficients are those of higher powers. -/
theorem toPolynomial_append (cs ds : Coefficients) :
    toPolynomial ρ (cs ++ ds) = toPolynomial ρ cs + X ^ cs.length * toPolynomial ρ ds := by
  induction cs with
  | nil => simp [toPolynomial]
  | cons c cs ih =>
    rw [List.cons_append, toPolynomial, ih, toPolynomial, List.length_cons, pow_succ]
    ring

/-- The length of the list bounds the degree of its polynomial. -/
theorem natDegree_toPolynomial_le (cs : Coefficients) :
    (toPolynomial ρ cs).natDegree ≤ cs.length - 1 := by
  induction cs with
  | nil => simp [toPolynomial]
  | cons c cs ih =>
    rw [toPolynomial, natDegree_C_add, List.length_cons]
    rcases cs with _ | ⟨d, ds⟩
    · simp [toPolynomial]
    · refine (natDegree_mul_le_of_le natDegree_X_le ih).trans ?_
      rw [List.length_cons]
      omega

/-- Zeros at the end do not count. -/
theorem toPolynomial_dropWhile {cs : Coefficients} (hcs : ∀ c ∈ cs, c.Defined ρ) :
    toPolynomial ρ (cs.reverse.dropWhile Expr.isZero).reverse = toPolynomial ρ cs := by
  induction cs using List.reverseRecOn with
  | nil => rfl
  | append_singleton cs c ih =>
    obtain ⟨hcs, hc⟩ := List.forall_mem_append.mp hcs
    have hc : c.Defined ρ := List.forall_mem_singleton.mp hc
    rw [List.reverse_append, List.reverse_singleton, List.singleton_append, List.dropWhile_cons]
    split_ifs with hz
    · rw [ih hcs, toPolynomial_append, toPolynomial_singleton, hc.isZero_iff hz, C_0, mul_zero,
        add_zero]
    · rw [List.reverse_cons, List.reverse_reverse]

/-- Trimming keeps the polynomial. -/
theorem toPolynomial_trim {cs : Coefficients} (hcs : ∀ c ∈ cs, c.Defined ρ) :
    toPolynomial ρ (trim cs) = toPolynomial ρ cs := by
  cases cs with
  | nil => rfl
  | cons a cs =>
    rw [trim, toPolynomial, toPolynomial_dropWhile (List.forall_mem_cons.mp hcs).2, toPolynomial]

/-- Trimming brings in no coefficients. -/
theorem mem_of_mem_trim {cs : Coefficients} {c : Expr} (hc : c ∈ trim cs) : c ∈ cs := by
  cases cs with
  | nil => exact hc
  | cons a cs =>
    rcases List.mem_cons.mp hc with rfl | hc
    · exact List.mem_cons_self
    · have hsub := List.dropWhile_sublist Expr.isZero (l := cs.reverse)
      exact List.mem_cons_of_mem _ (List.mem_reverse.mp (hsub.subset (List.mem_reverse.mp hc)))

/-- Only a constant coefficient may be zero at the end. -/
theorem isZero_eq_false_of_trim_eq {cs ds : Coefficients} {c : Expr} (hds : 1 ≤ ds.length)
    (h : trim cs = ds ++ [c]) : c.isZero = false := by
  cases cs with
  | nil => simp [trim] at h
  | cons a cs =>
    obtain ⟨d, ds, rfl⟩ := List.exists_cons_of_length_pos hds
    rw [trim, List.cons_append, List.cons.injEq, List.reverse_eq_iff, List.reverse_append,
      List.reverse_singleton, List.singleton_append] at h
    have hhead := List.head?_dropWhile_not Expr.isZero cs.reverse
    rw [h.2] at hhead
    exact hhead

/-- The last coefficient is not zero, unless it is the only one. -/
theorem isZero_eq_false_of_ofExpr? {e : Expr} {cs : Coefficients} (h : ofExpr? x e = some cs) :
    ∀ ds c, 1 ≤ ds.length → cs = ds ++ [c] → c.isZero = false := by
  intro ds c hds hcs
  obtain ⟨ps, -, rfl⟩ := Option.map_eq_some_iff.mp h
  exact isZero_eq_false_of_trim_eq hds hcs

/-- Simplifying the coefficients keeps the polynomial, wherever they all have values. -/
theorem toPolynomial_map_of_refines {f : Expr → Expr} {cs : Coefficients}
    (h : ∀ c ∈ cs, (f c).Refines c) (hcs : ∀ c ∈ cs, c.Defined ρ) :
    toPolynomial ρ (cs.map f) = toPolynomial ρ cs := by
  induction cs with
  | nil => rfl
  | cons c cs ih =>
    obtain ⟨hc, hrest⟩ := List.forall_mem_cons.mp h
    obtain ⟨hd, hds⟩ := List.forall_mem_cons.mp hcs
    rw [List.map_cons, toPolynomial, ih hrest hds, (hc ρ hd).2, toPolynomial]

/-- Where the normal forms refine the collected coefficients, the coefficients are defined and make
up a polynomial with the value of the expression. -/
theorem value_eq_eval_ofExpr? {e : Expr} {ps cs : Coefficients} (hd : e.Defined ρ)
    (hps : collect? x e = some ps) (hrefines : ∀ c ∈ ps, c.normalForm.Refines c)
    (h : ofExpr? x e = some cs) :
    (∀ c ∈ cs, c.Defined ρ) ∧ e.value ρ = (toPolynomial ρ cs).eval (ρ x) := by
  rw [ofExpr?, hps, Option.map_some] at h
  obtain rfl := Option.some.inj h
  obtain ⟨hall, hvalue⟩ := value_eq_eval hd hps
  have hdefined : ∀ c ∈ ps.map Expr.normalForm, c.Defined ρ :=
    List.forall_mem_map.mpr fun c hc => (hrefines c hc ρ (hall.forall_mem c hc)).1
  refine ⟨fun c hc => hdefined c (mem_of_mem_trim hc), ?_⟩
  rw [hvalue, toPolynomial_trim hdefined, toPolynomial_map_of_refines hrefines hall.forall_mem]

end Coefficients

namespace Expr

/-- The polynomial has the values of the expression. -/
def Represents (x : String) (e : Expr) (p : ℚ[X]) : Prop := ∀ ρ, e.value ρ = p.eval (ρ x)

/-- An expression represents one polynomial at most. -/
theorem Represents.unique {e : Expr} {p q : ℚ[X]} (hp : e.Represents x p) (hq : e.Represents x q) :
    p = q := by
  refine Polynomial.funext fun r => ?_
  have hr := (hp fun _ => r).symm.trans (hq fun _ => r)
  exact hr

end Expr

namespace Coefficients

/-- Numbers have the same values at all assignments. -/
theorem toPolynomial_congr {σ : Assignment} {cs : Coefficients} (hcs : ∀ c ∈ cs, ∃ q, c.IsNumber q) :
    toPolynomial ρ cs = toPolynomial σ cs := by
  induction cs with
  | nil => rfl
  | cons c cs ih =>
    obtain ⟨⟨q, hq⟩, hcs⟩ := List.forall_mem_cons.mp hcs
    rw [toPolynomial, ih hcs, hq.value_eq, toPolynomial, hq.value_eq]

/-- The coefficients of a small polynomial are numbers, and make up a polynomial that it represents.
The last one is not zero, unless it is the only one. -/
theorem ofExpr?_spec {e : Expr} {cs : Coefficients} (he : e.IsSmall x) (h : ofExpr? x e = some cs) :
    (∀ c ∈ cs, ∃ q, c.IsNumber q) ∧ (∀ ρ, e.Represents x (toPolynomial ρ cs)) ∧
      (∀ ds c, 1 ≤ ds.length → cs = ds ++ [c] → c.isZero = false) := by
  obtain ⟨ps, hps, hcs⟩ := Option.map_eq_some_iff.mp h
  have hconst := all_isConstant he hps
  have hnumber : ∀ c ∈ cs, ∃ q, c.IsNumber q := by
    intro c hc
    obtain ⟨c, hc', rfl⟩ := List.mem_map.mp (mem_of_mem_trim (hcs ▸ hc))
    obtain ⟨hs, hd⟩ := hconst.forall_mem c hc'
    obtain ⟨n, q, hn, hq, -⟩ := hs.normalForm_eq_number hd
    exact ⟨q, n, hn, hq⟩
  have hrefines : ∀ c ∈ ps, c.normalForm.Refines c := fun c hc =>
    (hconst.forall_mem c hc).1.normalForm_settles.refines
  refine ⟨hnumber, fun ρ σ => ?_, isZero_eq_false_of_ofExpr? h⟩
  rw [(value_eq_eval_ofExpr? (he.defined σ) hps hrefines h).2, toPolynomial_congr hnumber]

end Coefficients

namespace Expr

variable {e a b c : Expr}

/-- A polynomial expression with coefficients is small. -/
theorem IsPolynomial.isSmall_of_coefficients {cs : Coefficients} (he : e.IsPolynomial x)
    (h : Coefficients.ofExpr? x e = some cs) : e.IsSmall x := by
  obtain ⟨ps, hps, -⟩ := Option.map_eq_some_iff.mp h
  exact (Coefficients.isSmall_of_collect? he hps).1

/-- The number of coefficients bounds the degree. -/
theorem IsSmall.exists_represents_of_coefficients {cs : Coefficients} (he : e.IsSmall x)
    (h : Coefficients.ofExpr? x e = some cs) :
    ∃ p, e.Represents x p ∧ p.natDegree ≤ cs.length - 1 := by
  obtain ⟨-, hp, -⟩ := Coefficients.ofExpr?_spec he h
  exact ⟨_, hp fun _ => 0, Coefficients.natDegree_toPolynomial_le cs⟩

/-- Two coefficients make a linear polynomial. -/
theorem IsSmall.represents_linear (he : e.IsSmall x) (h : Coefficients.ofExpr? x e = some [b, a]) :
    ∃ p q, a.IsNumber p ∧ b.IsNumber q ∧ p ≠ 0 ∧ e.Represents x (C p * X + C q) := by
  obtain ⟨hnumber, hp, hlast⟩ := Coefficients.ofExpr?_spec he h
  obtain ⟨p, ha⟩ := hnumber a (by simp)
  obtain ⟨q, hb⟩ := hnumber b (by simp)
  refine ⟨p, q, ha, hb, ha.ne_zero (hlast [b] a (by simp) rfl), ?_⟩
  have hp := hp fun _ => 0
  rw [Coefficients.toPolynomial, Coefficients.toPolynomial_singleton, ha.value_eq,
    hb.value_eq] at hp
  rwa [mul_comm, add_comm]

/-- Three coefficients make a quadratic polynomial. -/
theorem IsSmall.represents_quadratic (he : e.IsSmall x)
    (h : Coefficients.ofExpr? x e = some [c, b, a]) :
    ∃ p q r, a.IsNumber p ∧ b.IsNumber q ∧ c.IsNumber r ∧ p ≠ 0 ∧
      e.Represents x (C p * X ^ 2 + C q * X + C r) := by
  obtain ⟨hnumber, hp, hlast⟩ := Coefficients.ofExpr?_spec he h
  obtain ⟨p, ha⟩ := hnumber a (by simp)
  obtain ⟨q, hb⟩ := hnumber b (by simp)
  obtain ⟨r, hc⟩ := hnumber c (by simp)
  refine ⟨p, q, r, ha, hb, hc, ha.ne_zero (hlast [c, b] a (by simp) rfl), ?_⟩
  have hp := hp fun _ => 0
  rw [Coefficients.toPolynomial, Coefficients.toPolynomial, Coefficients.toPolynomial_singleton,
    ha.value_eq, hb.value_eq, hc.value_eq] at hp
  have hpoly : C p * X ^ 2 + C q * X + C r = C r + X * (C q + X * C p) := by ring
  rwa [hpoly]

end Expr

end SymbolicAlgebra
