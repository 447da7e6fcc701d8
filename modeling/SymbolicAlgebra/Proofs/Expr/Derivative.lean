import Mathlib.Algebra.BigOperators.Group.List.Lemmas
import Mathlib.Algebra.DualNumber
import SymbolicAlgebra.Expr.Derivative
import SymbolicAlgebra.Proofs.Expr.FieldExpression

/-!
# Derivatives are dual parts

The dual numbers are `p + q ε` with `ε ^ 2 = 0`. At `x + ε` in place of `x` an expression takes a
dual number, `Expr.dualValue`, whose first part is its value and whose second part is its slope in
`x`. This is defined without any rule of differentiation.

`Expr.exists_derive` says that the derivative of every field expression exists, unless an exponent
is zero, and that it has this slope as its value wherever the expression has one. The rules that
build it are met one by one, by the laws of dual numbers for products, inverses and powers.
-/

namespace SymbolicAlgebra

open DualNumber TrivSqZeroExt Differentiation

variable {ρ : Assignment} {x : String}

/-! ## Dual numbers -/

/-- A power with a whole exponent. -/
def dualPower (u : ℚ[ε]) : ℤ → ℚ[ε]
  | .ofNat n => u ^ n
  | .negSucc n => u⁻¹ ^ (n + 1)

/-- The real part of a power is the power of the real part. -/
theorem fst_dualPower (u : ℚ[ε]) (k : ℤ) : (dualPower u k).fst = u.fst ^ k := by
  cases k with
  | ofNat n => rw [dualPower, fst_pow, Int.ofNat_eq_natCast, zpow_natCast]
  | negSucc n => rw [dualPower, fst_pow, fst_inv, inv_pow, zpow_negSucc]

/-- The slope of an inverse. -/
theorem snd_inv_eq (u : ℚ[ε]) : (u⁻¹).snd = -(u.fst⁻¹ * u.fst⁻¹ * u.snd) := by
  rw [snd_inv, op_smul_eq_smul, smul_eq_mul, smul_eq_mul, mul_assoc]

/-- The slope of a power with a natural exponent. -/
theorem snd_pow_succ (u : ℚ[ε]) (n : ℕ) :
    (u ^ (n + 1)).snd = ((n + 1 : ℕ) : ℚ) * u.fst ^ n * u.snd := by
  rw [snd_pow, Nat.pred_succ, nsmul_eq_mul, smul_eq_mul, mul_assoc]

/-- The rule for powers. -/
theorem snd_dualPower (u : ℚ[ε]) (k : ℤ) :
    (dualPower u k).snd = k * u.fst ^ (k - 1) * u.snd := by
  cases k with
  | ofNat n =>
    cases n with
    | zero => simp [dualPower]
    | succ n =>
      have hk : Int.ofNat (n + 1) - 1 = (n : ℤ) := by simp
      rw [dualPower, snd_pow_succ, hk, zpow_natCast]
      rfl
  | negSucc n =>
    have hk : Int.negSucc n - 1 = -((n + 2 : ℕ) : ℤ) := by omega
    rw [dualPower, snd_pow_succ, fst_inv, snd_inv_eq, hk, zpow_neg, zpow_natCast, Int.cast_negSucc]
    ring

/-- The rule for products: each factor in turn is replaced by its slope. -/
theorem snd_prod_eq (us : List ℚ[ε]) :
    us.prod.snd = (us.zipIdx.map fun u => ((us.map fst).set u.2 u.1.snd).prod).sum := by
  rw [snd_list_prod]
  refine congrArg List.sum (List.map_congr_left fun u hu => ?_)
  have hlt : u.2 < (us.map fst).length := by
    rw [List.length_map]
    exact (List.mem_zipIdx hu).2.1.trans_eq (Nat.zero_add _)
  rw [List.prod_set, if_pos hlt, op_smul_eq_smul, smul_eq_mul, smul_eq_mul]
  ring

namespace Expr

/-- The dual number that an expression takes where `x` is replaced by `x + ε`. -/
def dualValue (ρ : Assignment) (x : String) (e : Expr) : ℚ[ε] :=
  e.fold fun node below =>
    match node, below with
    | .number n, _ => inl (n.toRat?.getD 0)
    | .var v, _ => if v = x then inl (ρ v) + ε else inl (ρ v)
    | .sum _, us => us.sum
    | .product _, us => us.prod
    | .power _ k, [u, _] => dualPower u (k.toInt?.getD 0)
    | .neg _, [u] => -u
    | .div _ _, [u, w] => u * w⁻¹
    | _, _ => 0

section DualValue

variable (x)

/-- A number has no slope. -/
theorem dualValue_number {n : Number} {q : ℚ} (h : n.toRat? = some q) :
    (Expr.number n).dualValue ρ x = inl q := by
  change inl (n.toRat?.getD 0) = _
  rw [h, Option.getD_some]

/-- The dual value of a sum is the sum of those of its terms, and so for every other operation. -/
theorem dualValue_sum (es : List Expr) :
    (Expr.sum es).dualValue ρ x = (es.map (dualValue ρ x)).sum := by
  rw [dualValue, fold, foldAll_eq_map]
  rfl

theorem dualValue_product (es : List Expr) :
    (Expr.product es).dualValue ρ x = (es.map (dualValue ρ x)).prod := by
  rw [dualValue, fold, foldAll_eq_map]
  rfl

theorem dualValue_power (b : Expr) (k : ℤ) :
    (Expr.power b (.int k)).dualValue ρ x = dualPower (b.dualValue ρ x) k := rfl

theorem dualValue_neg (a : Expr) : (Expr.neg a).dualValue ρ x = -a.dualValue ρ x := rfl

theorem dualValue_div (a b : Expr) :
    (Expr.div a b).dualValue ρ x = a.dualValue ρ x * (b.dualValue ρ x)⁻¹ := rfl

end DualValue

/-- Without the slope, a dual value is the value. -/
theorem fst_dualValue (x : String) {e : Expr} (h : e.Defined ρ) :
    (e.dualValue ρ x).fst = e.value ρ := by
  induction h with
  | number h => rw [dualValue_number x h, fst_inl, value_number h]
  | var v =>
    change (if v = x then inl (ρ v) + ε else inl (ρ v) : ℚ[ε]).fst = ρ v
    split_ifs <;> simp
  | sum _ ih =>
    rw [dualValue_sum, value_sum, ← fstHom_apply ℚ, map_list_sum, List.map_map]
    exact congrArg List.sum (List.map_congr_left ih)
  | product _ ih =>
    rw [dualValue_product, value_product, fst_list_prod, List.map_map]
    exact congrArg List.prod (List.map_congr_left ih)
  | power _ _ ih => rw [dualValue_power, fst_dualPower, ih, value_power]
  | neg _ ih => rw [dualValue_neg, fst_neg, ih, value_neg]
  | div _ _ _ iha ihb =>
    rw [dualValue_div, fst_mul, fst_inv, iha, ihb, value_div, div_eq_mul_inv]

/-- Without the variable there is no slope. -/
theorem snd_dualValue_eq_zero {e : Expr} (h : e.Defined ρ) (hx : e.containsVar x = false) :
    (e.dualValue ρ x).snd = 0 := by
  induction h with
  | number h => rw [dualValue_number x h, snd_inl]
  | var v =>
    have hv : v ≠ x := by simpa using hx
    change (if v = x then inl (ρ v) + ε else inl (ρ v) : ℚ[ε]).snd = 0
    rw [if_neg hv, snd_inl]
  | @sum es _ ih =>
    rw [containsVar_sum, List.any_eq_false] at hx
    rw [dualValue_sum, ← sndHom_apply ℚ, map_list_sum, List.map_map]
    refine List.sum_eq_zero fun q hq => ?_
    obtain ⟨e, he, rfl⟩ := List.mem_map.mp hq
    exact ih e he (by simpa using hx e he)
  | @product es _ ih =>
    rw [containsVar_product, List.any_eq_false] at hx
    rw [dualValue_product, snd_list_prod]
    -- Each summand of the product rule has the slope of one factor in it.
    refine List.sum_eq_zero fun q hq => ?_
    obtain ⟨⟨u, i⟩, hu, rfl⟩ := List.mem_map.mp hq
    obtain ⟨e, he, rfl⟩ := List.mem_map.mp (List.fst_mem_of_mem_zipIdx hu)
    rw [ih e he (by simpa using hx e he), smul_zero, smul_zero]
  | power _ _ ih =>
    rw [containsVar_power, Bool.or_eq_false_iff] at hx
    rw [dualValue_power, snd_dualPower, ih hx.1, mul_zero]
  | neg _ ih =>
    rw [containsVar_neg] at hx
    rw [dualValue_neg, snd_neg, ih hx, neg_zero]
  | div _ _ _ iha ihb =>
    rw [containsVar_div, Bool.or_eq_false_iff] at hx
    rw [dualValue_div, DualNumber.snd_mul, snd_inv_eq, iha hx.1, ihb hx.2]
    ring

/-! ## Sums of slopes -/

/-- Literal zeros do not count in a sum. -/
theorem exactValue?_sumNonzero {es : List Expr} {v : Expr → ℚ}
    (h : ∀ e ∈ es, e.exactValue? ρ = some (v e)) :
    (sumNonzero es).exactValue? ρ = some (es.map v).sum := by
  have hfilter : ((es.filter fun e => !e.isZero).map v).sum = (es.map v).sum :=
    sum_map_filter fun e he hz => eq_zero_of_isZero (h e he) (by simpa using hz)
  rw [sumNonzero, exactValue?_sumOf fun e he => h e (List.mem_of_mem_filter he), hfilter]

/-- The value of the term of the product rule that has a derivative in place of the factor at a
position. -/
def productTermValue (v : Expr → ℚ) (es : List Expr) (d : Expr × ℕ) : ℚ :=
  ((es.map v).set d.2 (v d.1)).prod

section ProductRule

variable {es ds : List Expr} {v : Expr → ℚ} {d : Expr × ℕ}

/-- The term of the product rule for one factor has its value. -/
theorem exactValue?_productTerm (hes : ∀ e ∈ es, e.exactValue? ρ = some (v e))
    (hd : d.1.exactValue? ρ = some (v d.1)) :
    (productOf (es.set d.2 d.1)).exactValue? ρ = some (productTermValue v es d) := by
  have hset : ∀ e ∈ es.set d.2 d.1, e.exactValue? ρ = some (v e) := fun e he =>
    (List.mem_or_eq_of_mem_set he).elim (hes e) fun h => h ▸ hd
  rw [exactValue?_productOf hset, List.map_set, productTermValue]

/-- A factor without slope makes a term of the product rule zero. -/
theorem productTermValue_eq_zero (hd : d.2 < es.length) (hv : v d.1 = 0) :
    productTermValue v es d = 0 := by
  have hlt : d.2 < (es.map v).length := by rwa [List.length_map]
  refine List.prod_eq_zero ?_
  rw [hv]
  exact List.mem_set hlt 0

/-- The terms of the product rule add up to the sum in which each factor in turn is replaced by its
slope. -/
theorem exactValue?_productTerms (hlen : ds.length = es.length)
    (hes : ∀ e ∈ es, e.exactValue? ρ = some (v e)) (hds : ∀ d ∈ ds, d.exactValue? ρ = some (v d)) :
    (sumNonzero (productTerms es ds)).exactValue? ρ =
      some (((ds.map v).zipIdx.map fun d => ((es.map v).set d.2 d.1).prod).sum) := by
  have hvd : ∀ d ∈ ds.zipIdx, d.1.exactValue? ρ = some (v d.1) := fun d hd =>
    hds _ (List.fst_mem_of_mem_zipIdx hd)
  have hkept : ∀ d ∈ ds.zipIdx.filter (fun d => !d.1.isZero),
      (productOf (es.set d.2 d.1)).exactValue? ρ = some (productTermValue v es d) := fun d hd =>
    exactValue?_productTerm hes (hvd d (List.mem_of_mem_filter hd))
  -- Each position is one of a factor, so that a derivative that is left out makes a product zero.
  have hleft : ∀ d ∈ ds.zipIdx, (!d.1.isZero) = false → productTermValue v es d = 0 := by
    intro d hd hz
    refine productTermValue_eq_zero ?_ (eq_zero_of_isZero (hvd d hd) (by simpa using hz))
    exact hlen ▸ (List.mem_zipIdx hd).2.1.trans_eq (Nat.zero_add _)
  have hvalue : ∀ e ∈ productTerms es ds,
      e.exactValue? ρ = some ((e.exactValue? ρ).getD 0) := by
    intro e he
    obtain ⟨d, hd, rfl⟩ := List.mem_map.mp he
    rw [hkept d hd, Option.getD_some]
  have hmap : (productTerms es ds).map (fun e => (e.exactValue? ρ).getD 0) =
      (ds.zipIdx.filter fun d => !d.1.isZero).map (productTermValue v es) := by
    rw [productTerms, List.map_map]
    refine List.map_congr_left fun d hd => ?_
    rw [Function.comp_apply, hkept d hd, Option.getD_some]
  rw [exactValue?_sumNonzero hvalue, hmap, sum_map_filter hleft, List.zipIdx_map, List.map_map]
  rfl

end ProductRule

/-! ## The rules -/

/-- The derivative has the slope of the expression as its value, wherever the expression has one. -/
def HasSlope (x : String) (e d : Expr) : Prop :=
  ∀ ρ, e.Defined ρ → d.exactValue? ρ = some (e.dualValue ρ x).snd

/-- The values of derivatives are the slopes. -/
theorem slopes_of_forall₂ {es ds : List Expr} (h : List.Forall₂ (HasSlope x) es ds)
    (hes : ∀ e ∈ es, e.Defined ρ) :
    (∀ d ∈ ds, d.exactValue? ρ = some ((d.exactValue? ρ).getD 0)) ∧
      ds.map (fun d => (d.exactValue? ρ).getD 0) = es.map fun e => (e.dualValue ρ x).snd := by
  induction h with
  | nil => simp
  | @cons e d es ds hd _ ih =>
    obtain ⟨he, hes⟩ := List.forall_mem_cons.mp hes
    obtain ⟨hds, hmap⟩ := ih hes
    have hslope := hd ρ he
    exact ⟨List.forall_mem_cons.mpr ⟨by rw [hslope, Option.getD_some], hds⟩,
      by rw [List.map_cons, List.map_cons, hmap, hslope, Option.getD_some]⟩

/-- An expression without the variable has no slope. -/
theorem hasSlope_zero {e : Expr} (hx : e.containsVar x = false) : HasSlope x e 0 := fun _ h => by
  rw [snd_dualValue_eq_zero h hx]
  rfl

/-- The variable has the slope one. -/
theorem hasSlope_var : HasSlope x (.var x) 1 := by
  intro ρ _
  change some ((1 : ℤ) : ℚ) = some (if x = x then inl (ρ x) + ε else inl (ρ x) : ℚ[ε]).snd
  rw [if_pos rfl, snd_add, snd_inl, snd_eps, zero_add, Int.cast_one]

/-- Sum rule; zeros are left out. -/
theorem HasSlope.sum {es ds : List Expr} (h : List.Forall₂ (HasSlope x) es ds) :
    HasSlope x (.sum es) (sumNonzero ds) := by
  intro ρ hd
  obtain ⟨hds, hmap⟩ := slopes_of_forall₂ h hd.of_mem_sum
  rw [exactValue?_sumNonzero hds, hmap, dualValue_sum, ← sndHom_apply ℚ ℚ, map_list_sum,
    List.map_map]
  rfl

/-- Product rule; the terms of factors with the derivative zero are left out. -/
theorem HasSlope.product {es ds : List Expr} (h : List.Forall₂ (HasSlope x) es ds) :
    HasSlope x (.product es) (sumNonzero (productTerms es ds)) := by
  intro ρ hd
  obtain ⟨hds, hmap⟩ := slopes_of_forall₂ h hd.of_mem_product
  have hvalue : ∀ e ∈ es, e.exactValue? ρ = some ((e.exactValue? ρ).getD 0) := fun e he => by
    rw [(hd.of_mem_product e he).exactValue?_eq, Option.getD_some]
  have hfst : es.map (fun e => (e.exactValue? ρ).getD 0) = es.map fun e => (e.dualValue ρ x).fst :=
    List.map_congr_left fun e he => by
      have he := hd.of_mem_product e he
      rw [he.exactValue?_eq, Option.getD_some, fst_dualValue x he]
  rw [exactValue?_productTerms h.length_eq.symm hvalue hds, hmap, hfst, dualValue_product,
    snd_prod_eq, List.map_map, List.zipIdx_map, List.zipIdx_map, List.map_map, List.map_map]
  rfl

/-- The slope of an expression with a sign. -/
theorem HasSlope.neg {a a' : Expr} (h : HasSlope x a a') : HasSlope x (.neg a) (-a') := by
  rintro ρ (_ | _ | _ | _ | _ | ha)
  rw [dualValue_neg, snd_neg]
  exact exactValue?_neg (h ρ ha)

/-- Quotient rule, in the form for a constant denominator too. -/
theorem HasSlope.div {a a' b b' : Expr} (ha : HasSlope x a a') (hb : HasSlope x b b') :
    HasSlope x (.div a b) (ofQuotient a b a' b') := by
  intro ρ hd
  cases hd with
  | div hda hdb hne =>
    have hminuend := exactValue?_times (ha ρ hda) hdb.exactValue?_eq
    have hsubtrahend : (if b'.isZero then b' else -Expr.times a b').exactValue? ρ =
        some (-(a.value ρ * (b.dualValue ρ x).snd)) := by
      split_ifs with hz
      · rw [hb ρ hdb, eq_zero_of_isZero (hb ρ hdb) hz, mul_zero, neg_zero]
      · exact exactValue?_neg (exactValue?_times hda.exactValue?_eq (hb ρ hdb))
    have hterms : ∀ e ∈ [Expr.times a' b, if b'.isZero then b' else -Expr.times a b'],
        e.exactValue? ρ = some ((e.exactValue? ρ).getD 0) := by
      simp only [List.forall_mem_cons, hminuend, hsubtrahend]
      simp
    have hnum := exactValue?_sumNonzero hterms
    simp only [List.map_cons, List.map_nil, hminuend, hsubtrahend, Option.getD_some, List.sum_cons,
      List.sum_nil, add_zero] at hnum
    have hden := exactValue?_power hdb.exactValue?_eq (exactValue?_int 2) fun _ => by decide
    have hquotient := exactValue?_div hnum hden (zpow_ne_zero 2 hne)
    rw [dualValue_div, DualNumber.snd_mul, snd_inv_eq, fst_inv, fst_dualValue x hda,
      fst_dualValue x hdb]
    refine hquotient.trans (congrArg some ?_)
    field_simp
    ring

/-- Power rule for a constant exponent. It needs the exponent not to be zero, since the derivative
has the power below. -/
theorem HasSlope.power {b b' : Expr} {k : ℤ} (hk : k ≠ 0) (h : HasSlope x b b') :
    HasSlope x (.power b (.int k)) (ofConstantExponent b (.int k) b') := by
  intro ρ hd
  cases hd with
  | power hdb hsign =>
    have hexp : (Expr.int k - 1).exactValue? ρ = some ((k - 1 : ℤ) : ℚ) := by
      have hminus :=
        exactValue?_add (ρ := ρ) (exactValue?_int k) (exactValue?_neg (exactValue?_int 1))
      rw [Int.cast_sub, sub_eq_add_neg]
      exact hminus
    have hpow := exactValue?_power hdb.exactValue?_eq hexp fun h0 => by
      have := hsign h0
      omega
    rw [dualValue_power, snd_dualPower, fst_dualValue x hdb]
    exact exactValue?_times (exactValue?_mul (exactValue?_int k) hpow) (h ρ hdb)

/-! ## Derivatives -/

section Derive

variable {a b e k : Expr} {es : List Expr}

/-- Without the variable the derivative is zero, whatever the expression. -/
theorem IsField.derive_eq_zero {K : ℤ → Prop} (h : e.IsField K) (hx : e.containsVar x = false) :
    e.derive x = .ok 0 := by
  rw [derive.eq_def, hx]
  cases h <;> rfl

theorem derive_var_self : (Expr.var x).derive x = .ok 1 := by
  rw [derive.eq_def, containsVar_var, beq_self_eq_true]
  rfl

/-- How a sum with the variable is differentiated. -/
theorem derive_sum (hx : (Expr.sum es).containsVar x = true) :
    (Expr.sum es).derive x = do return sumNonzero (← deriveAll x es) := by
  rw [derive.eq_def, hx]
  rfl

/-- How a product with the variable is differentiated. -/
theorem derive_product (hx : (Expr.product es).containsVar x = true) :
    (Expr.product es).derive x = do return sumNonzero (productTerms es (← deriveAll x es)) := by
  rw [derive.eq_def, hx]
  rfl

/-- How an expression with a sign is differentiated. -/
theorem derive_neg (hx : (Expr.neg a).containsVar x = true) :
    (Expr.neg a).derive x = do return -(← a.derive x) := by
  rw [derive.eq_def, hx]
  rfl

/-- How a quotient with the variable is differentiated. -/
theorem derive_div (hx : (Expr.div a b).containsVar x = true) :
    (Expr.div a b).derive x = do return ofQuotient a b (← a.derive x) (← b.derive x) := by
  rw [derive.eq_def, hx]
  rfl

/-- How a power is differentiated, with the variable in its base only. -/
theorem derive_power (hx : (Expr.power b k).containsVar x = true) (hk : k.containsVar x = false) :
    (Expr.power b k).derive x = do return ofConstantExponent b k (← b.derive x) := by
  rw [derive.eq_def, hx]
  simp only [hk]
  rfl

end Derive

/-- If each operand has a derivative, the list of operands has one. -/
theorem exists_deriveAll {R : Expr → Expr → Prop} {es : List Expr}
    (h : ∀ e ∈ es, ∃ d, e.derive x = .ok d ∧ R e d) :
    ∃ ds, deriveAll x es = .ok ds ∧ List.Forall₂ R es ds := by
  induction es with
  | nil => exact ⟨[], rfl, .nil⟩
  | cons e es ih =>
    obtain ⟨⟨d, hd, hR⟩, hes⟩ := List.forall_mem_cons.mp h
    obtain ⟨ds, hds, hRs⟩ := ih hes
    exact ⟨d :: ds, by rw [deriveAll, hd, hds]; rfl, .cons hR hRs⟩

/-- Without the variable the derivative is zero, so that only expressions with it matter. -/
theorem IsField.exists_derive_of_containsVar {K : ℤ → Prop} {e : Expr} (h : e.IsField K)
    (hx : e.containsVar x = true → ∃ d, e.derive x = .ok d ∧ HasSlope x e d) :
    ∃ d, e.derive x = .ok d ∧ HasSlope x e d := by
  cases hc : e.containsVar x with
  | false => exact ⟨0, h.derive_eq_zero hc, hasSlope_zero hc⟩
  | true => exact hx hc

/-- A field expression without the exponent zero has a derivative. Wherever the expression has a
value, the derivative has the slope as its value. -/
theorem exists_derive {e : Expr} (h : e.IsField (· ≠ 0)) (x : String) :
    ∃ d, e.derive x = .ok d ∧
      ∀ ρ, e.Defined ρ → d.exactValue? ρ = some (e.dualValue ρ x).snd := by
  induction h with
  | number h => exact ⟨0, (IsField.number (K := (· ≠ 0)) h).derive_eq_zero rfl, hasSlope_zero rfl⟩
  | var v =>
    -- Without the variable the derivative and the slope are zero; otherwise the node's rule
    -- applies.
    refine (IsField.var (K := (· ≠ 0)) v).exists_derive_of_containsVar fun hx => ?_
    obtain rfl : v = x := by simpa using hx
    exact ⟨1, derive_var_self, hasSlope_var⟩
  | sum h ih =>
    refine (IsField.sum h).exists_derive_of_containsVar fun hx => ?_
    obtain ⟨ds, hds, hslopes⟩ := exists_deriveAll ih
    exact ⟨_, by rw [derive_sum hx, hds]; rfl, .sum hslopes⟩
  | product h ih =>
    refine (IsField.product h).exists_derive_of_containsVar fun hx => ?_
    obtain ⟨ds, hds, hslopes⟩ := exists_deriveAll ih
    exact ⟨_, by rw [derive_product hx, hds]; rfl, .product hslopes⟩
  | power hb hk ih =>
    refine (IsField.power hb hk).exists_derive_of_containsVar fun hx => ?_
    obtain ⟨b', hb', hslope⟩ := ih
    exact ⟨_, by rw [derive_power hx rfl, hb']; rfl, HasSlope.power hk hslope⟩
  | neg ha ih =>
    refine (IsField.neg ha).exists_derive_of_containsVar fun hx => ?_
    obtain ⟨a', ha', hslope⟩ := ih
    exact ⟨_, by rw [derive_neg hx, ha']; rfl, HasSlope.neg hslope⟩
  | div ha hb iha ihb =>
    refine (IsField.div ha hb).exists_derive_of_containsVar fun hx => ?_
    obtain ⟨a', ha', hslope⟩ := iha
    obtain ⟨b', hb', hslope'⟩ := ihb
    exact ⟨_, by rw [derive_div hx, ha', hb']; rfl, HasSlope.div hslope hslope'⟩

/-- The slope of `x ^ 3 / (x + 1)` at 1 is `5 / 4`, and so is the value of its derivative there. -/
theorem exists_derive_cube_over_sum :
    ∃ d, (Expr.div (.power (.var "x") (.int 3)) (.sum [.var "x", .int 1])).derive "x" = .ok d ∧
      d.exactValue? (fun _ => 1) = some (5 / 4) := by
  have hx : (Expr.var "x").IsField (· ≠ 0) := .var "x"
  have hsum : (Expr.sum [.var "x", .int 1]).IsField (· ≠ 0) :=
    .sum (by simpa using ⟨hx, .number rfl⟩)
  obtain ⟨d, hd, hslope⟩ := exists_derive (.div (.power (k := 3) hx (by decide)) hsum) "x"
  refine ⟨d, hd, (hslope (fun _ => 1) ?_).trans ?_⟩
  · refine .div (.power (.var "x") fun _ => by decide) (.sum ?_) (by norm_num)
    simpa using ⟨.var "x", .int 1⟩
  · decide +kernel

end Expr

end SymbolicAlgebra
