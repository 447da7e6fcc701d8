import Mathlib.Algebra.BigOperators.Ring.List
import SymbolicAlgebra.Expr.Expansion
import SymbolicAlgebra.Proofs.Simplify.Term

/-!
# Expansion keeps values

The terms of an expansion add up to the value of the expanded expression:
`Expr.addUpTo_expandTerms`. Each rule of the expansion has its own law about such sums, so that the
proof for whole trees only puts them together:

* `Expansion.multiply_spec`: the product of two terms, whose signs move to the front;
* `Expansion.AddUpTo.distribute` and `Expansion.addUpTo_multiplyOut`: sums that are multiplied out;
* `Expansion.addUpTo_powerTerms`: powers, which are multiplied out or kept.

An expansion never loses a value, `Expr.expand_refines`. It can gain one: the power zero of a sum is
multiplied out to one, whether the sum has a value or not.
-/

namespace SymbolicAlgebra

variable {ρ : Assignment}

namespace Expansion

/-- All terms have values, and these add up to `q`. -/
structure AddUpTo (ρ : Assignment) (es : List Expr) (q : ℚ) : Prop where
  defined : ∀ e ∈ es, e.Defined ρ
  sum_eq : (es.map (Expr.value ρ)).sum = q

namespace AddUpTo

variable {es fs : List Expr} {e : Expr} {p q : ℚ}

theorem nil : AddUpTo ρ [] 0 := ⟨by simp, rfl⟩

theorem singleton (h : e.Defined ρ) : AddUpTo ρ [e] (e.value ρ) := ⟨by simpa, by simp⟩

theorem append (hp : AddUpTo ρ es p) (hq : AddUpTo ρ fs q) : AddUpTo ρ (es ++ fs) (p + q) := by
  refine ⟨fun e he => ?_, by rw [List.map_append, List.sum_append, hp.sum_eq, hq.sum_eq]⟩
  exact (List.mem_append.mp he).elim (hp.defined e) (hq.defined e)

/-- The sum of the terms as one expression. -/
theorem sumOf (h : AddUpTo ρ es q) : (Expr.sumOf es).Defined ρ ∧ (Expr.sumOf es).value ρ = q := by
  obtain ⟨hd, hv⟩ := Expr.defined_sumOf h.defined
  exact ⟨hd, hv.trans h.sum_eq⟩

/-- A change of the terms that multiplies each value by `c` multiplies the sum by `c`. -/
theorem map {f : Expr → Expr} {c : ℚ} (h : AddUpTo ρ es q)
    (hf : ∀ e, e.Defined ρ → (f e).Defined ρ ∧ (f e).value ρ = c * e.value ρ) :
    AddUpTo ρ (es.map f) (c * q) := by
  refine ⟨List.forall_mem_map.mpr fun e he => (hf e (h.defined e he)).1, ?_⟩
  have hmap : (es.map f).map (Expr.value ρ) = es.map fun e => c * e.value ρ := by
    rw [List.map_map]
    exact List.map_congr_left fun e he => (hf e (h.defined e he)).2
  rw [hmap, List.sum_map_mul_left, h.sum_eq]

/-- Lists of terms are put together by adding what they add up to. -/
theorem flatten {terms : Expr → List Expr} {v : Expr → ℚ}
    (h : ∀ e ∈ es, AddUpTo ρ (terms e) (v e)) :
    AddUpTo ρ (es.map terms).flatten (es.map v).sum := by
  induction es with
  | nil => exact nil
  | cons e es ih =>
    obtain ⟨he, hes⟩ := List.forall_mem_cons.mp h
    exact he.append (ih hes)

end AddUpTo

/-! ## Products -/

/-- The factors of a product, or the expression itself, multiply to its value. -/
theorem factors_spec {e : Expr} (h : e.Defined ρ) :
    (∀ f ∈ factors e, f.Defined ρ) ∧ ((factors e).map (Expr.value ρ)).prod = e.value ρ := by
  cases h with
  | product h => exact ⟨h, (Expr.value_product _).symm⟩
  | _ => exact ⟨by simpa [factors] using by constructor <;> assumption, by simp [factors]⟩

/-- Writing a factor at the end of a product multiplies the values. -/
theorem multiplyRight_spec {a b : Expr} (ha : a.Defined ρ) (hb : b.Defined ρ) :
    (multiplyRight a b).Defined ρ ∧ (multiplyRight a b).value ρ = a.value ρ * b.value ρ := by
  fun_induction multiplyRight a b with
  | case1 b hone => exact ⟨hb, by rw [ha.isOne_iff hone, one_mul]⟩
  | case2 b _ hone => exact ⟨ha, by rw [hb.isOne_iff hone, mul_one]⟩
  | case3 inner _ _ ih =>
    cases hb with
    | neg hinner =>
      obtain ⟨hd, hv⟩ := ih hinner
      exact ⟨hd.neg, by rw [Expr.value_neg, Expr.value_neg, hv, mul_neg]⟩
  | case4 b _ _ _ =>
    obtain ⟨hfa, hva⟩ := factors_spec ha
    obtain ⟨hfb, hvb⟩ := factors_spec hb
    obtain ⟨hd, hv⟩ := Expr.defined_productOf (List.forall_mem_append.mpr ⟨hfa, hfb⟩)
    exact ⟨hd, by rw [hv, List.map_append, List.prod_append, hva, hvb]⟩

/-- The product of two terms has the product of their values. -/
theorem multiply_spec {a b : Expr} (ha : a.Defined ρ) (hb : b.Defined ρ) :
    (multiply a b).Defined ρ ∧ (multiply a b).value ρ = a.value ρ * b.value ρ := by
  fun_induction multiply a b with
  | case1 inner hone => exact ⟨ha, by rw [hb.isOne_iff hone, mul_one]⟩
  | case2 inner _ ih =>
    cases ha with
    | neg hinner =>
      obtain ⟨hd, hv⟩ := ih hinner
      exact ⟨hd.neg, by rw [Expr.value_neg, Expr.value_neg, hv, neg_mul]⟩
  | case3 a _ => exact multiplyRight_spec ha hb

/-- The products of the terms of two sums add up to the product of the sums. -/
theorem AddUpTo.distribute {left right : List Expr} {p q : ℚ} (hl : AddUpTo ρ left p)
    (hr : AddUpTo ρ right q) : AddUpTo ρ (distribute left right) (p * q) := by
  have hrow : ∀ a ∈ left, AddUpTo ρ (right.map (multiply a)) (a.value ρ * q) := fun a ha =>
    hr.map fun b hb => multiply_spec (hl.defined a ha) hb
  have h := AddUpTo.flatten hrow
  rwa [List.sum_map_mul_right, hl.sum_eq] at h

/-- Sums that are multiplied out one after the other add up to their product. -/
theorem AddUpTo.foldl_distribute {ι : Type} {is : List ι} {terms : ι → List Expr} {v : ι → ℚ}
    {acc : List Expr} {p : ℚ} (hacc : AddUpTo ρ acc p) (h : ∀ i ∈ is, AddUpTo ρ (terms i) (v i)) :
    AddUpTo ρ ((is.map terms).foldl Expansion.distribute acc) (p * (is.map v).prod) := by
  induction is generalizing acc p with
  | nil => simpa using hacc
  | cons i is ih =>
    obtain ⟨hi, his⟩ := List.forall_mem_cons.mp h
    rw [List.map_cons, List.foldl_cons, List.map_cons, List.prod_cons, ← mul_assoc]
    exact ih (hacc.distribute hi) his

/-- Multiplying out sums gives terms that add up to the product. -/
theorem addUpTo_multiplyOut {ι : Type} {is : List ι} {terms : ι → List Expr} {v : ι → ℚ}
    (h : ∀ i ∈ is, AddUpTo ρ (terms i) (v i)) :
    AddUpTo ρ (multiplyOut (is.map terms)) (is.map v).prod := by
  have hone : AddUpTo ρ [1] 1 := by
    have h1 := AddUpTo.singleton (ρ := ρ) (Expr.Defined.ofNat 1)
    rwa [Expr.value_ofNat, Nat.cast_one] at h1
  rw [multiplyOut, ← one_mul (is.map v).prod]
  exact hone.foldl_distribute h

/-! ## Powers -/

/-- An exponent that is multiplied out is a natural number. -/
theorem eq_of_smallExponent? {k : ℤ} {n : ℕ} (h : smallExponent? (.int k) = some n) :
    k = n := by
  obtain ⟨hword, -⟩ := Option.filter_eq_some_iff.mp h
  rw [Expr.int, Expr.toInt?, Expr.toNumber?] at hword
  simp only [Option.bind_some, Number.toInt?, toUnsignedWord?] at hword
  split at hword
  · obtain rfl := Option.some.inj hword
    omega
  · cases hword

/-- The terms of a power add up to the power, whether it is multiplied out or kept. -/
theorem addUpTo_powerTerms {terms : List Expr} {p : ℚ} {k : ℤ} (h : AddUpTo ρ terms p)
    (hk : p = 0 → 0 ≤ k) : AddUpTo ρ (powerTerms (.int k) terms [.int k]) (p ^ k) := by
  obtain ⟨hd, hv⟩ := h.sumOf
  have hkept : AddUpTo ρ [.power (.sumOf terms) (.int k)] (p ^ k) := by
    have hs := AddUpTo.singleton (Expr.Defined.power hd (by rwa [hv]))
    rwa [Expr.value_power, hv] at hs
  rw [powerTerms]
  split
  · next n hn =>
    split_ifs
    · have hterms : ∀ i ∈ List.range n, AddUpTo ρ terms p := fun _ _ => h
      have hout := addUpTo_multiplyOut hterms
      rw [List.map_const', List.map_const', List.length_range, List.prod_replicate] at hout
      rwa [eq_of_smallExponent? hn, zpow_natCast]
    · exact hkept
  · exact hkept

end Expansion

namespace Expr

open Expansion

/-- Expanding a list expands each of its expressions. -/
theorem expandAll_eq_map (es : List Expr) : expandAll es = es.map expandTerms := by
  induction es with
  | nil => rfl
  | cons e es ih => rw [expandAll, ih, List.map_cons]

/-- The terms of an expansion add up to the value of the expression. -/
theorem addUpTo_expandTerms {e : Expr} (h : e.Defined ρ) :
    AddUpTo ρ e.expandTerms (e.value ρ) := by
  induction h with
  | number h => exact .singleton (.number h)
  | var v => exact .singleton (.var v)
  | @sum es _ ih =>
    rw [expandTerms, expandAll_eq_map, value_sum]
    exact .flatten ih
  | @product es _ ih =>
    rw [expandTerms, expandAll_eq_map, value_product]
    exact addUpTo_multiplyOut ih
  | power _ hk ih =>
    rw [expandTerms, value_power]
    exact addUpTo_powerTerms ih hk
  | neg _ ih =>
    rw [expandTerms, value_neg, ← neg_one_mul]
    exact ih.map fun e he => ⟨he.neg, (neg_one_mul _).symm⟩
  | @div a b _ _ hne iha ihb =>
    obtain ⟨hd, hv⟩ := ihb.sumOf
    rw [expandTerms, value_div, div_eq_inv_mul]
    -- Each term is divided by the whole denominator.
    refine iha.map fun e he => ⟨.div he hd (by rwa [hv]), ?_⟩
    change (Expr.div e (sumOf b.expandTerms)).value ρ = _
    rw [value_div, hv, div_eq_inv_mul]

/-- Wherever an expression has a value, its expansion has the same value. -/
theorem expand_refines (e : Expr) : e.expand.Refines e := fun _ h => (addUpTo_expandTerms h).sumOf

/-- At 3, `(x + 1) ^ 2 / (x - 1)` has the value 8, and so has its expansion. -/
theorem expand_refines_square_over_difference :
    (Expr.div (.power (.sum [.var "x", .int 1]) (.int 2))
        (.sum [.var "x", .int (-1)])).expand.Defined (fun _ => 3) ∧
      (Expr.div (.power (.sum [.var "x", .int 1]) (.int 2))
        (.sum [.var "x", .int (-1)])).expand.value (fun _ => 3) = 8 := by
  have hsum : ∀ k : ℤ, (Expr.sum [.var "x", .int k]).Defined fun _ => 3 := fun k =>
    .sum (by simpa using ⟨.var "x", .int k⟩)
  obtain ⟨hd, hv⟩ := expand_refines (.div (.power (.sum [.var "x", .int 1]) (.int 2))
    (.sum [.var "x", .int (-1)])) (fun _ => 3)
    (.div (.power (hsum 1) fun _ => by decide) (hsum (-1)) (by norm_num))
  exact ⟨hd, hv.trans (by norm_num)⟩

end Expr

end SymbolicAlgebra
