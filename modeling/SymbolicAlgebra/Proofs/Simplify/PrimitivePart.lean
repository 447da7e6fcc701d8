import Mathlib.Algebra.GCDMonoid.Multiset
import Mathlib.Algebra.GCDMonoid.Nat
import Mathlib.Data.Rat.Lemmas
import Mathlib.RingTheory.Int.Basic
import SymbolicAlgebra.Proofs.Simplify.Content

/-!
# The primitive part of a sum

The content of exact coefficients is the greatest common divisor of their numerators over the least
common multiple of their denominators, with the sign of the first one.
`Content.ofCoefficients_primitive` says that it is complete: what is left of the coefficients are
integers without a common divisor, the first of them positive.

Numerators and denominators are folded apart from each other. They come together in
`CommonDivisors.not_prime_dvd_all`: a prime that divides all quotients either divides what all
denominators divide, and one factor less would do for them, or it divides all numerators once more.
-/

namespace SymbolicAlgebra

namespace Content

variable {num den n d : ℤ} {q : ℚ} {qs : List ℚ} {c : Number} {cs : List Number}

/-! ## Common divisors and multiples -/

/-- The greatest common divisor of the numerators, and the least common multiple of the
denominators. -/
structure CommonDivisors (qs : List ℚ) (n d : ℤ) : Prop where
  dvd_num_iff : ∀ m, m ∣ n ↔ ∀ q ∈ qs, m ∣ q.num
  den_dvd_iff : ∀ m, d ∣ m ↔ ∀ q ∈ qs, (q.den : ℤ) ∣ m
  num_pos : 0 < n
  den_pos : 0 < d

/-- On top of a positive divisor and multiple, the divisors of exact coefficients always exist. -/
theorem exists_divisors (h : cs.map Number.toRat? = qs.map some) (hnum : 0 < num) (hden : 0 < den) :
    ∃ n d, divisors num den cs = .ok (some (n, d)) ∧ 0 < n ∧ 0 < d ∧
      (∀ m, m ∣ n ↔ m ∣ num ∧ ∀ q ∈ qs, m ∣ q.num) ∧
      ∀ m, d ∣ m ↔ den ∣ m ∧ ∀ q ∈ qs, (q.den : ℤ) ∣ m := by
  induction cs generalizing qs num den with
  | nil =>
    obtain rfl : qs = [] := List.map_eq_nil_iff.mp h.symm
    exact ⟨num, den, rfl, hnum, hden, by simp, by simp⟩
  | cons c cs ih =>
    cases qs with
    | nil => cases h
    | cons q qs =>
      obtain ⟨hc, hcs⟩ := List.cons.inj h
      obtain ⟨hcons, hgcdpos⟩ := divisors_cons hc (.inl hnum.ne') den cs
      have hlcmpos : 0 < leastCommonMultiple den q.den :=
        Int.natCast_pos.mpr (Nat.pos_of_ne_zero
          (Int.lcm_ne_zero hden.ne' (Int.natCast_ne_zero.mpr q.den_ne_zero)))
      obtain ⟨n, d, hok, hn, hd, hdvd, hmul⟩ := ih hcs hgcdpos hlcmpos
      refine ⟨n, d, ?_, hn, hd, fun m => ?_, fun m => ?_⟩
      · rw [hcons, hok]
      · rw [hdvd, Int.dvd_coe_gcd_iff, List.forall_mem_cons, and_assoc]
      · rw [hmul, leastCommonMultiple, Int.coe_lcm_dvd_iff, List.forall_mem_cons, and_assoc]

/-- The divisors of exact coefficients exist if the first one is not zero. -/
theorem exists_commonDivisors (hc : c.toRat? = some q) (hq : q ≠ 0)
    (hcs : cs.map Number.toRat? = qs.map some) :
    ∃ n d, divisors 0 1 (c :: cs) = .ok (some (n, d)) ∧ CommonDivisors (q :: qs) n d := by
  have hlcm : leastCommonMultiple 1 q.den = q.den := by simp [leastCommonMultiple]
  obtain ⟨hcons, hgcdpos⟩ := divisors_cons hc (.inr hq) 1 cs
  have hdenpos : (0 : ℤ) < q.den := Int.natCast_pos.mpr q.den_pos
  obtain ⟨n, d, hok, hn, hd, hdvd, hmul⟩ := exists_divisors hcs hgcdpos hdenpos
  refine ⟨n, d, ?_, fun m => ?_, fun m => ?_, hn, hd⟩
  · rw [hcons, hlcm, hok]
  · rw [hdvd, Int.dvd_coe_gcd_iff, List.forall_mem_cons, and_iff_right (dvd_zero m)]
  · rw [hmul, List.forall_mem_cons]

/-! ## Quotients -/

/-- The quotient of a fraction by `n / d`, as the product of a numerator and a denominator that are
divided out. -/
def quotientBy (n d : ℤ) (q : ℚ) : ℤ := q.num / n * (d / q.den)

namespace CommonDivisors

variable (h : CommonDivisors qs n d)

include h

/-- The common divisor divides all numerators. -/
theorem num_dvd (hq : q ∈ qs) : n ∣ q.num := (h.dvd_num_iff n).mp dvd_rfl q hq

/-- All denominators divide the common multiple. -/
theorem den_dvd (hq : q ∈ qs) : (q.den : ℤ) ∣ d := (h.den_dvd_iff d).mp dvd_rfl q hq

/-- The quotient by the content is a product of two integers. -/
theorem exists_cofactors (hq : q ∈ qs) :
    ∃ a b, q.num = n * a ∧ d = q.den * b ∧ quotientBy n d q = a * b := by
  obtain ⟨a, ha⟩ := h.num_dvd hq
  obtain ⟨b, hb⟩ := h.den_dvd hq
  have hden : (q.den : ℤ) ≠ 0 := Int.natCast_ne_zero.mpr q.den_ne_zero
  refine ⟨a, b, ha, hb, ?_⟩
  rw [quotientBy, ha, Int.mul_ediv_cancel_left _ h.num_pos.ne', hb, Int.mul_ediv_cancel_left _ hden]

/-- Division by the content is exact. -/
theorem div_eq_quotientBy (hq : q ∈ qs) : q / (n / d : ℚ) = quotientBy n d q := by
  obtain ⟨a, b, ha, hb, hquot⟩ := h.exists_cofactors hq
  have hn : (n : ℚ) ≠ 0 := Int.cast_ne_zero.mpr h.num_pos.ne'
  have hd : (d : ℚ) ≠ 0 := Int.cast_ne_zero.mpr h.den_pos.ne'
  have hvalue : q * q.den = n * a := by rw [Rat.mul_den_eq_num, ha, Int.cast_mul]
  have hmul : (d : ℚ) = q.den * b := by exact_mod_cast hb
  rw [hquot, Int.cast_mul]
  field_simp
  calc q * d = q * q.den * b := by rw [hmul, mul_assoc]
    _ = n * a * b := by rw [hvalue]

/-- The content, before its sign is chosen, is positive. -/
theorem content_pos : (0 : ℚ) < n / d :=
  div_pos (Int.cast_pos.mpr h.num_pos) (Int.cast_pos.mpr h.den_pos)

/-- A sign is its own inverse, so that it goes from the content to the quotient. -/
theorem div_signed {s : ℤ} (hs : s * s = 1) (hq : q ∈ qs) :
    q / (s * (n / d) : ℚ) = (s * quotientBy n d q : ℤ) := by
  have hss : (s : ℚ) * s = 1 := by exact_mod_cast hs
  have hne : (s * (n / d) : ℚ) ≠ 0 :=
    mul_ne_zero (left_ne_zero_of_mul_eq_one hss) h.content_pos.ne'
  rw [Int.cast_mul, ← h.div_eq_quotientBy hq, div_eq_iff hne]
  calc q = s * s * (q / (n / d) * (n / d)) := by
        rw [hss, one_mul, div_mul_cancel₀ q h.content_pos.ne']
    _ = s * (q / (n / d)) * (s * (n / d)) := by ring

/-- No prime divides all quotients. -/
theorem not_prime_dvd_all {p : ℤ} (hp : Prime p) (hall : ∀ q ∈ qs, p ∣ quotientBy n d q) :
    False := by
  by_cases hpd : p ∣ d
  · -- The multiple without one `p` is still one of all denominators.
    obtain ⟨d', rfl⟩ := hpd
    have hmul : ∀ q ∈ qs, (q.den : ℤ) ∣ d' := by
      intro q hq
      obtain ⟨a, b, ha, hb, hquot⟩ := h.exists_cofactors hq
      rcases hp.dvd_or_dvd (hquot ▸ hall q hq) with hpa | ⟨b', rfl⟩
      · have hpnum : p ∣ q.num := ha ▸ hpa.mul_left n
        have hcoprime : IsCoprime (q.den : ℤ) p :=
          (q.isCoprime_num_den.of_isCoprime_of_dvd_left hpnum).symm
        exact hcoprime.dvd_of_dvd_mul_left ⟨b, hb⟩
      · refine ⟨b', mul_left_cancel₀ hp.ne_zero ?_⟩
        rw [hb, mul_left_comm]
    have hd' : d' ≠ 0 := right_ne_zero_of_mul h.den_pos.ne'
    have hself : p * d' ∣ 1 * d' := by
      rw [one_mul]
      exact (h.den_dvd_iff d').mpr hmul
    exact hp.not_dvd_one ((mul_dvd_mul_iff_right hd').mp hself)
  · -- The multiple has no `p`, so that the numerators have one more than their divisor.
    have hdvd : ∀ q ∈ qs, n * p ∣ q.num := by
      intro q hq
      obtain ⟨a, b, ha, hb, hquot⟩ := h.exists_cofactors hq
      have hpb : ¬ p ∣ b := fun hpb => hpd (hb ▸ hpb.mul_left _)
      rw [ha]
      exact mul_dvd_mul_left n ((hp.dvd_or_dvd (hquot ▸ hall q hq)).resolve_right hpb)
    have hself : n * p ∣ n * 1 := by
      rw [mul_one]
      exact (h.dvd_num_iff (n * p)).mpr hdvd
    exact hp.not_dvd_one ((mul_dvd_mul_iff_left h.num_pos.ne').mp hself)

end CommonDivisors

/-! ## The content -/

/-- Integers that no prime divides have the greatest common divisor one. -/
theorem gcd_eq_one {ks : List ℤ} (h : ∀ p, Prime p → ¬ ∀ k ∈ ks, p ∣ k) :
    (ks : Multiset ℤ).gcd = 1 := by
  have hunit : IsUnit (ks : Multiset ℤ).gcd := by
    rw [Int.isUnit_iff_natAbs_eq]
    by_contra hne
    obtain ⟨p, hp, hdvd⟩ := Int.exists_prime_and_dvd hne
    exact h p hp fun k hk => Multiset.dvd_gcd.mp hdvd k (Multiset.mem_coe.mpr hk)
  rw [← Multiset.normalize_gcd, normalize_eq_one.mpr hunit]

/-- Numbers are divided by a rational as their values are. -/
theorem map_div_eq {content : ℚ} (hne : content ≠ 0) {k : ℚ → ℤ}
    (h : cs.map Number.toRat? = qs.map some) (hk : ∀ q ∈ qs, q / content = k q) :
    cs.map (· / .ofRat content) = (qs.map k).map .int := by
  induction cs generalizing qs with
  | nil =>
    obtain rfl : qs = [] := List.map_eq_nil_iff.mp h.symm
    rfl
  | cons c cs ih =>
    cases qs with
    | nil => cases h
    | cons q qs =>
      obtain ⟨hc, hcs⟩ := List.cons.inj h
      obtain ⟨hq, hqs⟩ := List.forall_mem_cons.mp hk
      rw [List.map_cons, List.map_cons, List.map_cons, ih hcs hqs,
        Number.div_eq hc (Number.toRat?_ofRat content) hne, hq, Number.ofRat_intCast]

/-- Exact coefficients have values. -/
theorem exists_values (h : ∀ c ∈ cs, c.toRat?.isSome) :
    ∃ qs : List ℚ, cs.map Number.toRat? = qs.map some := by
  refine ⟨cs.map fun c => c.toRat?.getD 0, ?_⟩
  rw [List.map_map]
  refine List.map_congr_left fun c hc => ?_
  obtain ⟨q, hq⟩ := Option.isSome_iff_exists.mp (h c hc)
  simp [hq]

/-- The content has the sign of the first coefficient. -/
theorem exists_content (hc : c.toRat? = some q) (hq : q ≠ 0)
    (hcs : cs.map Number.toRat? = qs.map some) :
    ∃ n d s : ℤ, CommonDivisors (q :: qs) n d ∧ s * s = 1 ∧ 0 < q / (s * (n / d) : ℚ) ∧
      ofCoefficients (c :: cs) = .ok (some (s * (n / d) : ℚ)) := by
  obtain ⟨n, d, hok, h⟩ := exists_commonDivisors hc hq hcs
  have hneg : c.isNegative = decide (q < 0) := by
    rw [Bool.eq_iff_iff, Number.isNegative_iff hc, decide_eq_true_iff]
  have hcontent : ofCoefficients (c :: cs) =
      .ok (some (if q < 0 then -(n / d : ℚ) else (n / d : ℚ))) := by
    unfold ofCoefficients
    rw [hok]
    change (if n = 0 then _ else _) = _
    rw [if_neg h.num_pos.ne', List.head?_cons, Option.any_some, hneg, Rat.divInt_eq_div]
    by_cases hlt : q < 0 <;> simp [hlt] <;> rfl
  by_cases hlt : q < 0
  · refine ⟨n, d, -1, h, rfl, ?_, ?_⟩
    · simpa using div_pos_of_neg_of_neg hlt (neg_neg_of_pos h.content_pos)
    · simpa [hlt] using hcontent
  · refine ⟨n, d, 1, h, rfl, ?_, ?_⟩
    · simpa using div_pos (lt_of_le_of_ne (not_lt.mp hlt) hq.symm) h.content_pos
    · simpa [hlt] using hcontent

/-- What is left of exact coefficients, of which the first is not zero, when their content is
divided out: integers without a common divisor, the first of them positive. -/
theorem ofCoefficients_primitive (h : ∀ a ∈ c :: cs, a.toRat?.isSome) (hc : c.isZero = false) :
    ∃ content k ks, ofCoefficients (c :: cs) = .ok (some content) ∧ content ≠ 0 ∧
      (c :: cs).map (· / .ofRat content) = (k :: ks).map .int ∧ 0 < k ∧
      ((k :: ks : List ℤ) : Multiset ℤ).gcd = 1 := by
  obtain ⟨hfirst, hrest⟩ := List.forall_mem_cons.mp h
  obtain ⟨q, hq⟩ := Option.isSome_iff_exists.mp hfirst
  have hne : q ≠ 0 := fun h0 => Bool.noConfusion (hc.symm.trans ((Number.isZero_iff hq).mpr h0))
  obtain ⟨qs, hqs⟩ := exists_values hrest
  obtain ⟨n, d, s, hdiv, hs, hpos, hcontent⟩ := exists_content hq hne hqs
  have hcontent0 : (s * (n / d) : ℚ) ≠ 0 := by
    intro h0
    simp [h0] at hpos
  -- The content is known for values; the coefficients are these values as numbers.
  have hvalues : (c :: cs).map Number.toRat? = (q :: qs).map some := by
    rw [List.map_cons, List.map_cons, hq, hqs]
  refine ⟨s * (n / d), s * quotientBy n d q, qs.map fun r => s * quotientBy n d r, hcontent,
    hcontent0, map_div_eq hcontent0 hvalues fun r hr => hdiv.div_signed hs hr, ?_,
    gcd_eq_one fun p hp hall => hdiv.not_prime_dvd_all hp fun r hr => ?_⟩
  · rw [← Int.cast_pos (R := ℚ), ← hdiv.div_signed hs List.mem_cons_self]
    exact hpos
  · have hr : p ∣ s * quotientBy n d r :=
      hall _ (List.mem_map_of_mem (f := fun r => s * quotientBy n d r) hr)
    -- The sign is its own inverse, so it does not keep a prime from dividing the quotients.
    have hself : p ∣ s * (s * quotientBy n d r) := hr.mul_left s
    rwa [← mul_assoc, hs, one_mul] at hself

/-- The coefficients `-1/2`, `0` and `3/4` have the content `-1/4`. -/
theorem ofCoefficients_primitive_of_quarters :
    ofCoefficients [.rat (-1 / 2), 0, .rat (3 / 4)] = .ok (some (-1 / 4)) ∧
      ∃ content k ks,
        ofCoefficients [.rat (-1 / 2), 0, .rat (3 / 4)] = .ok (some content) ∧ content ≠ 0 ∧
        [.rat (-1 / 2), 0, .rat (3 / 4)].map (· / Number.ofRat content) = (k :: ks).map .int ∧
        0 < k ∧ ((k :: ks : List ℤ) : Multiset ℤ).gcd = 1 :=
  ⟨by cbv, ofCoefficients_primitive (by decide) (by decide +kernel)⟩

end Content

end SymbolicAlgebra
