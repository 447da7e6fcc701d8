import SymbolicAlgebra.Polynomial.Roots
import SymbolicAlgebra.Proofs.Polynomial.Literals
import SymbolicAlgebra.Proofs.Simplify.ClosedValue

/-!
# Roots of polynomials with numbers as coefficients

The roots in closed form are exact: `Linear.root_eq` and `Quadratic.roots_eq`, the second one where the
discriminant is the square of a rational. Each root comes out at its narrowest level, so that equal
roots are equal as expressions, by whatever way they are computed.
-/

namespace SymbolicAlgebra

variable {p q r : ℚ}

namespace Pattern

/-- The root of a square of a rational. -/
theorem visit_sqrt_number {n : Number} (hn : n.toRat? = some (p * p)) :
    visit (.call .sqrt (.number n)) = .rat |p| :=
  visit_eq_of_arithmetic [⟨"fold-sum", Folding.foldSum⟩,
    ⟨"fold-product", Folding.foldProduct⟩, ⟨"fold-power", Folding.foldPower⟩,
    ⟨"fold-neg", Folding.foldNeg⟩, ⟨"fold-div", Folding.foldDiv⟩] rfl rfl
    (by simp [Expr.call, Folding.foldSum, Folding.foldProduct, Folding.foldPower, Folding.foldNeg,
      Folding.foldDiv]) (Folding.foldSqrt_square hn)

end Pattern

open Pattern

/-! ## Roots -/

/-- The root of `p x + q`. -/
theorem Linear.root_eq {a b : Expr} (ha : a.IsNumber p) (hb : b.IsNumber q) (hp : p ≠ 0) :
    (Linear.mk a b).root = .rat (-q / p) := by
  obtain ⟨m, rfl, hm⟩ := ha
  obtain ⟨n, rfl, hn⟩ := hb
  refine normalForm_eq_of_pass ?_
  change visit (.div (visit (.neg (visit (.number n)))) (visit (.number m))) = _
  rw [visit_number, visit_number, visit_neg_number hn, visit_div_numbers hm hp]
  rfl

namespace Quadratic

variable {a b c : Expr}

/-- The discriminant of `p x ^ 2 + q x + r` is a number. -/
theorem discriminant_isNumber (ha : a.IsNumber p) (hb : b.IsNumber q) (hc : c.IsNumber r) :
    (Quadratic.mk a b c).discriminant.IsNumber (q ^ 2 - 4 * p * r) := by
  have hsmall : ∀ {e : Expr} {s : ℚ}, e.IsNumber s → e.IsConstant "x" := fun h => h.isSmall
  have hfour : Expr.IsConstant "x" 4 := ⟨.int 4, rfl⟩
  have hproduct : Expr.IsConstant "x" (4 * a * c) :=
    Expr.closed_isConstant.mul (Expr.closed_isConstant.mul hfour (hsmall ha)) (hsmall hc)
  have hpower : Expr.IsConstant "x" (.power b 2) := by
    have hd : (Expr.power b (.int 2)).degree "x" = 0 := by
      rw [Expr.degree_power, (hsmall hb).2, Nat.mul_zero]
    exact ⟨.power (hsmall hb).1 (by decide) (by decide) (hd.trans_le (Nat.zero_le _)), hd⟩
  have hdisc : Expr.IsConstant "x" (.power b 2 - 4 * a * c) :=
    Expr.closed_isConstant.add hpower ⟨.neg hproduct.1, hproduct.2⟩
  obtain ⟨n, s, hn, hs, hvalue⟩ := hdisc.1.normalForm_eq_number hdisc.2
  refine ⟨n, hn, ?_⟩
  rw [hs, ← hvalue fun _ => 0]
  change some (Expr.value _ (.sum [.power b (.int 2), .neg (.product [.product [.int 4, a], c])])) = _
  simp [ha.value_eq, hb.value_eq, hc.value_eq]
  ring

/-- The roots of `p x ^ 2 + q x + r`, where the discriminant is the square of `s`. -/
theorem roots_eq {s : ℚ} (ha : a.IsNumber p) (hb : b.IsNumber q) (hc : c.IsNumber r) (hp : p ≠ 0)
    (hs : q ^ 2 - 4 * p * r = s * s) :
    (Quadratic.mk a b c).roots = (.rat ((-q - |s|) / (2 * p)), .rat ((-q + |s|) / (2 * p))) := by
  obtain ⟨d, hd, hdisc⟩ := discriminant_isNumber ha hb hc
  rw [hs] at hdisc
  have hroot : (Expr.call .sqrt (Quadratic.mk a b c).discriminant).normalForm = .rat |s| := by
    rw [hd]
    refine normalForm_eq_of_pass ?_
    change visit (.call .sqrt (visit (.number d))) = _
    rw [visit_number, visit_sqrt_number hdisc]
    rfl
  obtain ⟨m, rfl, hm⟩ := ha
  obtain ⟨n, rfl, hn⟩ := hb
  have htwo : (2 : Number).toRat? = some 2 := rfl
  have hden : (2 * p : ℚ) ≠ 0 := mul_ne_zero two_ne_zero hp
  have habs : (Number.ofRat |s|).toRat? = some |s| := Number.toRat?_ofRat _
  -- The two roots differ in the second term of the numerator only.
  have hquotient : ∀ {t : Expr} {v : ℚ}, visit t = .rat v →
      visit (.div (visit (.sum [visit (.neg (visit (.number n))), visit t]))
        (visit (.product [visit 2, visit (.number m)]))) = .rat ((-q + v) / (2 * p)) := by
    intro t v ht
    rw [visit_number, visit_neg_number hn, ht]
    change visit (.div (visit (.sum [.number (.ofRat (-q)), .number (.ofRat v)]))
      (visit (.product [visit (.number 2), visit (.number m)]))) = _
    rw [visit_sum_pair (Number.toRat?_ofRat _) (Number.toRat?_ofRat _), visit_number, visit_number,
      visit_product_pair htwo hm]
    exact visit_div_numbers (Number.toRat?_ofRat _) hden
  have hminus : visit (.neg (visit (.number (.ofRat |s|)))) = .rat (-|s|) := by
    rw [visit_number, visit_neg_number habs]
  rw [roots]
  simp only [hroot]
  refine Prod.ext ?_ ?_
  · rw [sub_eq_add_neg]
    exact normalForm_eq_of_pass (hquotient hminus)
  · exact normalForm_eq_of_pass (hquotient (visit_number _))

end Quadratic

end SymbolicAlgebra
