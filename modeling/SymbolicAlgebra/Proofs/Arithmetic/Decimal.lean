import SymbolicAlgebra.Arithmetic.Extended
import SymbolicAlgebra.Proofs.Arithmetic.Accuracy

/-!
# Decimals of fifty digits

The decimal of a rational is the rounded quotient of its rounded numerator and denominator. Three
roundings leave a relative error below `2 / 10 ^ 49`, `Decimal.approximates_ofRat`, and none at all
where the rational and its denominator have fifty digits at most, `Decimal.toRat_ofRat`.
-/

namespace SymbolicAlgebra

namespace Decimal

theorem roundoff_precision : Floating.roundoff 10 precision = 1 / (2 * 10 ^ 49) := by
  rw [Floating.roundoff, precision]
  norm_num

theorem approximates_ofInt (n : ℤ) :
    Approximates (Floating.roundoff 10 precision) n (ofInt n).toRat := by
  have := Floating.approximates_round (p := precision) (by decide) (Floating.ofParts n 0 : Decimal)
  rwa [Floating.toRat_ofParts, zpow_zero, mul_one] at this

/-- An integer with fifty digits is not rounded. -/
theorem toRat_ofInt {n : ℤ} (h : Representable 10 precision n) : (ofInt n).toRat = n := by
  have hparts : (Floating.ofParts n 0 : Decimal).toRat = n := by
    rw [Floating.toRat_ofParts, zpow_zero, mul_one]
  rw [ofInt, Floating.round_of_representable (hparts ▸ h), hparts]

theorem significand_ofInt_ne_zero {n : ℤ} (hn : n ≠ 0) : (ofInt n).significand ≠ 0 := by
  intro h0
  have happrox := (approximates_ofInt n).le_abs_right
  rw [Floating.toRat_eq_zero_iff.mpr h0, abs_zero, roundoff_precision] at happrox
  have : 0 < |(n : ℚ)| := abs_pos.mpr (Int.cast_ne_zero.mpr hn)
  linarith

/-- The decimal of a rational has a relative error below two units of the forty-ninth digit. -/
theorem approximates_ofRat (r : ℚ) : Approximates (2 / 10 ^ 49) r (ofRat r).toRat := by
  have hden : ((r.den : ℤ) : ℚ) ≠ 0 := by exact_mod_cast r.den_ne_zero
  have hquotient := (approximates_ofInt r.num).div (by rw [roundoff_precision]; norm_num) hden
    (approximates_ofInt r.den)
  have hround := Floating.approximates_divide (p := precision) (by decide) (ofInt r.num)
    (significand_ofInt_ne_zero (n := r.den) (by exact_mod_cast r.den_ne_zero))
  have htotal := hquotient.trans Floating.roundoff_pos.le hround
  rw [Int.cast_natCast, Rat.num_div_den, roundoff_precision] at htotal
  exact htotal.mono (by norm_num)

/-- A rational with fifty digits, over a denominator with fifty digits, has an exact decimal. -/
theorem toRat_ofRat {r : ℚ} (hden : Representable 10 precision r.den)
    (h : Representable 10 precision r) : (ofRat r).toRat = r := by
  have hquotient : (ofInt r.num).toRat / (ofInt r.den).toRat = r := by
    rw [toRat_ofInt h.num, toRat_ofInt (by exact_mod_cast hden), Int.cast_natCast,
      Rat.num_div_den]
  have hexact := Floating.toRat_divide_of_representable (p := precision) (by decide)
    (x := ofInt r.num) (significand_ofInt_ne_zero (n := r.den) (by exact_mod_cast r.den_ne_zero))
  rw [hquotient] at hexact
  exact hexact h

end Decimal

end SymbolicAlgebra
