import Mathlib.Algebra.Order.Ring.Abs
import Mathlib.Tactic.FieldSimp
import Mathlib.Tactic.Linarith
import Mathlib.Tactic.LinearCombination
import Mathlib.Tactic.Positivity
import SymbolicAlgebra.Proofs.Arithmetic.Floating

/-!
# Accuracy of floating operations

With `p` digits an operation has a relative error of about `b ^ (1 - p)`:

* `Floating.approximates_round` and `Floating.approximates_divide` bound it by half a unit in the
  last place, `Floating.roundoff`;
* `Floating.approximates_sq_squareRoot` bounds the error of the square of a root, which needs no
  root of a rational.

Numbers and quotients with at most `p` digits are exact: `Floating.round_of_representable`,
`Floating.toRat_divide_of_representable`.
-/

namespace SymbolicAlgebra

/-- The rational has at most `p` digits in the radix `b`, scaled by a power of the radix. -/
def Representable (b p : ℕ) (x : ℚ) : Prop := ∃ s e : ℤ, s.natAbs < b ^ p ∧ x = s * (b : ℚ) ^ e

/-- The second number lies within the relative error `ε` of the first one. -/
def Approximates (ε x y : ℚ) : Prop := |y - x| ≤ ε * |x|

/-- The numerator of a rational has no more digits than the rational. -/
theorem Representable.num {b p : ℕ} [Radix b] {x : ℚ} (h : Representable b p x) :
    Representable b p x.num := by
  obtain ⟨s, e, hs, hx⟩ := h
  rcases le_or_gt 0 e with he | he
  · obtain ⟨k, rfl⟩ := Int.eq_ofNat_of_zero_le he
    have hint : x = (s * (b : ℤ) ^ k : ℤ) := by
      rw [hx, zpow_natCast]
      push_cast
      rfl
    exact ⟨s, k, hs, by rw [hint, Rat.num_intCast, ← hint, hx]⟩
  · obtain ⟨k, hk⟩ : ∃ k : ℕ, e = -k := ⟨(-e).toNat, by omega⟩
    have hdvd : x.num ∣ s := by
      have hquotient : x = Rat.divInt s ((b : ℤ) ^ k) := by
        rw [hx, hk, zpow_neg, zpow_natCast, Rat.divInt_eq_div, div_eq_mul_inv]
        push_cast
        rfl
      rw [hquotient]
      exact Rat.num_dvd s (pow_ne_zero k (by exact_mod_cast Radix.pos.ne'))
    refine ⟨x.num, 0, ?_, by rw [zpow_zero, mul_one]⟩
    rcases eq_or_ne s 0 with rfl | hs0
    · rw [hx, Int.cast_zero, zero_mul]
      exact hs
    · exact (Nat.le_of_dvd (Int.natAbs_pos.mpr hs0) (Int.natAbs_dvd_natAbs.mpr hdvd)).trans_lt hs

namespace Approximates

variable {ε δ x y z c : ℚ}

theorem refl (hε : 0 ≤ ε) (x : ℚ) : Approximates ε x x := by
  rw [Approximates, sub_self, abs_zero]
  positivity

/-- An approximation is one with a larger error too. -/
theorem mono (h : Approximates ε x y) (hle : ε ≤ δ) : Approximates δ x y :=
  le_trans h (mul_le_mul_of_nonneg_right hle (abs_nonneg x))

/-- The approximation is not much larger than the number. -/
theorem abs_right_le (h : Approximates ε x y) : |y| ≤ (1 + ε) * |x| := by
  have := abs_sub_abs_le_abs_sub y x
  rw [Approximates] at h
  linarith

/-- Relative errors of two approximations in turn. -/
theorem trans (hδ : 0 ≤ δ) (h : Approximates ε x y) (h' : Approximates δ y z) :
    Approximates (ε + δ * (1 + ε)) x z := by
  have hy : δ * |y| ≤ δ * ((1 + ε) * |x|) := mul_le_mul_of_nonneg_left h.abs_right_le hδ
  have hsum : |z - x| ≤ |z - y| + |y - x| := abs_sub_le z y x
  rw [Approximates] at *
  linarith

/-- Both numbers may be scaled. -/
theorem mul_right (h : Approximates ε x y) (c : ℚ) : Approximates ε (x * c) (y * c) := by
  rw [Approximates, ← sub_mul, abs_mul, abs_mul, ← mul_assoc]
  exact mul_le_mul_of_nonneg_right h (abs_nonneg c)

/-- The relative error of a square is about twice the one of its base. -/
theorem square (h : Approximates ε x y) : Approximates (ε * (2 + ε)) (x ^ 2) (y ^ 2) := by
  have hsum : |y + x| ≤ (2 + ε) * |x| := by
    have := abs_add_le y x
    have := h.abs_right_le
    linarith
  rw [Approximates, sq_sub_sq, mul_comm (y + x), abs_mul, abs_pow]
  calc |y - x| * |y + x| ≤ (ε * |x|) * ((2 + ε) * |x|) :=
        mul_le_mul h hsum (abs_nonneg _) ((abs_nonneg _).trans h)
    _ = ε * (2 + ε) * |x| ^ 2 := by ring

/-- An approximation of a number other than zero is not much smaller. -/
theorem le_abs_right (h : Approximates ε x y) : (1 - ε) * |x| ≤ |y| := by
  have := abs_sub_abs_le_abs_sub x y
  rw [abs_sub_comm] at this
  rw [Approximates] at h
  linarith

/-- An approximation of a positive number is positive. -/
theorem pos (hε : ε < 1) (hx : 0 < x) (h : Approximates ε x y) : 0 < y := by
  have hle := neg_abs_le (y - x)
  have hlt : ε * |x| < |x| := mul_lt_of_lt_one_left (abs_pos.mpr hx.ne') hε
  rw [Approximates] at h
  rw [abs_of_pos hx] at h hlt
  linarith

/-- The relative error of a quotient is about the sum of those of its parts. -/
theorem div {x' y' : ℚ} (hε : ε < 1) (hx : x' ≠ 0) (h : Approximates ε x y)
    (h' : Approximates ε x' y') : Approximates (2 * ε / (1 - ε)) (x / x') (y / y') := by
  have hone : 0 < 1 - ε := sub_pos.mpr hε
  have hx0 : 0 < |x'| := abs_pos.mpr hx
  have hy0 : 0 < |y'| := (mul_pos hone hx0).trans_le h'.le_abs_right
  have hcross : |y * x' - y' * x| ≤ 2 * ε * |x| * |x'| := by
    have heq : y * x' - y' * x = (y - x) * x' - x * (y' - x') := by ring
    have h₁ : |y - x| * |x'| ≤ ε * |x| * |x'| := mul_le_mul_of_nonneg_right h (abs_nonneg _)
    have h₂ : |x| * |y' - x'| ≤ |x| * (ε * |x'|) := mul_le_mul_of_nonneg_left h' (abs_nonneg _)
    calc |y * x' - y' * x| ≤ |y - x| * |x'| + |x| * |y' - x'| := by
          rw [heq, ← abs_mul, ← abs_mul]
          exact abs_sub _ _
      _ ≤ 2 * ε * |x| * |x'| := by linarith
  have hnum : 0 ≤ 2 * ε * |x| := nonneg_of_mul_nonneg_left ((abs_nonneg _).trans hcross) hx0
  have hy' : y' ≠ 0 := abs_pos.mp hy0
  rw [Approximates, div_sub_div _ _ hy' hx, abs_div, abs_div, abs_mul, div_mul_div_comm,
    div_le_div_iff₀ (mul_pos hy0 hx0) (mul_pos hone hx0)]
  calc |y * x' - y' * x| * ((1 - ε) * |x'|) ≤ 2 * ε * |x| * |x'| * |y'| :=
        mul_le_mul hcross h'.le_abs_right (mul_pos hone hx0).le (mul_nonneg hnum hx0.le)
    _ = 2 * ε * |x| * (|y'| * |x'|) := by ring

end Approximates

namespace Floating

variable {b : ℕ} [Radix b] {p : ℕ}

/-- The largest relative error of a rounding to `p` digits: half a unit in the last place of the
shortest number with `p` digits. -/
def roundoff (b p : ℕ) : ℚ := 1 / (2 * b ^ (p - 1))

theorem roundoff_pos : 0 < roundoff b p := by
  have := Radix.cast_pos (b := b)
  rw [roundoff]
  positivity

/-- Two digits are enough for an error of a quarter at most. -/
theorem roundoff_le (hp : 2 ≤ p) : roundoff b p ≤ 1 / 4 := by
  have hb : (2 : ℚ) ≤ b := by exact_mod_cast Radix.one_lt
  have hpow : (b : ℚ) ≤ (b : ℚ) ^ (p - 1) := le_self_pow₀ (by linarith) (by omega)
  rw [roundoff]
  exact one_div_le_one_div_of_le (by norm_num) (by linarith)

omit [Radix b] in
/-- Rounding a fraction to the nearest whole number moves it by half a unit at most. -/
theorem natAbs_roundingStep_sub_le {n low unit : ℤ} (h : low.natAbs ≤ unit.natAbs) :
    2 * (roundingStep n low unit * unit.natAbs - low).natAbs ≤ unit.natAbs := by
  rw [roundingStep]
  rcases lt_trichotomy low 0 with h0 | rfl | h0
  · rw [Int.sign_eq_neg_one_of_neg h0]
    split_ifs <;> omega
  · rw [Int.sign_zero]
    split_ifs <;> omega
  · rw [Int.sign_eq_one_of_pos h0]
    split_ifs <;> omega

/-- Rounding to a whole number is accurate where this number has at least `p` digits. -/
theorem approximates_of_roundingStep {n low unit e : ℤ} {v : ℚ} (hunit : unit ≠ 0)
    (hlow : low.natAbs ≤ unit.natAbs) (hv : v * |(unit : ℚ)| = n * |(unit : ℚ)| + low)
    (hdigits : (b : ℚ) ^ (p - 1) ≤ |v|) :
    Approximates (roundoff b p) (v * (b : ℚ) ^ e)
      (ofParts (n + roundingStep n low unit) e : Floating b).toRat := by
  have hu : 0 < |(unit : ℚ)| := abs_pos.mpr (Int.cast_ne_zero.mpr hunit)
  have hstep : 2 * |(roundingStep n low unit : ℚ) * |(unit : ℚ)| - low| ≤ |(unit : ℚ)| := by
    have := natAbs_roundingStep_sub_le (n := n) hlow
    zify at this
    exact_mod_cast this
  have hhalf : |((n + roundingStep n low unit : ℤ) : ℚ) - v| ≤ 1 / 2 := by
    have heq : (((n + roundingStep n low unit : ℤ) : ℚ) - v) * |(unit : ℚ)| =
        roundingStep n low unit * |(unit : ℚ)| - low := by
      push_cast
      linear_combination -hv
    rw [← heq, abs_mul, abs_of_pos hu] at hstep
    exact le_of_mul_le_mul_right (by linarith) hu
  have hone : 1 / 2 ≤ roundoff b p * |v| := by
    have hpos : (0 : ℚ) < (b : ℚ) ^ (p - 1) := pow_pos Radix.cast_pos _
    rw [roundoff, div_mul_eq_mul_div, one_mul, div_le_div_iff₀ two_pos (by positivity)]
    linarith
  rw [toRat_ofParts]
  exact Approximates.mul_right (hhalf.trans hone) _

/-! ## Rounding and division -/

/-- A number with at most `p` digits is not rounded. -/
theorem round_of_representable {x : Floating b} (h : Representable b p x.toRat) :
    round p x = x := by
  obtain ⟨s, e, hs, hx⟩ := h
  exact if_pos (digitCount_le_iff.mpr ((natAbs_significand_le hx).trans_lt hs))

/-- Rounding to `p` digits is accurate. -/
theorem approximates_round (hp : 0 < p) (x : Floating b) :
    Approximates (roundoff b p) x.toRat (round p x).toRat := by
  rw [round]
  split_ifs with hd
  · exact .refl roundoff_pos.le _
  -- The digits behind the first `p` are cut off, and decide how the last one is rounded.
  · set k := x.digits - p with hk
    have hb : (0 : ℚ) < (b : ℚ) ^ k := pow_pos Radix.cast_pos k
    have hunit : ((radixPower b k : ℤ) : ℚ) = (b : ℚ) ^ k := by
      rw [radixPower_eq]
      push_cast
      rfl
    have hunit0 : radixPower b k ≠ 0 := by
      rw [← Int.cast_ne_zero (α := ℚ), hunit]
      exact hb.ne'
    have hvalue : x.toRat = x.significand / (b : ℚ) ^ k * (b : ℚ) ^ (x.exponent + (k : ℕ)) := by
      rw [toRat_eq, zpow_add₀ Radix.cast_ne_zero, zpow_natCast]
      field_simp
    rw [hvalue]
    refine approximates_of_roundingStep hunit0 ?_ ?_ ?_
    · rw [Int.natAbs_tmod]
      exact (Nat.mod_lt _ (Int.natAbs_pos.mpr hunit0)).le
    · have := Int.mul_tdiv_add_tmod x.significand (radixPower b k)
      rw [hunit, abs_of_pos hb, div_mul_cancel₀ _ hb.ne', ← hunit, mul_comm]
      exact_mod_cast this.symm
    · have hs : x.significand.natAbs ≠ 0 := by
        intro h0
        rw [digits, h0] at hd
        exact hd (digitCount_le_iff.mpr (pow_pos Radix.pos p))
      -- All `p` digits are there, so that a unit in the last place is small beside the number.
      have hlong : b ^ (p - 1 + k) ≤ x.significand.natAbs := by
        have := pow_digitCount_le (b := b) hs
        rwa [show digitCount b x.significand.natAbs - 1 = p - 1 + k by
          change x.digits - 1 = _
          omega] at this
      rw [abs_div, abs_of_pos hb, le_div_iff₀ hb, ← pow_add, ← Int.cast_abs,
        ← Int.natCast_natAbs]
      exact_mod_cast hlong

/-- A dividend shorter than the divisor is scaled until it is longer by `p - 1` digits. -/
theorem pow_mul_le_of_lt (hp : 0 < p) {n d : ℕ} (hn : n ≠ 0) (h : n < d) :
    b ^ (p - 1) * d ≤ n * b ^ (digitCount b d + p - digitCount b n) := by
  have hle : digitCount b n ≤ digitCount b d :=
    digitCount_le_iff.mpr (h.trans (lt_pow_digitCount _))
  have hpos : 0 < digitCount b n := digitCount_pos hn
  calc b ^ (p - 1) * d ≤ b ^ (p - 1) * b ^ digitCount b d :=
        Nat.mul_le_mul_left _ (lt_pow_digitCount d).le
    _ = b ^ (digitCount b n - 1) * b ^ (digitCount b d + p - digitCount b n) := by
        rw [← pow_add, ← pow_add]
        congr 1
        omega
    _ ≤ n * b ^ (digitCount b d + p - digitCount b n) :=
        Nat.mul_le_mul_right _ (pow_digitCount_le hn)

/-- The whole quotient is scaled until it has `p` digits. -/
theorem pow_mul_le_of_div_ne_zero {n d : ℕ} (hq : n / d ≠ 0) :
    b ^ (p - 1) * d ≤ n * b ^ (p - digitCount b (n / d)) := by
  have hpos : 0 < digitCount b (n / d) := digitCount_pos hq
  have hlong : b ^ (p - 1) ≤ n / d * b ^ (p - digitCount b (n / d)) :=
    calc b ^ (p - 1) ≤ b ^ (digitCount b (n / d) - 1) * b ^ (p - digitCount b (n / d)) := by
          rw [← pow_add]
          exact Nat.pow_le_pow_right Radix.pos (by omega)
      _ ≤ n / d * b ^ (p - digitCount b (n / d)) := Nat.mul_le_mul_right _ (pow_digitCount_le hq)
  calc b ^ (p - 1) * d ≤ n / d * b ^ (p - digitCount b (n / d)) * d :=
        Nat.mul_le_mul_right _ hlong
    _ = n / d * d * b ^ (p - digitCount b (n / d)) := by ring
    _ ≤ n * b ^ (p - digitCount b (n / d)) := Nat.mul_le_mul_right _ (Nat.div_mul_le_self n d)

/-- What a quotient that is not exact is rounded from: a whole number `m` with a remainder, scaled
so that it has at least `p` digits. -/
theorem divide_cases (hp : 0 < p) (x : Floating b) {y : Floating b} (hy : y.significand ≠ 0) :
    (divide p x y).toRat = x.toRat / y.toRat ∨
      ∃ (k : ℕ) (m r : ℤ),
        divide p x y = ofParts (m + divide.quotientStep m r y.significand)
          (x.exponent - y.exponent - k) ∧
        m * y.significand + r = x.significand * (b : ℤ) ^ k ∧
        r.natAbs < y.significand.natAbs ∧
        b ^ (p - 1) * y.significand.natAbs ≤ x.significand.natAbs * b ^ k := by
  have hb : (b : ℚ) ≠ 0 := Radix.cast_ne_zero
  set n := x.significand
  set d := y.significand
  have hd : 0 < d.natAbs := Int.natAbs_pos.mpr hy
  have hdiv : n.tdiv d * d + n.tmod d = n := by
    rw [mul_comm]
    exact Int.mul_tdiv_add_tmod n d
  have hrem : ∀ t : ℤ, (t.tmod d).natAbs < d.natAbs := by
    intro t
    rw [Int.natAbs_tmod]
    exact Nat.mod_lt _ hd
  rw [divide]
  simp only [radixPower_eq]
  split_ifs with hr hq
  · left
    have hn : n = n.tdiv d * d := by
      rw [hr, add_zero] at hdiv
      exact hdiv.symm
    have hd' : (d : ℚ) ≠ 0 := Int.cast_ne_zero.mpr hy
    rw [toRat_ofParts, toRat_eq, toRat_eq, zpow_sub₀ hb]
    change _ = ((n : ℤ) : ℚ) * _ / ((d : ℤ) * _)
    conv_rhs => rw [hn]
    push_cast
    field_simp
    rfl
  · right
    -- The dividend is shorter than the divisor, so that it is the remainder.
    change n.tdiv d = 0 at hq
    rw [hq, zero_mul, zero_add] at hdiv
    refine ⟨_, _, _, rfl, ?_, hrem _, ?_⟩
    · rw [mul_comm, Int.mul_tdiv_add_tmod, hdiv]
    · have hlt : n.natAbs < d.natAbs := by
        have := hrem n
        rwa [hdiv] at this
      change _ ≤ n.natAbs * b ^ (digitCount b d.natAbs + p - digitCount b (n.tmod d).natAbs)
      rw [hdiv]
      exact pow_mul_le_of_lt hp (Int.natAbs_ne_zero.mpr (hdiv ▸ hr)) hlt
  · right
    change n.tdiv d ≠ 0 at hq
    refine ⟨p - digitCount b (n.tdiv d).natAbs, _, _, rfl, ?_, hrem _, ?_⟩
    · have hscaled := Int.mul_tdiv_add_tmod
        (n.tmod d * (b : ℤ) ^ (p - digitCount b (n.tdiv d).natAbs)) d
      linear_combination hscaled + (b : ℤ) ^ (p - digitCount b (n.tdiv d).natAbs) * hdiv
    · have habs : (n.tdiv d).natAbs = n.natAbs / d.natAbs := Int.natAbs_tdiv n d
      rw [habs]
      exact pow_mul_le_of_div_ne_zero (habs ▸ Int.natAbs_ne_zero.mpr hq)

/-- A quotient of values is the quotient of the significands, the first one scaled, at a smaller
exponent. -/
theorem toRat_div_toRat (k : ℕ) {x y : Floating b} (hy : y.significand ≠ 0) :
    x.toRat / y.toRat = x.significand * (b : ℚ) ^ k / y.significand *
      (b : ℚ) ^ (x.exponent - y.exponent - k) := by
  have hb : (b : ℚ) ≠ 0 := Radix.cast_ne_zero
  have hd : (y.significand : ℚ) ≠ 0 := Int.cast_ne_zero.mpr hy
  rw [toRat_eq, toRat_eq, zpow_sub₀ hb, zpow_sub₀ hb, zpow_natCast]
  field_simp

/-- The bound of `divide_cases` in the rationals: the scaled quotient has at least `p` digits. -/
theorem pow_le_abs_quotient {n d : ℤ} {k : ℕ} (hd : d ≠ 0)
    (h : b ^ (p - 1) * d.natAbs ≤ n.natAbs * b ^ k) :
    (b : ℚ) ^ (p - 1) ≤ |(n : ℚ) * (b : ℚ) ^ k / d| := by
  rw [abs_div, le_div_iff₀ (abs_pos.mpr (Int.cast_ne_zero.mpr hd)), abs_mul, abs_pow,
    abs_of_pos Radix.cast_pos, ← Int.cast_abs, ← Int.cast_abs, ← Int.natCast_natAbs,
    ← Int.natCast_natAbs]
  exact_mod_cast h

/-- Division with `p` digits is accurate. -/
theorem approximates_divide (hp : 0 < p) (x : Floating b) {y : Floating b}
    (hy : y.significand ≠ 0) :
    Approximates (roundoff b p) (x.toRat / y.toRat) (divide p x y).toRat := by
  rcases divide_cases hp x hy with h | ⟨k, m, r, h, hm, hr, hdigits⟩
  · rw [h]
    exact .refl roundoff_pos.le _
  · have hd : (y.significand : ℚ) ≠ 0 := Int.cast_ne_zero.mpr hy
    rw [h, toRat_div_toRat k hy]
    refine approximates_of_roundingStep hy ?_ ?_ (pow_le_abs_quotient hy hdigits)
    · rw [Int.natAbs_mul, Int.natAbs_sign_of_ne_zero hy, mul_one]
      exact hr.le
    · have habs : |(y.significand : ℚ)| = y.significand * y.significand.sign := by
        rw [← Int.cast_abs, ← Int.natCast_natAbs]
        exact_mod_cast (Int.mul_sign_self y.significand).symm
      have hm' : (m * y.significand + r : ℚ) = x.significand * (b : ℚ) ^ k := by exact_mod_cast hm
      rw [← hm', habs, ← mul_assoc, div_mul_cancel₀ _ hd]
      push_cast
      ring

/-- At most `p` digits that make a number of `p` digits or more before the point are not scaled
down. -/
theorem nonneg_of_pow_le_abs (hp : 0 < p) {s i : ℤ} (hs : s.natAbs < b ^ p)
    (h : (b : ℚ) ^ (p - 1) ≤ |(s : ℚ) * (b : ℚ) ^ i|) : 0 ≤ i := by
  have hb : (0 : ℚ) < b := Radix.cast_pos
  by_contra hneg
  have hle : (b : ℚ) ^ i ≤ (b : ℚ)⁻¹ := by
    rw [← zpow_neg_one]
    exact zpow_le_zpow_right₀ (by exact_mod_cast Radix.pos) (by omega)
  have hs' : |(s : ℚ)| < (b : ℚ) ^ p := by
    rw [← Int.cast_abs, ← Int.natCast_natAbs]
    exact_mod_cast hs
  have hlt : |(s : ℚ) * (b : ℚ) ^ i| < (b : ℚ) ^ (p - 1) :=
    calc |(s : ℚ) * (b : ℚ) ^ i| = |(s : ℚ)| * (b : ℚ) ^ i := by
          rw [abs_mul, abs_of_pos (zpow_pos hb i)]
      _ ≤ |(s : ℚ)| * (b : ℚ)⁻¹ := mul_le_mul_of_nonneg_left hle (abs_nonneg _)
      _ < (b : ℚ) ^ p * (b : ℚ)⁻¹ := mul_lt_mul_of_pos_right hs' (inv_pos.mpr hb)
      _ = (b : ℚ) ^ (p - 1) := by rw [← pow_sub_one_mul hp.ne', mul_inv_cancel_right₀ hb.ne']
  exact h.not_gt hlt

/-- A quotient with at most `p` digits is not rounded. -/
theorem toRat_divide_of_representable (hp : 0 < p) {x y : Floating b} (hy : y.significand ≠ 0)
    (h : Representable b p (x.toRat / y.toRat)) : (divide p x y).toRat = x.toRat / y.toRat := by
  obtain ⟨s, e, hs, h⟩ := h
  rcases divide_cases hp x hy with hexact | ⟨k, m, r, hdiv, hm, hr, hdigits⟩
  · exact hexact
  · have hb : (b : ℚ) ≠ 0 := Radix.cast_ne_zero
    have hd : (y.significand : ℚ) ≠ 0 := Int.cast_ne_zero.mpr hy
    set f := x.exponent - y.exponent - k with hf
    have hscaled : (x.significand : ℚ) * (b : ℚ) ^ k / y.significand = s * (b : ℚ) ^ (e - f) := by
      have hvalue := (toRat_div_toRat k hy).symm.trans h
      rw [← hf] at hvalue
      rw [zpow_sub₀ hb, ← mul_div_assoc, ← hvalue, mul_div_cancel_right₀ _ (zpow_ne_zero f hb)]
    -- The scaled quotient has `p` digits, so that it is whole, and there is no remainder.
    obtain ⟨j, hj⟩ := Int.eq_ofNat_of_zero_le
      (nonneg_of_pow_le_abs hp hs (hscaled ▸ pow_le_abs_quotient hy hdigits))
    have hint : x.significand * (b : ℤ) ^ k = s * (b : ℤ) ^ j * y.significand := by
      rw [hj, zpow_natCast, div_eq_iff hd] at hscaled
      exact_mod_cast hscaled
    have hr0 : r = 0 := by
      refine Int.eq_zero_of_dvd_of_natAbs_lt_natAbs ⟨s * (b : ℤ) ^ j - m, ?_⟩ hr
      linear_combination hm + hint
    have hm' : m = s * (b : ℤ) ^ j := by
      rw [hr0, add_zero, hint] at hm
      exact mul_right_cancel₀ hy hm
    have hstep : divide.quotientStep m r y.significand = 0 := by
      rw [divide.quotientStep, hr0, zero_mul, roundingStep, if_pos]
      simpa using hy
    rw [h, hdiv, hstep, add_zero, toRat_ofParts, hm', show e = f + j by omega, zpow_add₀ hb,
      zpow_natCast]
    push_cast
    ring

/-! ## Square roots -/

/-- The whole square root rounded to nearest. -/
theorem nearest_sqrt_spec {v root : ℕ} (hv : 0 < v)
    (hroot : root = if v.sqrt < v - v.sqrt * v.sqrt then v.sqrt + 1 else v.sqrt) :
    v.sqrt ≤ root ∧ root * root < v + root ∧ v ≤ root * root + root := by
  have hle : v.sqrt * v.sqrt ≤ v := Nat.sqrt_le v
  have hlt : v < (v.sqrt + 1) * (v.sqrt + 1) := Nat.lt_succ_sqrt v
  have hpos : 0 < v.sqrt := Nat.sqrt_pos.mpr hv
  split_ifs at hroot with h
  · subst hroot
    refine ⟨Nat.le_succ _, ?_, ?_⟩ <;> nlinarith only [hle, hlt, h, Nat.sub_add_cancel hle]
  · subst hroot
    refine ⟨le_rfl, ?_, ?_⟩ <;> omega

/-- The significand scaled by a power of the radix and cut to a whole number. -/
theorem scaled_spec (n : ℕ) (k : ℤ) {v : ℕ}
    (hv : v = if 0 ≤ k then n * Nat.pow b k.toNat else n / Nat.pow b (-k).toNat) :
    (v : ℚ) ≤ n * (b : ℚ) ^ k ∧ n * (b : ℚ) ^ k < v + 1 := by
  split_ifs at hv with h
  · obtain ⟨j, rfl⟩ := Int.eq_ofNat_of_zero_le h
    have heq : (v : ℚ) = n * (b : ℚ) ^ j := by
      rw [hv, Int.toNat_natCast, Nat.pow_eq]
      push_cast
      rfl
    rw [zpow_natCast, heq]
    exact ⟨le_rfl, lt_add_one _⟩
  · obtain ⟨j, rfl⟩ : ∃ j : ℕ, k = -j := ⟨(-k).toNat, by omega⟩
    rw [neg_neg, Int.toNat_natCast, Nat.pow_eq] at hv
    have hpow : 0 < b ^ j := pow_pos Radix.pos j
    have hpow' : (0 : ℚ) < (b : ℚ) ^ j := pow_pos Radix.cast_pos j
    rw [zpow_neg, zpow_natCast, ← div_eq_mul_inv, le_div_iff₀ hpow', div_lt_iff₀ hpow']
    subst hv
    have hlt : n < (n / b ^ j + 1) * b ^ j := by
      rw [mul_comm]
      exact Nat.lt_mul_div_succ n hpow
    exact ⟨by exact_mod_cast Nat.div_mul_le_self n (b ^ j), by exact_mod_cast hlt⟩

/-- A significand that is scaled to `2 p - 1` digits is no smaller than the square of a number with
`p` digits. -/
theorem sq_pow_le_scaled {n : ℕ} {k : ℤ} (hn : n ≠ 0)
    (hk : ((2 * p - 2 : ℕ) : ℤ) ≤ ((digitCount b n - 1 : ℕ) : ℤ) + k) :
    ((b ^ (p - 1) * b ^ (p - 1) : ℕ) : ℚ) ≤ n * (b : ℚ) ^ k := by
  have hb : (0 : ℚ) < b := Radix.cast_pos
  have hdigits : ((b ^ (digitCount b n - 1) : ℕ) : ℚ) ≤ n := by exact_mod_cast pow_digitCount_le hn
  calc ((b ^ (p - 1) * b ^ (p - 1) : ℕ) : ℚ) = (b : ℚ) ^ ((2 * p - 2 : ℕ) : ℤ) := by
        rw [← pow_add, zpow_natCast, Nat.cast_pow]
        congr 1
        omega
    _ ≤ (b : ℚ) ^ (((digitCount b n - 1 : ℕ) : ℤ) + k) :=
        zpow_le_zpow_right₀ (by exact_mod_cast Radix.pos) hk
    _ = ((b ^ (digitCount b n - 1) : ℕ) : ℚ) * (b : ℚ) ^ k := by
        rw [zpow_add₀ hb.ne', zpow_natCast, Nat.cast_pow]
    _ ≤ n * (b : ℚ) ^ k := mul_le_mul_of_nonneg_right hdigits (zpow_pos hb k).le

/-- The square of the nearest whole root of a number `v`, which may be cut from a fraction, has a
small relative error when the root is at least `n`. -/
theorem approximates_sq_nearest_sqrt {v root n : ℕ} {x : ℚ} (hn : 0 < n) (hlong : n * n ≤ v)
    (hroot : root = if v.sqrt < v - v.sqrt * v.sqrt then v.sqrt + 1 else v.sqrt)
    (hle : (v : ℚ) ≤ x) (hlt : x < v + 1) : Approximates (2 / n) x ((root : ℚ) ^ 2) := by
  have hv : 0 < v := (Nat.mul_pos hn hn).trans_le hlong
  obtain ⟨hge, hup, hdown⟩ := nearest_sqrt_spec hv hroot
  have hnroot : n ≤ root := (Nat.le_sqrt.mpr hlong).trans hge
  -- The root is off by half a unit, so that its square is off by about the root.
  have hclose : |(root : ℚ) ^ 2 - x| ≤ root + 1 := by
    have hup' : (root * root : ℚ) ≤ v + root := by exact_mod_cast hup.le
    have hdown' : (v : ℚ) ≤ root * root + root := by exact_mod_cast hdown
    rw [abs_le, pow_two]
    constructor <;> linarith
  have hsmall : (root + 1) * n ≤ 2 * v := by
    have hmul : (root + 1) * n ≤ (root + 1) * root := Nat.mul_le_mul_left _ hnroot
    have hsq : root * root + root ≤ 2 * v := by
      rcases Nat.lt_or_ge root 3 with hr | hr
      · interval_cases root <;> omega
      · nlinarith only [hup, hr]
    linarith
  have hsmall' : ((root : ℚ) + 1) * n ≤ 2 * v := by exact_mod_cast hsmall
  have hx : 0 < x := (Nat.cast_pos.mpr hv).trans_le hle
  rw [Approximates, abs_of_pos hx, div_mul_eq_mul_div, le_div_iff₀ (Nat.cast_pos.mpr hn)]
  calc |(root : ℚ) ^ 2 - x| * n ≤ (root + 1) * n := by gcongr
    _ ≤ 2 * x := by linarith

/-- What a root is rounded from: a number whose square is near the radicand. -/
theorem squareRoot_cases (hp : 0 < p) {x : Floating b} (hx : 0 < x.significand) :
    ∃ y : Floating b, squareRoot p x = round p y ∧
      Approximates (4 * roundoff b p) x.toRat (y.toRat ^ 2) := by
  have hb : (0 : ℚ) < b := Radix.cast_pos
  set n := x.significand.natAbs with hn
  have hn0 : n ≠ 0 := Int.natAbs_ne_zero.mpr hx.ne'
  have hsig : (x.significand : ℚ) = n := by
    rw [hn, Nat.cast_natAbs, abs_of_pos hx]
  set k : ℤ := 2 * p - (x.digits % 2 : ℕ) + x.exponent % 2 - x.digits with hk
  set v := if 0 ≤ k then n * Nat.pow b k.toNat else n / Nat.pow b (-k).toNat with hv
  set root := if v.sqrt < v - v.sqrt * v.sqrt then v.sqrt + 1 else v.sqrt with hroot
  refine ⟨ofParts (root : ℤ) ((x.exponent - k) / 2), by rw [squareRoot, if_neg hx.ne'], ?_⟩
  obtain ⟨hle, hlt⟩ := scaled_spec (b := b) n k hv
  set B := b ^ (p - 1) with hB
  have hBpos : 0 < B := pow_pos Radix.pos _
  -- The scaled significand has at least `2 p - 1` digits.
  have hlong : B * B ≤ v := by
    have hpos : 0 < x.digits := digitCount_pos hn0
    have hpow : ((B * B : ℕ) : ℚ) ≤ n * (b : ℚ) ^ k :=
      sq_pow_le_scaled hn0 (by change _ ≤ ((x.digits - 1 : ℕ) : ℤ) + k; omega)
    have hsucc : ((B * B : ℕ) : ℚ) < (v + 1 : ℕ) := by
      push_cast at hpow ⊢
      linarith
    exact Nat.lt_succ_iff.mp (Nat.cast_lt.mp hsucc)
  have hnear := (approximates_sq_nearest_sqrt hBpos hlong hroot hle hlt).mul_right
    ((b : ℚ) ^ (x.exponent - k))
  have hvalue : (n : ℚ) * (b : ℚ) ^ k * (b : ℚ) ^ (x.exponent - k) = x.toRat := by
    rw [mul_assoc, ← zpow_add₀ hb.ne', add_sub_cancel, ← hsig, ← toRat_eq]
  have hsquare : (root : ℚ) ^ 2 * (b : ℚ) ^ (x.exponent - k) =
      (ofParts (root : ℤ) ((x.exponent - k) / 2) : Floating b).toRat ^ 2 := by
    have heven : x.exponent - k = (x.exponent - k) / 2 * 2 := by omega
    rw [toRat_ofParts, mul_pow, ← zpow_ofNat ((b : ℚ) ^ _) 2, ← zpow_mul]
    conv_lhs => rw [heven]
    rfl
  have hroundoff : 2 / (B : ℚ) = 4 * roundoff b p := by
    have : (b : ℚ) ^ (p - 1) ≠ 0 := pow_ne_zero _ hb.ne'
    rw [roundoff, hB, Nat.cast_pow]
    field_simp
    norm_num
  rwa [hvalue, hsquare, hroundoff] at hnear

/-- The square of the computed root is near the radicand. -/
theorem approximates_sq_squareRoot (hp : 2 ≤ p) {x : Floating b} (hx : 0 < x.significand) :
    Approximates (9 * roundoff b p) x.toRat ((squareRoot p x).toRat ^ 2) := by
  obtain ⟨y, hroot, hy⟩ := squareRoot_cases (by omega : 0 < p) hx
  have hround := (approximates_round (by omega : 0 < p) y).square
  have hpos := roundoff_pos (b := b) (p := p)
  have hquarter : roundoff b p ≤ 1 / 4 := roundoff_le hp
  have hfactor : (2 + roundoff b p) * (1 + 4 * roundoff b p) ≤ 5 := by nlinarith
  rw [hroot]
  refine (hy.trans (by positivity) hround).mono ?_
  linarith [mul_le_mul_of_nonneg_left hfactor hpos.le]

end Floating

end SymbolicAlgebra
