import Mathlib.Algebra.Order.Field.Basic
import Mathlib.Algebra.Order.Field.Power
import Mathlib.Algebra.Order.Ring.Cast
import Mathlib.Data.Nat.Digits.Lemmas
import Mathlib.Data.Rat.Cast.Order
import Mathlib.Order.Compare
import Mathlib.Tactic.Ring
import SymbolicAlgebra.Arithmetic.Decimal

/-!
# Values of floating numbers

A floating number stands for a rational, `Floating.toRat`, and its representation is determined by
this value:

* `Floating.toRat_ofParts` says that canonical form does not change the value;
* `Floating.order_eq` says that the order of floating numbers is the order of their values;
* `Floating.toInt?_eq_some_iff` says that a number is recognized as whole exactly when its value is.
-/

namespace SymbolicAlgebra

variable {b : ℕ} [Radix b]

/-- A radix is positive. -/
theorem Radix.pos : 0 < b := zero_lt_one.trans Radix.one_lt

theorem Radix.cast_pos : (0 : ℚ) < b := Nat.cast_pos.mpr Radix.pos

/-- A radix may be divided by. -/
theorem Radix.cast_ne_zero : (b : ℚ) ≠ 0 := Radix.cast_pos.ne'

omit [Radix b] in
/-- The power of a radix is computed as an integer. -/
theorem radixPower_eq (k : ℕ) : radixPower b k = (b : ℤ) ^ k := by
  simp [radixPower]

/-! ## Digits -/

/-- Counting digits gives the length of the list of digits. -/
theorem digitCount_eq_length (n : ℕ) : digitCount b n = (Nat.digits b n).length := by
  fun_induction digitCount b n with
  | case1 => rw [Nat.digits_zero, List.length_nil]
  | case2 n hn ih =>
    rw [Nat.digits_def' Radix.one_lt (Nat.pos_of_ne_zero hn), List.length_cons, ih]

/-- A number has at most as many digits as the first power of the radix above it has zeros. -/
theorem digitCount_le_iff {n p : ℕ} : digitCount b n ≤ p ↔ n < b ^ p := by
  rw [digitCount_eq_length, Nat.digits_length_le_iff Radix.one_lt]

/-- A number has more digits than the powers of the radix up to it have zeros. -/
theorem lt_digitCount_iff {n p : ℕ} : p < digitCount b n ↔ b ^ p ≤ n := by
  rw [digitCount_eq_length, Nat.lt_digits_length_iff Radix.one_lt]

/-- A number is below the power of the radix for its digits. -/
theorem lt_pow_digitCount (n : ℕ) : n < b ^ digitCount b n := digitCount_le_iff.mp le_rfl

/-- A number other than zero has a digit. -/
theorem digitCount_pos {n : ℕ} (hn : n ≠ 0) : 0 < digitCount b n :=
  lt_digitCount_iff.mpr (by rw [pow_zero]; exact Nat.one_le_iff_ne_zero.mpr hn)

/-- A number is not below the power of the radix for its digits but one. -/
theorem pow_digitCount_le {n : ℕ} (hn : n ≠ 0) : b ^ (digitCount b n - 1) ≤ n :=
  lt_digitCount_iff.mp (Nat.sub_one_lt (digitCount_pos hn).ne')

namespace Floating

/-! ## Values -/

omit [Radix b] in
/-- The value of a floating-point number. -/
theorem toRat_eq (x : Floating b) : x.toRat = x.significand * (b : ℚ) ^ x.exponent := by
  rw [toRat]
  split_ifs with h
  · obtain ⟨k, hk⟩ := Int.eq_ofNat_of_zero_le h
    rw [hk, Int.toNat_natCast, radixPower_eq, zpow_natCast]
    push_cast
    rfl
  · obtain ⟨k, hk⟩ : ∃ k : ℕ, x.exponent = -k := ⟨(-x.exponent).toNat, by omega⟩
    rw [hk, neg_neg, Int.toNat_natCast, radixPower_eq, Rat.divInt_eq_div, zpow_neg, zpow_natCast]
    push_cast
    rfl

omit [Radix b] in
/-- Zero has the value zero. -/
@[simp]
theorem toRat_zero : (zero : Floating b).toRat = 0 := by
  rw [toRat_eq, zero, Int.cast_zero, zero_mul]

/-- Trailing zeros may stand in the significand or in the exponent. -/
theorem strip_value (s e : ℤ) :
    ((strip b s e).1 : ℚ) * (b : ℚ) ^ (strip b s e).2 = s * (b : ℚ) ^ e := by
  fun_induction strip b s e with
  | case1 s e h ih =>
    obtain ⟨t, rfl⟩ := Int.dvd_of_emod_eq_zero h.1
    have hb : (b : ℤ) ≠ 0 := by exact_mod_cast Radix.pos.ne'
    rw [ih, Int.mul_ediv_cancel_left t hb, zpow_add_one₀ Radix.cast_ne_zero]
    push_cast
    ring
  | case2 => rfl

/-- The parts of a number determine its value before they are brought into canonical form. -/
@[simp]
theorem toRat_ofParts (s e : ℤ) : (ofParts s e : Floating b).toRat = s * (b : ℚ) ^ e := by
  rw [← strip_value, ofParts]
  split_ifs with h
  · rw [h, toRat_zero, Int.cast_zero, zero_mul]
  · rw [toRat_eq]

/-- The significand is the shortest one: every other has trailing zeros. -/
theorem natAbs_significand_le {x : Floating b} {s e : ℤ} (h : x.toRat = s * (b : ℚ) ^ e) :
    x.significand.natAbs ≤ s.natAbs := by
  have hb : (b : ℚ) ^ e ≠ 0 := zpow_ne_zero e Radix.cast_ne_zero
  rw [toRat_eq] at h
  rcases le_or_gt e x.exponent with he | he
  · obtain ⟨k, hk⟩ : ∃ k : ℕ, x.exponent = e + k := ⟨(x.exponent - e).toNat, by omega⟩
    rw [hk, zpow_add₀ Radix.cast_ne_zero, zpow_natCast, mul_left_comm, mul_comm] at h
    have hs : x.significand * (b : ℤ) ^ k = s := by exact_mod_cast mul_right_cancel₀ hb h
    rw [← hs, Int.natAbs_mul, Int.natAbs_pow, Int.natAbs_natCast]
    exact Nat.le_mul_of_pos_right _ (pow_pos Radix.pos k)
  · obtain ⟨k, hk⟩ : ∃ k : ℕ, e = x.exponent + (k + 1 : ℕ) := ⟨(e - x.exponent).toNat - 1, by omega⟩
    rw [hk, zpow_add₀ Radix.cast_ne_zero, zpow_natCast, mul_left_comm, mul_comm] at h
    have hs : x.significand = s * b ^ k * b := by
      rw [mul_assoc, ← pow_succ]
      exact_mod_cast mul_left_cancel₀ (zpow_ne_zero x.exponent Radix.cast_ne_zero) h
    rcases x.canonical with hc | ⟨h0, -⟩
    · exact absurd (by rw [hs, Int.mul_emod_left]) hc
    · rw [h0]
      exact Nat.zero_le _

/-- Only the significand zero makes a value zero. -/
theorem toRat_eq_zero_iff {x : Floating b} : x.toRat = 0 ↔ x.significand = 0 := by
  rw [toRat_eq, mul_eq_zero, Int.cast_eq_zero, or_iff_left (zpow_ne_zero _ Radix.cast_ne_zero)]

/-- The significand has the sign of the value. -/
theorem toRat_pos_iff {x : Floating b} : 0 < x.toRat ↔ 0 < x.significand := by
  rw [toRat_eq, mul_pos_iff_of_pos_right (zpow_pos Radix.cast_pos _), Int.cast_pos]

/-! ## Order and whole numbers -/

/-- Floating numbers are compared by their values. -/
theorem order_eq (x y : Floating b) : x.order y = cmp x.toRat y.toRat := by
  obtain ⟨e, he⟩ : ∃ e, e = min x.exponent y.exponent := ⟨_, rfl⟩
  have hscaled : ∀ z : Floating b, e ≤ z.exponent →
      z.toRat = (z.significand * radixPower b (z.exponent - e).toNat : ℤ) * (b : ℚ) ^ e := by
    intro z hz
    obtain ⟨k, hk⟩ : ∃ k : ℕ, z.exponent = e + k := ⟨(z.exponent - e).toNat, by omega⟩
    rw [toRat_eq, hk, add_sub_cancel_left, Int.toNat_natCast, radixPower_eq,
      zpow_add₀ Radix.cast_ne_zero, zpow_natCast]
    push_cast
    ring
  rw [order, ← he, hscaled x (he ▸ min_le_left _ _), hscaled y (he ▸ min_le_right _ _),
    cmp_mul_pos_right (zpow_pos Radix.cast_pos e), Int.cast_strictMono.cmp_map_eq, cmp_eq_compare]

/-- A number of negative exponent is not whole: its significand has no trailing zero. -/
theorem toInt?_eq_some_iff {x : Floating b} {n : ℤ} : x.toInt? = some n ↔ x.toRat = n := by
  rw [toInt?, toRat_eq]
  split_ifs with h
  · obtain ⟨k, hk⟩ := Int.eq_ofNat_of_zero_le h
    rw [hk, Int.toNat_natCast, radixPower_eq, Option.some.injEq, zpow_natCast]
    exact_mod_cast Iff.rfl
  · simp only [false_iff]
    intro hn
    obtain ⟨k, hk⟩ : ∃ k : ℕ, x.exponent = -(k + 1 : ℕ) := ⟨(-x.exponent).toNat - 1, by omega⟩
    rw [hk, zpow_neg, zpow_natCast, ← div_eq_mul_inv,
      div_eq_iff (pow_ne_zero _ Radix.cast_ne_zero)] at hn
    have hs : x.significand = (n * b ^ k) * b := by
      rw [mul_assoc, ← pow_succ]
      exact_mod_cast hn
    rcases x.canonical with hc | ⟨-, hc⟩
    · exact hc (by rw [hs, Int.mul_emod_left])
    · omega

end Floating

end SymbolicAlgebra
