import Mathlib.Algebra.Order.Field.Basic
import Mathlib.Algebra.Order.Ring.Abs
import Mathlib.Order.Compare
import Mathlib.Tactic.FieldSimp
import Mathlib.Tactic.Linarith
import Mathlib.Tactic.Ring
import SymbolicAlgebra.Arithmetic.Number

/-!
# Exact numbers

An integer or a rational of the tower has a rational value, `Number.toRat?`. On such numbers the
operations of the tower are those of the rationals, and each result comes out as `Number.ofRat` of
its value: at the narrowest level, so that equal values are equal as data.

* `Number.add_eq`, `Number.mul_eq`, `Number.div_eq` and `Number.pow_eq` compute the operations.
* `Number.compare?_eq` says that the order of the tower is the order of the values.
* `Number.sqrt_mul_self` says that the root of the square of a rational is exact.
-/

namespace SymbolicAlgebra

/-- Powers of integers are computed through their absolute value. -/
theorem integerPower_eq_pow (a : ℤ) (k : ℕ) : integerPower a k = a ^ k := by
  have habs : ((Nat.pow a.natAbs k : ℕ) : ℤ) = |a| ^ k := by
    rw [Nat.pow_eq, Nat.cast_pow, Int.natCast_natAbs]
  simp only [integerPower, habs]
  rcases Nat.even_or_odd k with hk | hk
  · rw [if_neg (by have := Nat.even_iff.mp hk; omega), hk.pow_abs]
  · by_cases ha : a < 0
    · rw [if_pos ⟨ha, Nat.odd_iff.mp hk⟩, abs_of_neg ha, hk.neg_pow, neg_neg]
    · rw [if_neg (fun h => ha h.1), abs_of_nonneg (by omega)]

/-- A power with a whole exponent has a value unless it is a negative power of zero. -/
theorem rationalPower?_eq_some {r : ℚ} {k : ℤ} (h : r = 0 → 0 ≤ k) :
    rationalPower? r k = some (r ^ k) := by
  have hr : r ^ k.natAbs = ((r.num ^ k.natAbs : ℤ) : ℚ) / ((r.den ^ k.natAbs : ℕ) : ℚ) := by
    rw [Int.cast_pow, Nat.cast_pow, ← div_pow, Rat.num_div_den]
  rw [rationalPower?]
  simp only [integerPower_eq_pow, Nat.pow_eq, Rat.divInt_eq_div]
  by_cases hk : 0 ≤ k
  · obtain ⟨n, rfl⟩ := Int.eq_ofNat_of_zero_le hk
    rw [if_pos hk, zpow_natCast]
    simpa using hr.symm
  · -- A negative exponent turns the fraction over, for which its numerator must not be zero.
    have hne : r ≠ 0 := fun h0 => hk (h h0)
    obtain ⟨n, rfl⟩ : ∃ n : ℕ, k = -n := ⟨k.natAbs, by omega⟩
    have hnum : ¬ r.num ^ (-(n : ℤ)).natAbs = 0 := pow_ne_zero _ (Rat.num_ne_zero.mpr hne)
    rw [if_neg hk, if_neg hnum, zpow_neg, zpow_natCast]
    simp only [Int.natAbs_neg, Int.natAbs_natCast] at hr ⊢
    rw [hr, inv_div]
    norm_cast

/-- The order of rationals, computed by cross multiplication. -/
theorem compareRationals_eq_cmp (p q : ℚ) : compareRationals p q = cmp p q := by
  unfold compareRationals
  rcases lt_trichotomy p q with h | h | h
  · rw [(cmp_eq_lt_iff p q).mpr h, compare_lt_iff_lt]
    exact (Rat.lt_iff p q).mp h
  · subst h
    rw [cmp_self_eq_eq, compare_eq_iff_eq]
  · rw [(cmp_eq_gt_iff p q).mpr h, compare_gt_iff_gt]
    exact (Rat.lt_iff q p).mp h

/-- The root of a square integer is exact. -/
theorem exactSquareRoot?_mul_self (d : ℤ) : exactSquareRoot? (d * d) = some |d| := by
  have hsq : (d * d).natAbs = d.natAbs * d.natAbs := Int.natAbs_mul d d
  rw [exactSquareRoot?, if_neg (by have := mul_self_nonneg d; omega)]
  simp only [hsq, Nat.sqrt_eq, if_true, Int.natCast_natAbs]

namespace Number

variable {a b : Number} {p q : ℚ}

/-! ## Levels -/

/-- A number with an exact value is an integer or a rational. -/
theorem eq_int_or_eq_rat (ha : a.toRat? = some p) :
    (∃ n : ℤ, a = .int n ∧ (n : ℚ) = p) ∨ a = .rat p := by
  cases a with
  | int n => exact Or.inl ⟨n, rfl, Option.some.inj ha⟩
  | rat r => exact Or.inr (congrArg Number.rat (Option.some.inj ha))
  | real x => simp [toRat?] at ha
  | complex z => simp [toRat?] at ha

/-- Moving a rational to its narrowest level keeps its value. -/
@[simp]
theorem toRat?_ofRat (r : ℚ) : (ofRat r).toRat? = some r := by
  by_cases h : r.den = 1
  · simp [ofRat, wholePart?, h, toRat?, (Rat.den_eq_one_iff r).mp h]
  · simp [ofRat, wholePart?, h, toRat?]

/-- The number of an integer is exact. -/
@[simp]
theorem toRat?_int (n : ℤ) : (Number.int n).toRat? = some (n : ℚ) := rfl

/-- A whole rational is an integer of the tower. -/
@[simp]
theorem ofRat_intCast (n : ℤ) : ofRat (n : ℚ) = .int n := by
  simp [ofRat, wholePart?]

/-- Zero on its narrowest level. -/
theorem zero_eq_ofRat : (0 : Number) = ofRat 0 := (ofRat_intCast 0).symm

/-- One on its narrowest level. -/
theorem one_eq_ofRat : (1 : Number) = ofRat 1 := (ofRat_intCast 1).symm

/-- The sign of a number on its narrowest level does not change the level. -/
theorem neg_ofRat (r : ℚ) : -ofRat r = ofRat (-r) := by
  by_cases h : r.den = 1
  · rw [← (Rat.den_eq_one_iff r).mp h, ← Int.cast_neg, ofRat_intCast, ofRat_intCast]
    rfl
  · simp only [ofRat, wholePart?, Rat.neg_den, if_neg h]
    rfl

/-- Different rationals have different numbers. -/
theorem ofRat_injective {p q : ℚ} (h : ofRat p = ofRat q) : p = q := by
  have := congrArg toRat? h
  simpa using this

/-- Bringing an exact number to its narrowest level keeps its value. -/
theorem downcast_eq (ha : a.toRat? = some p) : a.downcast = ofRat p := by
  obtain ⟨n, rfl, rfl⟩ | rfl := eq_int_or_eq_rat ha
  · simp [downcast]
  · rfl

/-- An exact number is zero if its value is. -/
theorem isZero_iff (ha : a.toRat? = some p) : a.isZero = true ↔ p = 0 := by
  obtain ⟨n, rfl, rfl⟩ | rfl := eq_int_or_eq_rat ha
  · simp [isZero]
  · simp [isZero]

/-- An exact number is one if its value is. -/
theorem isOne_iff (ha : a.toRat? = some p) : a.isOne = true ↔ p = 1 := by
  have hone : Number.int 1 = ofRat 1 := (ofRat_intCast 1).symm
  rw [isOne, downcast_eq ha, beq_iff_eq, hone]
  exact ⟨ofRat_injective, fun h => by rw [h]⟩

/-! ## Operations -/

/-- Exact numbers are added exactly, and the sum is on its narrowest level. -/
theorem add_eq (ha : a.toRat? = some p) (hb : b.toRat? = some q) : a + b = ofRat (p + q) := by
  show add a b = _
  simp [add, lift, ha, hb]

/-- Exact numbers are subtracted exactly, and the difference is on its narrowest level. -/
theorem sub_eq (ha : a.toRat? = some p) (hb : b.toRat? = some q) : a - b = ofRat (p - q) := by
  show sub a b = _
  simp [sub, lift, ha, hb]

/-- Exact numbers are multiplied exactly, and the product is on its narrowest level. -/
theorem mul_eq (ha : a.toRat? = some p) (hb : b.toRat? = some q) : a * b = ofRat (p * q) := by
  show mul a b = _
  simp [mul, lift, ha, hb]

/-- Exact numbers are divided exactly unless by zero, and the quotient is on its narrowest level. -/
theorem div_eq (ha : a.toRat? = some p) (hb : b.toRat? = some q) (hq : q ≠ 0) :
    a / b = ofRat (p / q) := by
  have hz : ¬ b.isZero = true := fun h => hq ((isZero_iff hb).mp h)
  show div a b = _
  simp [div, hz, lift, ha, hb]

/-- Division by zero is no number. -/
theorem div_of_eq_zero (hb : b.toRat? = some 0) : a / b = nan := if_pos ((isZero_iff hb).mpr rfl)

/-- The value of a sum of exact numbers. -/
theorem toRat?_add (ha : a.toRat? = some p) (hb : b.toRat? = some q) :
    (a + b).toRat? = some (p + q) := by
  rw [add_eq ha hb, toRat?_ofRat]

/-- The value of a product of exact numbers. -/
theorem toRat?_mul (ha : a.toRat? = some p) (hb : b.toRat? = some q) :
    (a * b).toRat? = some (p * q) := by
  rw [mul_eq ha hb, toRat?_ofRat]

/-- The value of a quotient of exact numbers. -/
theorem toRat?_div (ha : a.toRat? = some p) (hb : b.toRat? = some q) (hq : q ≠ 0) :
    (a / b).toRat? = some (p / q) := by
  rw [div_eq ha hb hq, toRat?_ofRat]

/-- A change of the sign keeps the level. -/
theorem toRat?_neg (ha : a.toRat? = some p) : (-a).toRat? = some (-p) := by
  show (neg a).toRat? = _
  obtain ⟨n, rfl, rfl⟩ | rfl := eq_int_or_eq_rat ha
  · simp [neg]
  · rfl

/-- A power with a machine-sized whole exponent is exact. -/
theorem pow_eq {k : ℤ} (ha : a.toRat? = some p) (hk : toSignedWord? 32 k = some k)
    (hp : p = 0 → 0 ≤ k) : a.pow (.int k) = ofRat (p ^ k) := by
  simp [pow, ha, toInt?, hk, rationalPower?_eq_some hp]

/-- A negative power of zero has no value. -/
theorem pow_of_eq_zero {k : ℤ} (ha : a.toRat? = some 0) (hk : toSignedWord? 32 k = some k)
    (hneg : k < 0) : a.pow (.int k) = nan := by
  have hnone : rationalPower? 0 k = none := by
    have hnum : integerPower (0 : ℚ).num k.natAbs = 0 := by
      rw [integerPower_eq_pow, Rat.num_zero, zero_pow (by omega)]
    rw [rationalPower?, if_neg (by omega), if_pos hnum]
  simp [pow, ha, toInt?, hk, hnone]

/-- A power with a whole exponent beyond the machine size is approximate. -/
theorem pow_of_not_word {k : ℤ} (ha : a.toRat? = some p) (hk : toSignedWord? 32 k = none) :
    ∃ x, a.toReal? = some x ∧ a.pow (.int k) =
      if x.isNegative then ofComplex (a.toComplex.pow (toComplex (.int k)))
      else ofDouble (Float.pow x.toDouble (ExtReal.ofInt k).toDouble) := by
  have hhalf : Number.int k ≠ .rat (Rat.divInt 1 2) := nofun
  obtain ⟨x, hx⟩ : ∃ x, a.toReal? = some x := by
    obtain ⟨n, rfl, -⟩ | rfl := eq_int_or_eq_rat ha
    · exact ⟨_, rfl⟩
    · exact ⟨_, rfl⟩
  have hexponent : (int k).toReal? = some (.ofInt k) := rfl
  refine ⟨x, hx, ?_⟩
  rw [pow]
  simp only [ha, toInt?, Option.bind_some, hk, if_neg hhalf, hx, hexponent]

/-- The root of the square of a rational is its absolute value. -/
theorem sqrt_mul_self (ha : a.toRat? = some (p * p)) : a.sqrt = ofRat |p| := by
  -- The numerator and the denominator of `p * p` are squares themselves.
  have hroot : rootOfRat (p * p) = ofRat |p| := by
    have hden : exactSquareRoot? ((p.den : ℤ) * p.den) = some (p.den : ℤ) := by
      rw [exactSquareRoot?_mul_self, abs_of_nonneg (by positivity)]
    have hval : Rat.divInt |p.num| p.den = |p| := by
      rw [Rat.divInt_eq_div, Int.cast_abs, Int.cast_natCast, ← Nat.abs_cast, ← abs_div,
        Rat.num_div_den]
    rw [rootOfRat, Rat.mul_self_num, Rat.mul_self_den, Nat.cast_mul,
      exactSquareRoot?_mul_self, hden]
    simp only [hval]
  have hsq : sqrtOfRat (p * p) = ofRat |p| := by
    rw [sqrtOfRat, if_neg (not_lt.mpr (Rat.num_nonneg.mpr (mul_self_nonneg p))), hroot]
  obtain ⟨n, rfl, h⟩ | rfl := eq_int_or_eq_rat ha
  · rw [sqrt, h, hsq]
  · rw [sqrt, hsq]

/-! ## Order -/

/-- Exact numbers are compared by their values. -/
theorem compare?_eq (ha : a.toRat? = some p) (hb : b.toRat? = some q) :
    a.compare? b = some (cmp p q) := by
  rw [compare?, ha, hb]
  exact congrArg some (compareRationals_eq_cmp p q)

/-- An exact number is negative if its value is. -/
theorem isNegative_iff (ha : a.toRat? = some p) : a.isNegative = true ↔ p < 0 := by
  rw [isNegative, compare?_eq ha (q := 0) rfl, beq_iff_eq, Option.some.injEq, cmp_eq_lt_iff]

/-- An exact number is positive if its value is. -/
theorem isPositive_iff (ha : a.toRat? = some p) : a.isPositive = true ↔ 0 < p := by
  rw [isPositive, compare?_eq ha (q := 0) rfl, beq_iff_eq, Option.some.injEq, cmp_eq_gt_iff]

end Number

end SymbolicAlgebra
