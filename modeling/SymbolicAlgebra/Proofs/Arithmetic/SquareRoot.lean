import Mathlib.Data.Rat.Sqrt
import SymbolicAlgebra.Proofs.Arithmetic.Decimal
import SymbolicAlgebra.Proofs.Arithmetic.ExactNumber
import SymbolicAlgebra.Simplify.Folding

/-!
# Exact square roots

The square of a rational has an exact root. Any other rational gets the root of its decimal, rounded
to fifty digits, and a root that comes out whole by rounding is an integer of the tower too: the root
of `10 ^ 50 + 1` is `10 ^ 25`. So the level of a root tells whether it is exact only for numbers
without such a false root, `Decimal.HasFalseRoot`. These are near the square of a whole number, and
none of them has a numerator below `10 ^ 48`.
-/

namespace SymbolicAlgebra

theorem exactSquareRoot?_eq_some {a r : ℤ} (h : exactSquareRoot? a = some r) :
    0 ≤ r ∧ r * r = a := by
  rw [exactSquareRoot?] at h
  dsimp only at h
  split_ifs at h with hneg hsq
  obtain rfl := Option.some.inj h
  refine ⟨Int.natCast_nonneg _, ?_⟩
  calc (a.natAbs.sqrt : ℤ) * a.natAbs.sqrt = a.natAbs := by exact_mod_cast hsq
    _ = a := Int.natAbs_of_nonneg (not_lt.mp hneg)

namespace Decimal

/-- The rational is no square, but its root comes out whole to the working precision. -/
def HasFalseRoot (q : ℚ) : Prop := ¬ IsSquare q ∧ (sqrt (ofRat q)).toInt?.isSome

theorem significand_ofRat_pos {q : ℚ} (hq : 0 < q) : 0 < (ofRat q).significand :=
  Floating.toRat_pos_iff.mp ((approximates_ofRat q).pos (by norm_num) hq)

/-- The square of the decimal root of a rational is near the rational. -/
theorem approximates_sq_sqrt_ofRat {q : ℚ} (hq : 0 < q) :
    Approximates (7 / 10 ^ 49) q ((sqrt (ofRat q)).toRat ^ 2) := by
  have hroot := Floating.approximates_sq_squareRoot (p := precision) (by decide)
    (significand_ofRat_pos hq)
  rw [roundoff_precision] at hroot
  exact ((approximates_ofRat q).trans (by norm_num) hroot).mono (by norm_num)

/-- A number with a false root is near the square of a whole number. -/
theorem HasFalseRoot.exists_near_square {q : ℚ} (hq : 0 ≤ q) (h : HasFalseRoot q) :
    ∃ m : ℤ, |(m : ℚ) ^ 2 - q| ≤ 7 / 10 ^ 49 * q := by
  obtain ⟨hsq, hwhole⟩ := h
  obtain ⟨m, hm⟩ := Option.isSome_iff_exists.mp hwhole
  have hpos : 0 < q := hq.lt_of_ne fun h0 => hsq (h0 ▸ IsSquare.zero)
  have happrox := approximates_sq_sqrt_ofRat hpos
  rw [Floating.toInt?_eq_some_iff.mp hm, Approximates, abs_of_pos hpos] at happrox
  exact ⟨m, happrox⟩

/-- The square of a whole number differs from `q`, if it does, by more than rounding explains. -/
theorem not_hasFalseRoot {q : ℚ} (hq : 0 ≤ q) (hnum : q.num < 10 ^ 48) : ¬ HasFalseRoot q := by
  intro h
  obtain ⟨m, hnear⟩ := h.exists_near_square hq
  have hden : (0 : ℚ) < q.den := Nat.cast_pos.mpr q.den_pos
  have hmul : q * q.den = q.num := Rat.mul_den_eq_num q
  have hnum' : (q.num : ℚ) < 10 ^ 48 := by exact_mod_cast hnum
  have hlt : |(m : ℚ) ^ 2 * q.den - q.num| < 1 := by
    rw [← hmul, ← sub_mul, abs_mul, abs_of_pos hden]
    calc |(m : ℚ) ^ 2 - q| * q.den ≤ 7 / 10 ^ 49 * q * q.den := by gcongr
      _ = 7 / 10 ^ 49 * q.num := by rw [mul_assoc, hmul]
      _ < 1 := by linarith
  have hint : |m ^ 2 * q.den - q.num| < 1 := by exact_mod_cast hlt
  have heq : m ^ 2 * q.den = q.num := sub_eq_zero.mp (Int.abs_lt_one_iff.mp hint)
  refine h.1 ⟨m, mul_right_cancel₀ hden.ne' ?_⟩
  rw [hmul, ← heq]
  push_cast
  ring

end Decimal

namespace Number

variable {a : Number} {q : ℚ}

/-- The root of a rational that is no square is the root of its decimal. -/
theorem sqrt_eq_ofReal (ha : a.toRat? = some q) (hq : 0 < q) (hsq : ¬ IsSquare q) :
    a.sqrt = ofReal (.finite (Decimal.sqrt (Decimal.ofRat q))) := by
  have hroot : rootOfRat q = ofReal (ExtReal.ofRat q).sqrt := by
    rw [rootOfRat]
    split
    · rename_i m n hm hn
      -- With exact roots of numerator and denominator the rational would be a square.
      refine absurd (Rat.isSquare_iff.mpr ⟨⟨m, ?_⟩, ?_⟩) hsq
      · exact (exactSquareRoot?_eq_some hm).2.symm
      · exact Int.isSquare_natCast_iff.mp ⟨n, (exactSquareRoot?_eq_some hn).2.symm⟩
    · rfl
  have hnum : ¬ q.num < 0 := not_lt.mpr (Rat.num_nonneg.mpr hq.le)
  have hsign : Decimal.isNegative (Decimal.ofRat q) = false :=
    decide_eq_false (Decimal.significand_ofRat_pos hq).not_gt
  have hreal : (ExtReal.ofRat q).sqrt = .finite (Decimal.sqrt (Decimal.ofRat q)) := by
    rw [ExtReal.ofRat, ExtReal.sqrt, hsign, if_neg Bool.false_ne_true]
  obtain ⟨n, rfl, rfl⟩ | rfl := eq_int_or_eq_rat ha
  · rw [sqrt, sqrtOfRat, if_neg hnum, hroot, hreal]
  · rw [sqrt, sqrtOfRat, if_neg hnum, hroot, hreal]

/-- A real on its narrowest level is exact if it is whole. -/
theorem toRat?_ofReal_finite (d : Decimal) :
    (ofReal (.finite d)).toRat? = d.toInt?.map fun n : ℤ => (n : ℚ) := by
  have hwhole : (ExtReal.finite d).toInt? = d.toInt? := rfl
  rw [ofReal, hwhole]
  cases d.toInt? <;> rfl

/-- A root is exact for squares and for numbers with a false root. -/
theorem exists_toRat?_sqrt_iff (ha : a.toRat? = some q) (hq : 0 ≤ q) :
    (∃ s, a.sqrt.toRat? = some s) ↔ IsSquare q ∨ Decimal.HasFalseRoot q := by
  by_cases hsq : IsSquare q
  · obtain ⟨p, rfl⟩ := hsq
    exact ⟨fun _ => .inl ⟨p, rfl⟩, fun _ => ⟨|p|, by rw [sqrt_mul_self ha, toRat?_ofRat]⟩⟩
  · have hpos : 0 < q := hq.lt_of_ne fun h0 => hsq (h0 ▸ IsSquare.zero)
    rw [sqrt_eq_ofReal ha hpos hsq, toRat?_ofReal_finite, ← Option.isSome_iff_exists,
      Option.isSome_map, Decimal.HasFalseRoot]
    exact ⟨fun h => .inr ⟨hsq, h⟩, fun h => h.elim (fun h => absurd h hsq) And.right⟩

/-- Without a false root, what an exact root is the root of is a square. -/
theorem eq_of_toRat?_sqrt {s : ℚ} (ha : a.toRat? = some q) (hq : 0 ≤ q)
    (hfalse : ¬ Decimal.HasFalseRoot q) (hs : a.sqrt.toRat? = some s) : s * s = q := by
  obtain ⟨p, rfl⟩ := ((exists_toRat?_sqrt_iff ha hq).mp ⟨s, hs⟩).resolve_right hfalse
  rw [sqrt_mul_self ha, toRat?_ofRat, Option.some.injEq] at hs
  rw [← hs, abs_mul_abs_self]

end Number

/-! ## Folded roots -/

namespace Folding

variable {a n : Number} {q s : ℚ}

/-- A root is folded to a number only if that is the root of the number. -/
theorem eq_sqrt_of_foldSqrt (h : foldSqrt (.call .sqrt (.number a)) = .number n) : n = a.sqrt := by
  change (foldedRoot? a).getD (.call .sqrt (.number a)) = .number n at h
  rw [foldedRoot?] at h
  split_ifs at h
  · exact (Expr.number.inj h).symm
  · exact (Expr.number.inj h).symm
  · -- Neither the root of a smaller number nor the node itself is a number.
    cases hpart : a.toInt?.bind squarePart? with
    | none =>
      rw [hpart] at h
      exact absurd h nofun
    | some parts =>
      rw [hpart] at h
      exact absurd h nofun

/-- The power with the exponent 1/2 is the root. -/
theorem pow_half (ha : a.toRat? = some q) : a.pow (.rat (1 / 2)) = a.sqrt := by
  have hhalf : (1 / 2 : ℚ) = Rat.divInt 1 2 := by rw [Rat.divInt_eq_div]; rfl
  rw [Number.pow, ha, if_pos (congrArg Number.rat hhalf)]
  rfl

/-- How a power with the exponent 1/2 is folded: to one over the base one, and else to the root, if
that is exact. -/
theorem foldPower_half (ha : a.toRat? = some q) :
    foldPower (.power (.number a) (.number (.rat (1 / 2)))) =
      if a.isOne then 1
      else if isExact a.sqrt then .number a.sqrt
      else .power (.number a) (.number (.rat (1 / 2))) := by
  have hzero : (Expr.number (.rat (1 / 2))).isZero = false := by decide +kernel
  have hone : (Expr.number (.rat (1 / 2))).isOne = false := by decide +kernel
  have hexact : (isExact a && isExact (.rat (1 / 2))) = true := by rw [isExact, ha]; rfl
  have hnumeric : foldNumericPower? a (.rat (1 / 2)) =
      if isExact a.sqrt then some a.sqrt else none := by
    rw [← pow_half ha]
    simp only [foldNumericPower?, hexact, if_true]
  rw [foldPower, hzero, hone, Bool.false_or, if_neg Bool.false_ne_true]
  change (if a.isOne then 1 else (foldNumericPower? a (.rat (1 / 2))).elim _ Expr.number) = _
  rw [hnumeric]
  split_ifs <;> rfl

end Folding

namespace Number

variable {a : Number} {q : ℚ}

/-- The root of an exact number is exact for squares, where it is the root that is not negative, and
for numbers with a false root only. These are near the square of a whole number and have a numerator
of at least `10 ^ 48`. Away from them, roots and powers with the exponent 1/2 are folded to exact
numbers whose square is the radicand. -/
theorem sqrt_isExact_iff (ha : a.toRat? = some q) (hq : 0 ≤ q) :
    ((∃ s, a.sqrt.toRat? = some s) ↔ IsSquare q ∨ Decimal.HasFalseRoot q) ∧
    (∀ s, 0 ≤ s → s * s = q → a.sqrt = ofRat s) ∧
    (¬ Decimal.HasFalseRoot q → ∀ (n : Number) (s : ℚ), n.toRat? = some s →
      (Folding.foldSqrt (.call .sqrt (.number a)) = .number n ∨
        Folding.foldPower (.power (.number a) (.number (.rat (1 / 2)))) = .number n) →
      s * s = q) ∧
    (Decimal.HasFalseRoot q → ∃ m : ℤ, |(m : ℚ) ^ 2 - q| ≤ 7 / 10 ^ 49 * q) ∧
    (q.num < 10 ^ 48 → ¬ Decimal.HasFalseRoot q) := by
  refine ⟨exists_toRat?_sqrt_iff ha hq, ?_, ?_, fun h => h.exists_near_square hq,
    Decimal.not_hasFalseRoot hq⟩
  · intro s hs hsq
    rw [sqrt_mul_self (hsq ▸ ha), abs_of_nonneg hs]
  · intro hfalse n s hn hfold
    have hroot : n = a.sqrt → s * s = q := by
      rintro rfl
      exact eq_of_toRat?_sqrt ha hq hfalse hn
    rcases hfold with hfold | hfold
    · exact hroot (Folding.eq_sqrt_of_foldSqrt hfold)
    · rw [Folding.foldPower_half ha] at hfold
      split_ifs at hfold with hone hexact
      · obtain rfl : 1 = n := Expr.number.inj hfold
        obtain rfl : (1 : ℚ) = s := Option.some.inj hn
        rw [(isOne_iff ha).mp hone, one_mul]
      · exact hroot (Expr.number.inj hfold).symm

/-- The root of a fraction with forty-eight digits in the numerator is not exact. -/
theorem sqrt_isExact_iff_long_numerator :
    (Number.rat ((10 ^ 47 + 1) / 9)).toRat? = some ((10 ^ 47 + 1) / 9) ∧
      (0 : ℚ) ≤ (10 ^ 47 + 1) / 9 ∧
      ¬ ∃ s, (Number.rat ((10 ^ 47 + 1) / 9)).sqrt.toRat? = some s := by
  have hq : (0 : ℚ) ≤ (10 ^ 47 + 1) / 9 := by norm_num
  obtain ⟨hexact, -, -, -, hfalse⟩ :=
    sqrt_isExact_iff (a := .rat ((10 ^ 47 + 1) / 9)) rfl hq
  refine ⟨rfl, hq, fun h => ?_⟩
  rcases hexact.mp h with hsq | hroot
  · exact absurd hsq (by decide +kernel)
  · exact hfalse (by decide +kernel) hroot

/-- With fifty-one digits a root may be whole by rounding. -/
theorem sqrt_isExact_of_fifty_one_digits :
    (Number.int (10 ^ 50 + 1)).sqrt = .int (10 ^ 25) ∧
      Folding.foldSqrt (.call .sqrt (.int (10 ^ 50 + 1))) = .int (10 ^ 25) ∧
      Folding.foldPower (.power (.int (10 ^ 50 + 1)) (.number (.rat (1 / 2)))) = .int (10 ^ 25) ∧
      (10 ^ 25 : ℤ) * 10 ^ 25 ≠ 10 ^ 50 + 1 ∧ ¬ IsSquare ((10 ^ 50 + 1 : ℤ) : ℚ) := by
  have hroot : (Number.int (10 ^ 50 + 1)).sqrt = .int (10 ^ 25) := by decide +kernel
  refine ⟨hroot, ?_, ?_, by norm_num, by decide +kernel⟩
  · change (Folding.foldedRoot? (.int (10 ^ 50 + 1))).getD _ = _
    rw [Folding.foldedRoot?, hroot]
    rfl
  · change Folding.foldPower
      (.power (.number (.int (10 ^ 50 + 1))) (.number (.rat (1 / 2)))) = _
    rw [Folding.foldPower_half (a := .int (10 ^ 50 + 1)) rfl, hroot]
    rfl

end Number

end SymbolicAlgebra
