import SymbolicAlgebra.Proofs.Arithmetic.ExactNumber

/-!
# Exact arithmetic of the tower

On integers and rationals the tower computes as the field of rationals does, whatever the levels of
the operands are, and gives each result on the narrowest level of its value: `Number.IsNarrowest`,
`Number.isNarrowest_operations`.
-/

namespace SymbolicAlgebra

namespace Number

variable {a b : Number} {p q x : ℚ} {k : ℤ}

/-- The number has the value `x`, as an integer if `x` is whole and else as a fraction in lowest
terms. -/
inductive IsNarrowest : Number → ℚ → Prop where
  /-- A whole value stands at the lowest level. -/
  | whole (n : ℤ) : IsNarrowest (.int n) n
  /-- A fraction has a denominator above one. -/
  | fraction {x : ℚ} (den : 1 < x.den) (lowest : x.num.natAbs.Coprime x.den) :
      IsNarrowest (.rat x) x

/-- The narrowest level is the one that every exact result is moved to. -/
theorem isNarrowest_iff : IsNarrowest a x ↔ a = ofRat x := by
  constructor
  · rintro (⟨n⟩ | ⟨hden, -⟩)
    · exact (ofRat_intCast n).symm
    · rw [ofRat, wholePart?, if_neg hden.ne']
  · rintro rfl
    by_cases hden : x.den = 1
    · obtain ⟨n, rfl⟩ : ∃ n : ℤ, x = n := ⟨x.num, ((Rat.den_eq_one_iff x).mp hden).symm⟩
      rw [ofRat_intCast]
      exact .whole n
    · rw [ofRat, wholePart?, if_neg hden]
      exact .fraction (by have := x.den_pos; omega) x.reduced

/-- The operations on exact numbers are those of the rationals, with results on the narrowest level;
a division by zero and a negative power of zero have no value. -/
theorem isNarrowest_operations (ha : a.toRat? = some p) (hb : b.toRat? = some q)
    (hk : -2 ^ 31 ≤ k ∧ k < 2 ^ 31) :
    IsNarrowest (a + b) (p + q) ∧ IsNarrowest (a - b) (p - q) ∧ IsNarrowest (a * b) (p * q) ∧
    (q ≠ 0 → IsNarrowest (a / b) (p / q)) ∧ (q = 0 → a / b = nan) ∧
    (¬ (p = 0 ∧ k < 0) → IsNarrowest (a.pow (.int k)) (p ^ k)) ∧
    (p = 0 → k < 0 → a.pow (.int k) = nan) := by
  have hword : toSignedWord? 32 k = some k := if_pos hk
  simp only [isNarrowest_iff]
  refine ⟨add_eq ha hb, sub_eq ha hb, mul_eq ha hb, div_eq ha hb, ?_, fun h => ?_, ?_⟩
  · rintro rfl
    exact div_of_eq_zero hb
  · exact pow_eq ha hword fun hp => not_lt.mp fun hneg => h ⟨hp, hneg⟩
  · rintro rfl hneg
    exact pow_of_eq_zero ha hword hneg

/-- A whole rational over a fraction, and its negative power. -/
theorem isNarrowest_operations_two :
    Number.rat 2 / .rat (-1 / 2) = .int (-4) ∧ (Number.rat 2).pow (.int (-3)) = .rat (1 / 8) := by
  obtain ⟨-, -, -, hdiv, -, hpow, -⟩ := isNarrowest_operations (a := .rat 2) (b := .rat (-1 / 2))
    (k := -3) rfl rfl (by decide)
  rw [isNarrowest_iff.mp (hdiv (by norm_num)), isNarrowest_iff.mp (hpow (by norm_num))]
  decide +kernel

end Number

end SymbolicAlgebra
