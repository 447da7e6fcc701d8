import Mathlib.Data.Nat.Squarefree
import SymbolicAlgebra.Proofs.Arithmetic.Divisors
import SymbolicAlgebra.Proofs.Arithmetic.SquareRoot

/-!
# Square factors of radicands

The root of a number is written as a multiple of the root of a number without square factors. The
prime factors of the radicand are split by the parity of their multiplicities: half of each goes in
front of the root, and one copy stays behind where the multiplicity is odd,
`PrimePowers.sq_mul_prod_odd`. What stays behind is square-free, so that nothing more can be taken
out of it.

The search for square factors comes last. Before it a root that is exact is folded to a number, and
`foldSqrt_int` needs that a radicand with fewer than forty-nine digits has no false root.
-/

namespace SymbolicAlgebra

/-! ## Splitting prime powers by parity -/

namespace PrimePowers

variable {fs : List (ℕ × ℕ)} {n : ℕ}

/-- The square of the halves makes up the number with the primes of odd multiplicity. -/
theorem sq_mul_prod_odd (h : PrimePowers fs n) :
    (fs.map fun f => f.1 ^ (f.2 / 2)).prod ^ 2 * (fs.map fun f => f.1 ^ (f.2 % 2)).prod = n := by
  rw [← h.product]
  clear h
  induction fs with
  | nil => rfl
  | cons f fs ih =>
    have hf : (f.1 ^ (f.2 / 2)) ^ 2 * f.1 ^ (f.2 % 2) = f.1 ^ f.2 := by
      rw [← pow_mul, ← pow_add, Nat.div_add_mod']
    rw [List.map_cons, List.map_cons, List.prod_cons, List.prod_cons, powersProduct_cons, ← ih,
      ← hf]
    ring

/-- The primes of odd multiplicity make up a square-free number. -/
theorem squarefree_prod_odd (h : PrimePowers fs n) :
    Squarefree (fs.map fun f => f.1 ^ (f.2 % 2)).prod := by
  induction fs generalizing n with
  | nil => exact squarefree_one
  | cons f fs ih =>
    have hp : f.1.Prime := h.prime f List.mem_cons_self
    have hfirst : Squarefree (f.1 ^ (f.2 % 2)) := by
      rcases Nat.mod_two_eq_zero_or_one f.2 with hodd | hodd
      · rw [hodd, pow_zero]
        exact squarefree_one
      · rw [hodd, pow_one]
        exact hp.squarefree
    have hcoprime : (f.1 ^ (f.2 % 2)).Coprime (fs.map fun f => f.1 ^ (f.2 % 2)).prod :=
      Nat.Coprime.coprime_dvd_left (pow_dvd_pow f.1 (Nat.mod_le f.2 2))
        (Nat.Coprime.coprime_dvd_right (Dvd.intro_left _ h.tail.sq_mul_prod_odd) h.coprime_tail)
    rw [List.map_cons, List.prod_cons]
    exact (Nat.squarefree_mul hcoprime).mpr ⟨hfirst, ih h.tail⟩

end PrimePowers

namespace Folding

/-- The two parts are multiplied up on top of what has been split so far. -/
theorem foldl_splitSquare (fs : List (ℕ × ℕ)) (a b : ℕ) :
    fs.foldl (fun acc f => (acc.1 * Nat.pow f.1 (f.2 / 2), acc.2 * Nat.pow f.1 (f.2 % 2)))
        (a, b) =
      (a * (fs.map fun f => f.1 ^ (f.2 / 2)).prod,
        b * (fs.map fun f => f.1 ^ (f.2 % 2)).prod) := by
  induction fs generalizing a b with
  | nil => simp
  | cons f fs ih =>
    rw [List.foldl_cons, ih]
    simp only [List.map_cons, List.prod_cons, mul_assoc, Nat.pow_eq]

/-- Both parts are products over the prime factors, with halved exponents and their remainders. -/
theorem splitSquare_eq (n : ℤ) : splitSquare n =
    (((primeFactors n).map fun f => f.1 ^ (f.2 / 2)).prod,
      ((primeFactors n).map fun f => f.1 ^ (f.2 % 2)).prod) := by
  rw [splitSquare, foldl_splitSquare, one_mul, one_mul]

/-- A number is split into a square and a square-free rest. -/
theorem splitSquare_spec {n : ℤ} (hn : 0 < n) :
    ((splitSquare n).1 : ℤ) ^ 2 * (splitSquare n).2 = n ∧ Squarefree ((splitSquare n).2 : ℤ) := by
  have h := primePowers_primeFactors hn.ne'
  rw [splitSquare_eq]
  refine ⟨?_, Int.squarefree_natCast.mpr h.squarefree_prod_odd⟩
  have hsplit := congrArg (Nat.cast : ℕ → ℤ) h.sq_mul_prod_odd
  rwa [Nat.cast_mul, Nat.cast_pow, Int.natAbs_of_nonneg hn.le] at hsplit

/-- Both parts of a positive integer are positive. -/
theorem splitSquare_pos {n : ℤ} (hn : 0 < n) : 0 < (splitSquare n).1 ∧ 0 < (splitSquare n).2 := by
  have hne : ((splitSquare n).1 : ℤ) ^ 2 * (splitSquare n).2 ≠ 0 := by
    rw [(splitSquare_spec hn).1]
    exact hn.ne'
  refine ⟨Nat.pos_of_ne_zero fun h => hne ?_, Nat.pos_of_ne_zero fun h => hne ?_⟩
  · rw [h, Nat.cast_zero, zero_pow two_ne_zero, zero_mul]
  · rw [h, Nat.cast_zero, mul_zero]

/-- Only a square-free number has no square to take out. -/
theorem splitSquare_eq_one_iff {n : ℤ} (hn : 0 < n) : (splitSquare n).1 = 1 ↔ Squarefree n := by
  obtain ⟨hsplit, hfree⟩ := splitSquare_spec hn
  constructor
  · intro h
    rw [h, Nat.cast_one, one_pow, one_mul] at hsplit
    exact hsplit ▸ hfree
  · intro h
    have hdvd : ((splitSquare n).1 : ℤ) * (splitSquare n).1 ∣ n :=
      Dvd.intro ((splitSquare n).2 : ℤ) (by rw [← pow_two, hsplit])
    exact_mod_cast Int.isUnit_iff_natAbs_eq.mp (h _ hdvd)

/-! ## Folded roots of integers -/

variable {n : ℤ}

/-- Away from squares and false roots, only square factors are taken out of a root. -/
theorem foldSqrt_int (hpos : 0 < n) (hlt : n < 10 ^ 48) (hsq : ¬ IsSquare n) :
    foldSqrt (.call .sqrt (.int n)) =
      ((squarePart? n).map fun p => .productOf [.int p.1, .call .sqrt (.int p.2)]).getD
        (.call .sqrt (.int n)) := by
  have hroot : isExact (Number.int n).sqrt = false := by
    have hfalse : ¬ Decimal.HasFalseRoot (n : ℚ) :=
      Decimal.not_hasFalseRoot (by exact_mod_cast hpos.le) (by rwa [Rat.num_intCast])
    have hexact := Number.exists_toRat?_sqrt_iff (a := .int n) rfl (q := n)
      (by exact_mod_cast hpos.le)
    rw [Rat.isSquare_intCast_iff, or_iff_left hfalse, ← Option.isSome_iff_exists] at hexact
    exact Bool.eq_false_iff.mpr fun h => hsq (hexact.mp h)
  have hneg : (Number.int n).isNegative = false := by
    rw [← Bool.not_eq_true, Number.isNegative_iff (a := .int n) rfl]
    exact_mod_cast hpos.le.not_gt
  show (foldedRoot? (.int n)).getD _ = _
  rw [foldedRoot?, hroot, hneg]
  rfl

/-- Nothing is taken out of a square-free integer. -/
theorem squarePart?_of_squarefree (hpos : 0 < n) (hfree : Squarefree n) : squarePart? n = none := by
  have hone : (splitSquare n).1 = 1 := (splitSquare_eq_one_iff hpos).mpr hfree
  rw [squarePart?]
  dsimp only
  rw [if_pos hone, ite_self]

/-- A square part is found within the limit. -/
theorem squarePart?_of_not_squarefree (hpos : 0 < n) (hle : n ≤ maxSquarePart)
    (hfree : ¬ Squarefree n) : squarePart? n = some (splitSquare n) := by
  rw [squarePart?, if_pos ⟨hpos, hle⟩]
  exact if_neg (mt (splitSquare_eq_one_iff hpos).mp hfree)

/-- The root of a square-free number stays as it is. -/
theorem foldSqrt_of_squarefree (hlt : n < 10 ^ 48) (hone : 1 < n) (hfree : Squarefree n) :
    foldSqrt (.call .sqrt (.int n)) = .call .sqrt (.int n) := by
  have hsq : ¬ IsSquare n := by
    rintro ⟨r, rfl⟩
    have hunit : r.natAbs = 1 := Int.isUnit_iff_natAbs_eq.mp (hfree r (dvd_refl _))
    have : r * r = 1 := by rw [← Int.natAbs_mul_self, hunit]; rfl
    omega
  rw [foldSqrt_int (by omega) hlt hsq, squarePart?_of_squarefree (by omega) hfree]
  rfl

/-- The root of a number up to `10 ^ 12` that is no square stays as it is exactly if the number is
square-free. Any other one is split into a whole number in front and the root of a square-free
number, from which nothing more is taken out. -/
theorem foldSqrt_extracts_squares (hpos : 0 < n) (hle : n ≤ 10 ^ 12) (hsq : ¬ IsSquare n) :
    (foldSqrt (.call .sqrt (.int n)) = .call .sqrt (.int n) ↔ Squarefree n) ∧
    (¬ Squarefree n → ∃ m k : ℤ, 2 ≤ m ∧ m ^ 2 * k = n ∧ 1 < k ∧ Squarefree k ∧
      foldSqrt (.call .sqrt (.int n)) = .product [.int m, .call .sqrt (.int k)] ∧
      foldSqrt (.call .sqrt (.int k)) = .call .sqrt (.int k)) := by
  have hlt : n < 10 ^ 48 := hle.trans_lt (by norm_num)
  have hone : 1 < n := lt_of_le_of_ne hpos fun h => hsq (h ▸ IsSquare.one)
  have hsplit : ¬ Squarefree n → ∃ m k : ℤ, 2 ≤ m ∧ m ^ 2 * k = n ∧ 1 < k ∧ Squarefree k ∧
      foldSqrt (.call .sqrt (.int n)) = .product [.int m, .call .sqrt (.int k)] ∧
      foldSqrt (.call .sqrt (.int k)) = .call .sqrt (.int k) := by
    intro hfree
    obtain ⟨hn, hrest⟩ := splitSquare_spec hpos
    obtain ⟨hm, hk⟩ := splitSquare_pos hpos
    have hm1 : (splitSquare n).1 ≠ 1 := mt (splitSquare_eq_one_iff hpos).mp hfree
    have hk1 : (splitSquare n).2 ≠ 1 := by
      intro h1
      rw [h1, Nat.cast_one, mul_one, pow_two] at hn
      exact hsq ⟨_, hn.symm⟩
    have hkn : ((splitSquare n).2 : ℤ) ≤ n := Int.le_of_dvd hpos (Dvd.intro_left _ hn)
    refine ⟨(splitSquare n).1, (splitSquare n).2, by omega, hn, by omega, hrest, ?_,
      foldSqrt_of_squarefree (by omega) (by omega) hrest⟩
    rw [foldSqrt_int hpos hlt hsq, squarePart?_of_not_squarefree hpos hle hfree]
    rfl
  refine ⟨⟨fun h => ?_, foldSqrt_of_squarefree hlt hone⟩, hsplit⟩
  -- A square factor that was taken out would have made the root a product.
  by_contra hfree
  obtain ⟨m, k, -, -, -, -, hfold, -⟩ := hsplit hfree
  rw [h] at hfold
  exact absurd hfold nofun

/-- Of `360`, the number `6` goes in front of the root, and `10` stays behind. -/
theorem foldSqrt_extracts_squares_of_360 :
    (0 : ℤ) < 360 ∧ (360 : ℤ) ≤ 10 ^ 12 ∧ ¬ IsSquare (360 : ℤ) ∧ ¬ Squarefree (360 : ℤ) ∧
      foldSqrt (.call .sqrt (.int 360)) ≠ .call .sqrt (.int 360) ∧
      foldSqrt (.call .sqrt (.int 360)) = .product [.int 6, .call .sqrt (.int 10)] := by
  have hsq : ¬ IsSquare (360 : ℤ) := by decide +kernel
  have hfree : ¬ Squarefree (360 : ℤ) := fun h => absurd (h 6 ⟨10, rfl⟩) (by decide)
  have hiff := (foldSqrt_extracts_squares (n := 360) (by norm_num) (by norm_num) hsq).1
  exact ⟨by norm_num, by norm_num, hsq, hfree, mt hiff.mp hfree, by with_unfolding_all rfl⟩

end Folding

end SymbolicAlgebra
