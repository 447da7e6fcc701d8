import Mathlib.Data.Int.ConditionallyCompleteOrder
import Mathlib.Data.Int.Interval
import Mathlib.Data.Nat.Totient
import Mathlib.NumberTheory.ArithmeticFunction.Misc
import SymbolicAlgebra.Proofs.Arithmetic.Factorization

/-!
# Counting divisors and coprime numbers

The functions that are computed from the prime factors of a number agree with their definitions by
counting. A function on the naturals that is multiplicative over coprime factors is the product of
its values at the prime powers, `PrimePowers.prod_map`; the number of divisors and the totient are
two of them. A number is prime if it has two divisors, `card_divisors_eq_two_iff`.
-/

namespace SymbolicAlgebra

open Finset

namespace PrimePowers

variable {f : ℕ × ℕ} {fs : List (ℕ × ℕ)} {n : ℕ}

theorem tail (h : PrimePowers (f :: fs) n) : PrimePowers fs (powersProduct fs) where
  prime := (List.forall_mem_cons.mp h.prime).2
  pos := (List.forall_mem_cons.mp h.pos).2
  increasing := (List.pairwise_cons.mp h.increasing).2
  product := rfl

/-- The first prime power has no factor in common with the others: their primes are larger. -/
theorem coprime_tail (h : PrimePowers (f :: fs) n) :
    Nat.Coprime (f.1 ^ f.2) (powersProduct fs) := by
  have hp : f.1.Prime := h.prime f List.mem_cons_self
  refine Nat.Coprime.pow_left f.2 ((hp.coprime_iff_not_dvd).mpr fun hdvd => ?_)
  obtain ⟨q, hq, hfq⟩ := (hp.prime.dvd_prod_iff).mp hdvd
  obtain ⟨g, hg, rfl⟩ := List.mem_map.mp hq
  have heq : f.1 = g.1 := (Nat.prime_dvd_prime_iff_eq hp (h.prime g (List.mem_cons_of_mem f hg))).mp
    (hp.dvd_of_dvd_pow hfq)
  exact ((List.pairwise_cons.mp h.increasing).1 g hg).ne heq

/-- A multiplicative function is the product of its values at the prime powers. -/
theorem prod_map {F : ℕ → ℕ} {g : ℕ × ℕ → ℕ} (hone : F 1 = 1)
    (hmul : ∀ a b, a.Coprime b → F (a * b) = F a * F b)
    (hpow : ∀ f : ℕ × ℕ, f.1.Prime → 1 ≤ f.2 → F (f.1 ^ f.2) = g f) (h : PrimePowers fs n) :
    (fs.map g).prod = F n := by
  rw [← h.product]
  induction fs generalizing n with
  | nil => exact hone.symm
  | cons f fs ih =>
    have hf : F (f.1 ^ f.2) = g f :=
      hpow f (h.prime f List.mem_cons_self) (h.pos f List.mem_cons_self)
    rw [List.map_cons, List.prod_cons, ih h.tail, powersProduct_cons, hmul _ _ h.coprime_tail, hf]

end PrimePowers

/-! ## The functions as products -/

theorem countDivisors_of_pos {n : ℤ} (hn : 0 < n) :
    countDivisors n = #n.natAbs.divisors := by
  have hfold : ∀ (fs : List (ℕ × ℕ)) (acc : ℕ), fs.foldl (fun acc f => acc * (f.2 + 1)) acc =
      acc * (fs.map fun f => f.2 + 1).prod := by
    intro fs
    induction fs with
    | nil => exact fun acc => (mul_one acc).symm
    | cons f fs ih => intro acc; rw [List.foldl_cons, ih, List.map_cons, List.prod_cons, mul_assoc]
  rw [countDivisors, if_neg hn.not_ge, hfold, one_mul]
  have hpow : ∀ f : ℕ × ℕ, f.1.Prime → 1 ≤ f.2 → #(f.1 ^ f.2).divisors = f.2 + 1 := by
    intro f hp _
    rw [Nat.divisors_prime_pow hp, card_map, card_range]
  exact PrimePowers.prod_map (F := fun m => #m.divisors) (by simp)
    (fun a b hab => hab.card_divisors_mul) hpow (primePowers_primeFactors hn.ne')

theorem totient_of_pos {n : ℤ} (hn : 0 < n) : totient n = n.natAbs.totient := by
  have hfold : ∀ (fs : List (ℕ × ℕ)) (acc : ℕ),
      fs.foldl (fun acc f => acc * Nat.pow f.1 (f.2 - 1) * (f.1 - 1)) acc =
        acc * (fs.map fun f => f.1 ^ (f.2 - 1) * (f.1 - 1)).prod := by
    intro fs
    induction fs with
    | nil => exact fun acc => (mul_one acc).symm
    | cons f fs ih =>
      intro acc
      rw [List.foldl_cons, ih, List.map_cons, List.prod_cons, Nat.pow_eq, mul_assoc, mul_assoc,
        mul_assoc]
  rw [totient, if_neg hn.not_ge, hfold, one_mul]
  exact PrimePowers.prod_map Nat.totient_one (fun a b hab => Nat.totient_mul hab)
    (fun f hp hk => Nat.totient_prime_pow hp hk) (primePowers_primeFactors hn.ne')

/-! ## The definitions by counting -/

/-- The primes are the numbers with two divisors. -/
theorem card_divisors_eq_two_iff {n : ℕ} : #n.divisors = 2 ↔ n.Prime := by
  constructor
  · intro h
    have hn : n ≠ 0 := by rintro rfl; simp at h
    have hone : n ≠ 1 := by rintro rfl; simp at h
    -- The divisors `1` and `n` are all there are, so that the least prime factor is `n`.
    have hpair : ({1, n} : Finset ℕ) = n.divisors := by
      refine eq_of_subset_of_card_le ?_ (by rw [h, card_pair hone.symm])
      simp [insert_subset_iff, hn]
    have hmem : n.minFac ∈ ({1, n} : Finset ℕ) :=
      hpair ▸ Nat.mem_divisors.mpr ⟨n.minFac_dvd, hn⟩
    rcases mem_insert.mp hmem with hmin | hmin
    · exact absurd (Nat.minFac_eq_one_iff.mp hmin) hone
    · exact mem_singleton.mp hmin ▸ Nat.minFac_prime hone
  · intro h
    rw [h.divisors, card_pair h.one_lt.ne]

/-- Counting between one and a natural number is the same in the integers and in the naturals. -/
theorem card_filter_Icc_natCast (m : ℕ) (p : ℤ → Prop) [DecidablePred p] :
    #{d ∈ Icc (1 : ℤ) m | p d} = #{d ∈ Icc 1 m | p (d : ℕ)} := by
  symm
  refine card_bij (fun d _ => (d : ℤ)) ?_ (fun _ _ _ _ h => Nat.cast_injective h) ?_
  · intro d hd
    rw [mem_filter, mem_Icc] at hd ⊢
    exact ⟨by omega, hd.2⟩
  · intro d hd
    rw [mem_filter, mem_Icc] at hd
    lift d to ℕ using by omega
    exact ⟨d, mem_filter.mpr ⟨mem_Icc.mpr (by omega), hd.2⟩, rfl⟩

/--
The functions that are computed from the prime factors agree with their definitions: the number of
divisors, the primality and the number of coprime numbers are those of counting from one to the
number. Below one there is nothing to count.
-/
theorem countDivisors_eq_card (n : ℤ) :
    countDivisors n = #{d ∈ Icc (1 : ℤ) n | d ∣ n} ∧
    (isPrime n = true ↔ ∃ p : ℕ, p.Prime ∧ n = p) ∧
    totient n = #{k ∈ Icc (1 : ℤ) n | Int.gcd k n = 1} := by
  rcases lt_or_ge 0 n with hn | hn
  · lift n to ℕ using hn.le with m
    have hcount : countDivisors m = #m.divisors := countDivisors_of_pos hn
    refine ⟨?_, ?_, ?_⟩
    · rw [hcount, card_filter_Icc_natCast]
      simp only [Int.natCast_dvd_natCast]
      rfl
    · rw [isPrime, beq_iff_eq, hcount, card_divisors_eq_two_iff]
      exact ⟨fun h => ⟨m, h, rfl⟩, fun ⟨p, hp, hmp⟩ => Nat.cast_injective hmp ▸ hp⟩
    · rw [totient_of_pos hn, card_filter_Icc_natCast, Int.natAbs_natCast,
        ← Nat.filter_coprime_Ico_eq_totient m 1, add_comm 1 m]
      simp only [Int.gcd_natCast_natCast]
      congr 1
      ext k
      simp only [mem_filter, mem_Ico, mem_Icc, Nat.coprime_comm, Nat.coprime_iff_gcd_eq_one]
      omega
  -- Up to a number below one there is nothing to count.
  · have hempty : Icc (1 : ℤ) n = ∅ := Icc_eq_empty (by omega)
    have hprime : ∀ p : ℕ, p.Prime → n ≠ p := fun p hp => by have := hp.pos; omega
    simpa [isPrime, countDivisors, totient, hn, hempty] using hprime

end SymbolicAlgebra
