import Mathlib.Algebra.BigOperators.Ring.List
import Mathlib.Algebra.BigOperators.Group.List.Lemmas
import Mathlib.Data.Nat.Prime.Basic
import Mathlib.Tactic.IntervalCases
import Mathlib.Tactic.Ring
import SymbolicAlgebra.Arithmetic.Factorization

/-!
# Prime factors by trial division

A trial division keeps the invariant that no prime below its candidate divides the cofactor,
`Factorization.Sieved`. Then the least divisor that is found is prime, and so is a cofactor without a
divisor up to its square root.

* `PrimePowers fs n` says that `fs` lists the prime powers of `n`, in increasing order of the primes.
* `Factorization.Yields s fs t` is a run: from the state `s` the pairs `fs` come one after the other,
  and `t` is the state after them.

`yields_primeFactors` puts the two together: every run comes to an end, what it yields are the prime
powers of the number, and a run that is taken up again from any state on the way yields the rest of
them.
-/

namespace SymbolicAlgebra

/-! ## Lists of prime powers -/

/-- The product of powers. -/
def powersProduct (fs : List (ℕ × ℕ)) : ℕ := (fs.map fun f => f.1 ^ f.2).prod

@[simp]
theorem powersProduct_nil : powersProduct [] = 1 := rfl

@[simp]
theorem powersProduct_cons (f : ℕ × ℕ) (fs : List (ℕ × ℕ)) :
    powersProduct (f :: fs) = f.1 ^ f.2 * powersProduct fs := rfl

/-- The list of the prime powers whose product is `n`, in increasing order of the primes. -/
structure PrimePowers (fs : List (ℕ × ℕ)) (n : ℕ) : Prop where
  prime : ∀ f ∈ fs, f.1.Prime
  pos : ∀ f ∈ fs, 1 ≤ f.2
  increasing : fs.Pairwise fun f g => f.1 < g.1
  product : powersProduct fs = n

namespace PrimePowers

variable {f : ℕ × ℕ} {fs : List (ℕ × ℕ)} {m n : ℕ}

theorem dvd (h : PrimePowers fs n) (hf : f ∈ fs) : f.1 ∣ n :=
  (dvd_pow_self f.1 (Nat.one_le_iff_ne_zero.mp (h.pos f hf))).trans
    (h.product ▸ List.dvd_prod (List.mem_map_of_mem hf))

theorem ne_zero (h : PrimePowers fs n) : n ≠ 0 := by
  rintro rfl
  obtain ⟨f, hf, hzero⟩ := List.mem_map.mp (List.prod_eq_zero_iff.mp h.product)
  exact (h.prime f hf).ne_zero (eq_zero_of_pow_eq_zero hzero)

/-- One has no prime powers. -/
theorem eq_nil (h : PrimePowers fs 1) : fs = [] := by
  refine List.eq_nil_iff_forall_not_mem.mpr fun f hf => ?_
  exact (h.prime f hf).one_lt.ne' (Nat.dvd_one.mp (h.dvd hf))

/-- A number has no more copies of a prime than it has binary digits. -/
theorem two_pow_le (h : PrimePowers fs n) (hf : f ∈ fs) : 2 ^ f.2 ≤ n := by
  have hdvd : f.1 ^ f.2 ∣ n := h.product ▸ List.dvd_prod (List.mem_map_of_mem hf)
  calc 2 ^ f.2 ≤ f.1 ^ f.2 := Nat.pow_le_pow_left (h.prime f hf).two_le f.2
    _ ≤ n := Nat.le_of_dvd (Nat.pos_of_ne_zero h.ne_zero) hdvd

/-- A power of a smaller prime goes to the front. -/
theorem cons (h : PrimePowers fs n) (hp : f.1.Prime) (hk : 1 ≤ f.2)
    (hlt : ∀ p, p.Prime → p ∣ n → f.1 < p) : PrimePowers (f :: fs) (f.1 ^ f.2 * n) where
  prime := List.forall_mem_cons.mpr ⟨hp, h.prime⟩
  pos := List.forall_mem_cons.mpr ⟨hk, h.pos⟩
  increasing := List.pairwise_cons.mpr
    ⟨fun g hg => hlt g.1 (h.prime g hg) (h.dvd hg), h.increasing⟩
  product := by rw [powersProduct_cons, h.product]

end PrimePowers

/-! ## Dividing out -/

/-- Dividing out splits a number into a power of the divisor and a cofactor that it does not
divide. -/
theorem divideOut_spec {d n : ℕ} (hd : 1 < d) (hn : 0 < n) :
    n = d ^ (divideOut d n).1 * (divideOut d n).2 ∧ ¬ d ∣ (divideOut d n).2 := by
  fun_induction divideOut d n with
  | case1 n h rest ih =>
    have hdvd : d ∣ n := Nat.dvd_of_mod_eq_zero h.2.2
    obtain ⟨hsplit, hnot⟩ := ih (Nat.div_pos (Nat.le_of_dvd hn hdvd) (by omega))
    refine ⟨?_, hnot⟩
    calc n = d * (n / d) := (Nat.mul_div_cancel' hdvd).symm
      _ = d * (d ^ rest.1 * rest.2) := by rw [← hsplit]
      _ = d ^ (rest.1 + 1) * rest.2 := by ring
  | case2 n h =>
    refine ⟨by simp, fun hdvd => h ⟨hd, hn, Nat.mod_eq_zero_of_dvd hdvd⟩⟩

/-- Dividing out a divisor takes out at least one copy of it. -/
theorem one_le_divideOut {d n : ℕ} (hd : 1 < d) (hn : 0 < n) (h : n % d = 0) :
    1 ≤ (divideOut d n).1 := by
  rw [divideOut, if_pos ⟨hd, hn, h⟩]
  exact Nat.le_add_left 1 _

/-! ## The search for a divisor -/

/-- A divisor that is found is the least one from the start of the search on. -/
theorem not_dvd_of_divisorFrom?_eq_some {n d q m : ℕ} (h : divisorFrom? n d = some q) (hd : d ≤ m)
    (hm : m < q) : ¬ m ∣ n := by
  fun_induction divisorFrom? n d with
  | case1 d hle hmod =>
    obtain rfl := Option.some.inj h
    omega
  | case2 d hle hmod ih =>
    rcases hd.eq_or_lt with rfl | hlt
    · exact fun hdvd => hmod (Nat.mod_eq_zero_of_dvd hdvd)
    · exact ih h hlt
  | case3 d hle => cases h

/-- Without a divisor in the search, all divisors from its start on lie beyond the square root. -/
theorem lt_mul_self_of_divisorFrom?_eq_none {n d m : ℕ} (h : divisorFrom? n d = none) (hd : d ≤ m)
    (hm : m ∣ n) : n < m * m := by
  fun_induction divisorFrom? n d with
  | case1 d hle hmod => cases h
  | case2 d hle hmod ih =>
    rcases hd.eq_or_lt with rfl | hlt
    · exact absurd (Nat.mod_eq_zero_of_dvd hm) hmod
    · exact ih h hlt
  | case3 d hle => exact lt_of_lt_of_le (not_le.mp hle) (Nat.mul_le_mul hd hd)

namespace Factorization

variable {s t u : Factorization} {f : ℕ × ℕ} {fs gs : List (ℕ × ℕ)}

/-! ## The invariant -/

/-- No prime below the candidate divides the cofactor. -/
def Sieved (s : Factorization) : Prop := ∀ p, p.Prime → p ∣ s.remaining → s.divisor ≤ p

/-- At the start no divisor has been tried, so there is nothing to have been left over. -/
theorem sieved_ofNat (n : ℕ) : (ofNat n).Sieved := by
  intro p hp _
  unfold ofNat
  split_ifs <;> exact hp.two_le

/-- The first divisor from the candidate on is prime: a prime divisor of it comes no earlier. -/
theorem Sieved.prime_of_eq_some (hs : s.Sieved) {q : ℕ}
    (h : divisorFrom? s.remaining s.divisor = some q) : q.Prime := by
  obtain ⟨hle, hmod⟩ := divisorFrom?_eq_some h
  have hdvd : q ∣ s.remaining := Nat.dvd_of_mod_eq_zero hmod
  have hq : q ≠ 1 := by have := s.two_le_divisor; omega
  obtain ⟨p, hp, hpq⟩ := Nat.exists_prime_and_dvd hq
  have hps : s.divisor ≤ p := hs p hp (hpq.trans hdvd)
  have hnlt : ¬ p < q := fun hlt => not_dvd_of_divisorFrom?_eq_some h hps hlt (hpq.trans hdvd)
  have hpq' : p = q := by
    have := Nat.le_of_dvd (by have := s.two_le_divisor; omega) hpq
    omega
  exact hpq' ▸ hp

/-- A cofactor without a divisor up to its square root is prime. -/
theorem Sieved.prime_of_eq_none (hs : s.Sieved) (hne : s.remaining ≠ 1)
    (h : divisorFrom? s.remaining s.divisor = none) : s.remaining.Prime := by
  by_contra hnot
  have hmin : s.remaining.minFac.Prime := Nat.minFac_prime hne
  have hle : s.divisor ≤ s.remaining.minFac := hs _ hmin (Nat.minFac_dvd _)
  have hlt := lt_mul_self_of_divisorFrom?_eq_none h hle (Nat.minFac_dvd _)
  have hsq := Nat.minFac_sq_le_self s.remaining_pos hnot
  rw [pow_two] at hsq
  omega

/-- What one step yields: the power of the least prime of the cofactor. -/
theorem Sieved.next? (hs : s.Sieved) (h : s.next? = some (f, t)) :
    f.1.Prime ∧ 1 ≤ f.2 ∧ s.remaining = f.1 ^ f.2 * t.remaining ∧
      (∀ p, p.Prime → p ∣ t.remaining → f.1 < p) ∧ t.Sieved := by
  unfold Factorization.next? at h
  split_ifs at h with hone
  split at h
  · next q hq =>
    obtain ⟨rfl, rfl⟩ := Prod.mk.inj (Option.some.inj h)
    have hprime : q.Prime := hs.prime_of_eq_some hq
    obtain ⟨hle, hmod⟩ := divisorFrom?_eq_some hq
    obtain ⟨hsplit, hnot⟩ := divideOut_spec hprime.one_lt s.remaining_pos
    -- A prime that is left is not below `q`, where no divisor was found, and it is not `q` itself.
    have hlater : ∀ p, p.Prime → p ∣ (divideOut q s.remaining).2 → q < p := by
      intro p hp hpd
      have hps : p ∣ s.remaining := hpd.trans (Dvd.intro_left _ hsplit.symm)
      rcases lt_trichotomy p q with hlt | rfl | hlt
      · exact absurd hps (not_dvd_of_divisorFrom?_eq_some hq (hs p hp hps) hlt)
      · exact absurd hpd hnot
      · exact hlt
    exact ⟨hprime, one_le_divideOut hprime.one_lt s.remaining_pos hmod, hsplit, hlater, hlater⟩
  · next hnone =>
    obtain ⟨rfl, rfl⟩ := Prod.mk.inj (Option.some.inj h)
    have hend : ∀ {b : ℕ} (p : ℕ), p.Prime → p ∣ 1 → b ≤ p := fun p hp hdvd =>
      absurd (Nat.dvd_one.mp hdvd) hp.ne_one
    exact ⟨hs.prime_of_eq_none hone hnone, le_rfl, by simp, hend, hend⟩

/-! ## Runs -/

/-- From the state `s` the pairs `fs` come one after the other, and `t` is the state after them. -/
inductive Yields : Factorization → List (ℕ × ℕ) → Factorization → Prop
  | refl (s : Factorization) : Yields s [] s
  | step {s t u : Factorization} {f : ℕ × ℕ} {fs : List (ℕ × ℕ)} (h : s.next? = some (f, t))
      (hrest : Yields t fs u) : Yields s (f :: fs) u

/-- The factors are the next one and those of the state after it. -/
theorem toList_of_next?_eq_some (h : s.next? = some (f, t)) : s.toList = f :: t.toList := by
  rw [toList]
  split
  · next hnone => rw [h] at hnone; cases hnone
  · next f' t' hsome =>
    obtain ⟨rfl, rfl⟩ := Prod.mk.inj (Option.some.inj (h.symm.trans hsome))
    rfl

/-- A cofactor is left as long as a pair comes. -/
theorem remaining_eq_one (h : s.next? = none) : s.remaining = 1 := by
  unfold Factorization.next? at h
  split_ifs at h with hone
  · exact hone
  · split at h <;> cases h

/-- A run that goes on to its end yields the list of all pairs. -/
theorem yields_toList (s : Factorization) : ∃ t, s.Yields s.toList t ∧ t.next? = none := by
  fun_induction toList s with
  | case1 s h => exact ⟨s, .refl s, h⟩
  | case2 s f t h ih =>
    obtain ⟨u, hrun, hend⟩ := ih
    exact ⟨u, .step h hrun, hend⟩

/-- What is yielded comes first in the list of all pairs, and the rest is the list of the state that
is reached. -/
theorem Yields.toList_eq (h : s.Yields fs t) : s.toList = fs ++ t.toList := by
  induction h with
  | refl s => rfl
  | step h _ ih => rw [toList_of_next?_eq_some h, ih, List.cons_append]

/-- What was sieved stays sieved while factors are yielded. -/
theorem Yields.sieved (h : s.Yields fs t) (hs : s.Sieved) : t.Sieved := by
  induction h with
  | refl s => exact hs
  | step h _ ih => exact ih (hs.next? h).2.2.2.2

/-- A run splits off what it yields from the cofactor. -/
theorem Yields.remaining_eq (h : s.Yields fs t) (hs : s.Sieved) :
    s.remaining = powersProduct fs * t.remaining := by
  induction h with
  | refl s => rw [powersProduct_nil, one_mul]
  | step h _ ih =>
    obtain ⟨-, -, hsplit, -, ht⟩ := hs.next? h
    rw [hsplit, ih ht, powersProduct_cons, mul_assoc]

/-- A run to the end yields the prime powers of the cofactor it starts with. -/
theorem Sieved.primePowers (hs : s.Sieved) : PrimePowers s.toList s.remaining := by
  obtain ⟨t, hrun, hend⟩ := yields_toList s
  generalize s.toList = fs at hrun
  -- Each pair goes before those that come after it, whose primes are larger.
  induction hrun with
  | refl s => exact ⟨by simp, by simp, .nil, (remaining_eq_one hend).symm⟩
  | step h _ ih =>
    obtain ⟨hprime, hpos, hsplit, hlt, ht⟩ := hs.next? h
    rw [hsplit]
    exact (ih ht hend).cons hprime hpos hlt

/-- All of a positive number remains at the start. -/
theorem remaining_ofNat {n : ℕ} (hn : 0 < n) : (ofNat n).remaining = n := by
  rw [ofNat, dif_pos hn]

/-- Nothing remains to be factored of zero, one, or below. -/
theorem remaining_ofNat_of_le_one {n : ℕ} (hn : n ≤ 1) : (ofNat n).remaining = 1 := by
  interval_cases n <;> rfl

end Factorization

open Factorization

/-- The factors of an integer other than zero are the prime powers of its absolute value. -/
theorem primePowers_primeFactors {n : ℤ} (hn : n ≠ 0) :
    PrimePowers (primeFactors n) n.natAbs := by
  have h : PrimePowers (primeFactors n) (ofNat n.natAbs).remaining :=
    (sieved_ofNat n.natAbs).primePowers
  rwa [remaining_ofNat (Int.natAbs_pos.mpr hn)] at h

/-- Zero and the units have no prime factors. -/
theorem primeFactors_eq_nil {n : ℤ} (hn : n.natAbs ≤ 1) : primeFactors n = [] := by
  have h : PrimePowers (primeFactors n) (ofNat n.natAbs).remaining :=
    (sieved_ofNat n.natAbs).primePowers
  rw [remaining_ofNat_of_le_one hn] at h
  exact h.eq_nil

/--
The prime factors of a number come one after the other until none is left: they are primes with
positive multiplicities in increasing order, and their powers make up the absolute value. A counter
of `w` bits holds every multiplicity of a number below `2 ^ 2 ^ w`. A run from any state that is
reached on the way ends too, and yields what has not been yielded before: the prime powers of the
cofactor that is left.
-/
theorem yields_primeFactors (n : ℤ) :
    (∃ t, (ofNat n.natAbs).Yields (primeFactors n) t ∧ t.next? = none) ∧
    (n ≠ 0 → PrimePowers (primeFactors n) n.natAbs) ∧
    (n.natAbs ≤ 1 → primeFactors n = []) ∧
    (∀ w, n.natAbs < 2 ^ 2 ^ w → ∀ f ∈ primeFactors n, f.2 < 2 ^ w) ∧
    (∀ fs s, (ofNat n.natAbs).Yields fs s →
      primeFactors n = fs ++ s.toList ∧ (∃ t, s.Yields s.toList t ∧ t.next? = none) ∧
        PrimePowers s.toList s.remaining ∧
        (n ≠ 0 → powersProduct fs * s.remaining = n.natAbs)) := by
  have hs : (ofNat n.natAbs).Sieved := sieved_ofNat n.natAbs
  refine ⟨yields_toList _, primePowers_primeFactors, primeFactors_eq_nil, ?_, ?_⟩
  · intro w hw f hf
    have hn : n ≠ 0 := by
      rintro rfl
      rw [primeFactors_eq_nil (by decide)] at hf
      cases hf
    have hle : 2 ^ f.2 ≤ n.natAbs := (primePowers_primeFactors hn).two_pow_le hf
    exact (Nat.pow_lt_pow_iff_right Nat.one_lt_two).mp (hle.trans_lt hw)
  · intro fs s hrun
    refine ⟨hrun.toList_eq, yields_toList s, (hrun.sieved hs).primePowers, fun hn => ?_⟩
    rw [← hrun.remaining_eq hs, remaining_ofNat (Int.natAbs_pos.mpr hn)]

end SymbolicAlgebra
