/-!
# Prime factors by trial division

A `Factorization` is the state of a trial division: the cofactor that is still to be split and the
next candidate for a divisor. `Factorization.next?` yields the next prime with its multiplicity, in
increasing order of the primes, and the state after it. The state is a value, so a sequence can be
kept and taken up again from any point.

The counting functions of elementary number theory read their answers off the factors.
-/

namespace SymbolicAlgebra

/-- How often `d` divides `n`, and what is left of `n` after that. -/
def divideOut (d n : Nat) : Nat × Nat :=
  if 1 < d ∧ 0 < n ∧ n % d = 0 then
    let rest := divideOut d (n / d)
    (rest.1 + 1, rest.2)
  else (0, n)
termination_by n
decreasing_by
  rename_i h
  exact Nat.div_lt_self h.2.1 h.1

/-- The cofactor is positive. -/
theorem divideOut_pos (d n : Nat) (hn : 0 < n) : 0 < (divideOut d n).2 := by
  fun_induction divideOut d n with
  | case1 n h rest ih =>
    exact ih (Nat.div_pos (Nat.le_of_dvd h.2.1 (Nat.dvd_of_mod_eq_zero h.2.2)) (by omega))
  | case2 n h => exact hn

/-- The cofactor is not larger than the number. -/
theorem divideOut_le (d n : Nat) : (divideOut d n).2 ≤ n := by
  fun_induction divideOut d n with
  | case1 n h rest ih => exact Nat.le_trans ih (Nat.div_le_self n d)
  | case2 n h => exact Nat.le_refl n

/-- Dividing out a divisor above one makes the number smaller. -/
theorem divideOut_lt (d n : Nat) (hd : 1 < d) (hn : 0 < n) (h : n % d = 0) :
    (divideOut d n).2 < n := by
  rw [divideOut, if_pos ⟨hd, hn, h⟩]
  exact Nat.lt_of_le_of_lt (divideOut_le d (n / d)) (Nat.div_lt_self hn hd)

/-- The least divisor of `n` among `d`, `d + 1`, …, up to the square root of `n`. -/
def divisorFrom? (n d : Nat) : Option Nat :=
  if d * d ≤ n then
    if n % d = 0 then some d else divisorFrom? n (d + 1)
  else none
termination_by n + 1 - d
decreasing_by
  rename_i h _
  have := Nat.le_trans (Nat.le_mul_self d) h
  omega

/-- What the search finds is a divisor, and not below the start. -/
theorem divisorFrom?_eq_some {n d q : Nat} (h : divisorFrom? n d = some q) :
    d ≤ q ∧ n % q = 0 := by
  fun_induction divisorFrom? n d with
  | case1 d hd hm => exact (Option.some.inj h) ▸ ⟨Nat.le_refl d, hm⟩
  | case2 d hd hm ih => exact ⟨Nat.le_of_succ_le (ih h).1, (ih h).2⟩
  | case3 d hd => exact nomatch h

/-- A trial division under way. -/
structure Factorization where
  /-- The cofactor that is still to be split. -/
  remaining : Nat
  /-- The next candidate for a divisor. -/
  divisor : Nat
  /-- A cofactor is never zero. -/
  remaining_pos : 0 < remaining
  /-- Trial division starts from two. -/
  two_le_divisor : 2 ≤ divisor

namespace Factorization

/-- Starts with a number; zero has no prime factors, like one. -/
def ofNat (n : Nat) : Factorization :=
  if h : 0 < n then ⟨n, 2, h, Nat.le_refl 2⟩ else ⟨1, 2, by decide, Nat.le_refl 2⟩

/--
The next prime with its multiplicity, and the state after it. A cofactor without a divisor up to its
square root is itself prime.
-/
def next? (s : Factorization) : Option ((Nat × Nat) × Factorization) :=
  if s.remaining = 1 then none
  else
    match h : divisorFrom? s.remaining s.divisor with
    | some d =>
      some ((d, (divideOut d s.remaining).1),
        ⟨(divideOut d s.remaining).2, d + 1, divideOut_pos d s.remaining s.remaining_pos,
          Nat.le_succ_of_le (Nat.le_trans s.two_le_divisor (divisorFrom?_eq_some h).1)⟩)
    | none => some ((s.remaining, 1), ⟨1, s.divisor, by decide, s.two_le_divisor⟩)

/-- Each step leaves a smaller cofactor. -/
theorem remaining_lt_of_next? {s t : Factorization} {f : Nat × Nat}
    (h : s.next? = some (f, t)) : t.remaining < s.remaining := by
  unfold next? at h
  split at h
  · exact nomatch h
  · rename_i hne
    split at h
    · rename_i d hd
      obtain ⟨-, rfl⟩ := Prod.mk.inj (Option.some.inj h)
      have hq := divisorFrom?_eq_some hd
      exact divideOut_lt d s.remaining
        (Nat.lt_of_lt_of_le (by decide) (Nat.le_trans s.two_le_divisor hq.1)) s.remaining_pos hq.2
    · obtain ⟨-, rfl⟩ := Prod.mk.inj (Option.some.inj h)
      have := s.remaining_pos
      show 1 < s.remaining
      omega

/-- All primes that are still to come, with their multiplicities. -/
def toList (s : Factorization) : List (Nat × Nat) :=
  match _h : s.next? with
  | none => []
  | some (f, t) => f :: t.toList
termination_by s.remaining
decreasing_by exact remaining_lt_of_next? _h

end Factorization

/-- The prime factors of the absolute value, with their multiplicities, in increasing order. -/
def primeFactors (n : Int) : List (Nat × Nat) := (Factorization.ofNat n.natAbs).toList

/-- The number of positive divisors of a positive number, and 0 for the others. -/
def countDivisors (n : Int) : Nat :=
  if n ≤ 0 then 0 else (primeFactors n).foldl (fun acc f => acc * (f.2 + 1)) 1

/-- A prime has exactly two positive divisors. -/
def isPrime (n : Int) : Bool := countDivisors n == 2

/-- Euler's totient of a positive number, and 0 for the others. -/
def totient (n : Int) : Nat :=
  if n ≤ 0 then 0
  else (primeFactors n).foldl (fun acc f => acc * Nat.pow f.1 (f.2 - 1) * (f.1 - 1)) 1

end SymbolicAlgebra
