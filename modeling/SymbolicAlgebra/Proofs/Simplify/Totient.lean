import SymbolicAlgebra.Proofs.Arithmetic.Decimal
import SymbolicAlgebra.Proofs.Arithmetic.Divisors
import SymbolicAlgebra.Proofs.Expr.Evaluation
import SymbolicAlgebra.Proofs.Expr.Traversal
import SymbolicAlgebra.Simplify.Identities

/-!
# Totients of prime powers

The pattern for `phi(p ^ x)` does not wait for the exponent: it takes any `x` that is not a literal,
and lowers it by one. What variables of `x` stand for comes later, `Expr.assign`, and only then are
powers and totients computed. `Totient.preserves_value_iff` says for which exponents the pattern may
be applied first.

Up to the machine exponents both ways are exact. Beyond them powers are computed in double
precision, which gives an infinity or zero. The power function of doubles has no definition here;
all that is used of it is `Number.PowerSaturates`, which says nothing about machine exponents. The
power is rounded also where the value of the exponent is not an integer. No such power of a prime is
whole, but it may be rounded to a whole number and so get a totient. `Number.NotRoundedWhole` leaves
this case out, except for powers that are rounded to zero.
-/

namespace SymbolicAlgebra

/-! ## Values for variables -/

namespace Expr

/-- Puts integers in the places of variables. The first value of a variable counts. -/
def assign (σ : List (String × ℤ)) (e : Expr) : Expr :=
  σ.foldl (fun e a => e.substitute a.1 (.int a.2)) e

variable (σ : List (String × ℤ))

/-- The first variable gets its value first. -/
@[simp]
theorem assign_cons (a : String × ℤ) (e : Expr) :
    e.assign (a :: σ) = (e.substitute a.1 (.int a.2)).assign σ := rfl

/-- A number has no variables to get values. -/
@[simp]
theorem assign_number (n : Number) : (Expr.number n).assign σ = .number n := by
  induction σ with
  | nil => rfl
  | cons a σ ih => exact ih

@[simp]
theorem assign_int (k : ℤ) : (Expr.int k).assign σ = .int k := assign_number σ (.int k)

/-- Values are put into the operands of a node if one value is. -/
theorem assign_operands {node : List Expr → Expr} {es : List Expr}
    (h : ∀ x v es, (node es).substitute x v = node (es.map fun e => e.substitute x v)) :
    (node es).assign σ = node (es.map (assign σ)) := by
  induction σ generalizing es with
  | nil => exact congrArg node (List.map_id es).symm
  | cons a σ ih => rw [assign_cons, h, ih, List.map_map]; rfl

/-- The terms of a sum get their values, and so do all other operands. -/
@[simp]
theorem assign_sum (es : List Expr) : (Expr.sum es).assign σ = .sum (es.map (assign σ)) :=
  assign_operands σ substitute_sum

@[simp]
theorem assign_product (es : List Expr) :
    (Expr.product es).assign σ = .product (es.map (assign σ)) :=
  assign_operands σ substitute_product

@[simp]
theorem assign_call (f : Func) (a : Expr) : (call f a).assign σ = call f (a.assign σ) :=
  assign_operands σ fun x v => substitute_apply x v f

@[simp]
theorem assign_power (b x : Expr) :
    (Expr.power b x).assign σ = .power (b.assign σ) (x.assign σ) := by
  induction σ generalizing b x with
  | nil => rfl
  | cons a σ ih => rw [assign_cons, substitute_power, ih]; rfl

/-! ## Values of totients -/

/-- An integer evaluates to itself. -/
theorem eval_int (k : ℤ) : (Expr.int k).eval = .ok (.int k) := rfl

/-- A totient has a value if its argument is an integer. -/
theorem eval_phi_eq_ok_iff {a : Expr} {v : Number} :
    (call .phi a).eval = .ok v ↔ ∃ n, a.eval = .ok (.int n) ∧ v = .int (totient n) := by
  rw [call, eval, evalAll, evalAll]
  cases ha : a.eval with
  | error fault => simp [bind, Except.bind]
  | ok m =>
    cases m with
    | int n => simp [bind, Except.bind, pure, Except.pure, Func.eval?, Number.toInt?, eq_comm]
    | _ => simp [bind, Except.bind, pure, Except.pure, Func.eval?, Number.toInt?]

end Expr

/-- A number that is recognized as a prime is one. -/
theorem exists_prime_of_isPrime {p : ℤ} (hp : isPrime p = true) : ∃ q : ℕ, q.Prime ∧ p = q := by
  have hcount : countDivisors p = 2 := beq_iff_eq.mp hp
  have hpos : 0 < p := by
    by_contra h
    rw [countDivisors, if_pos (not_lt.mp h)] at hcount
    exact absurd hcount (by decide)
  rw [countDivisors_of_pos hpos, card_divisors_eq_two_iff] at hcount
  exact ⟨p.natAbs, hcount, by omega⟩

/-- The totient of a power of a prime, with a positive exponent. -/
theorem totient_prime_pow_succ {r : ℕ} (hr : r.Prime) (i : ℕ) :
    totient ((r : ℤ) ^ (i + 1)) = r ^ i * (r - 1) := by
  rw [totient_of_pos (pow_pos (by exact_mod_cast hr.pos) _), Int.natAbs_pow, Int.natAbs_natCast,
    Nat.totient_prime_pow_succ hr]

/-! ## Powers of primes -/

namespace Number

variable {p k n : ℤ}

/-- The double that a power of integers is computed as if the exponent is no machine word. -/
def doublePower (p k : ℤ) : Float :=
  Float.pow (ExtReal.ofInt p).toDouble (ExtReal.ofInt k).toDouble

/-- In double precision, a power with an exponent beyond the machine words is infinite or zero. -/
structure PowerSaturates (p k : ℤ) : Prop where
  /-- The power overflows. -/
  overflow : 2 ^ 31 ≤ k → (doublePower p k).isInf = true
  /-- The power underflows. -/
  underflow : k < -2 ^ 31 → doublePower p k = 0

/-- The power with an exponent that is not an integer is not taken for a whole number, unless it
underflows, and the power with the exponent less one does so too. -/
def NotRoundedWhole (p : ℤ) (x : Number) : Prop :=
  ((int p).pow x).toInt? = none ∨ ((int p).pow x = 0 ∧ (int p).pow (0 + x + .int (-1)) = 0)

/-- For machine words there is nothing to overflow or underflow. -/
theorem powerSaturates_of_word (hlo : -2 ^ 31 ≤ k) (hhi : k < 2 ^ 31) : PowerSaturates p k where
  overflow := fun h => absurd h (by omega)
  underflow := fun h => absurd h (by omega)

/-- The power with a machine word as exponent is exact. -/
theorem pow_int_of_word (hp : 0 < p) (hlo : -2 ^ 31 ≤ k) (hhi : k < 2 ^ 31) :
    (int p).pow (.int k) = ofRat ((p : ℚ) ^ k) := by
  have hp0 : (p : ℚ) ≠ 0 := by exact_mod_cast hp.ne'
  exact pow_eq rfl (if_pos ⟨hlo, hhi⟩) fun h => absurd h hp0

/-- The power with any other exponent is computed in double precision. -/
theorem pow_int_of_not_word (hp : 0 < p) (hk : ¬ (-2 ^ 31 ≤ k ∧ k < 2 ^ 31)) :
    (int p).pow (.int k) = ofDouble (doublePower p k) := by
  have hvalue : 0 < (Decimal.ofInt p).toRat :=
    (Decimal.approximates_ofInt p).pos (by rw [Decimal.roundoff_precision]; norm_num)
      (by exact_mod_cast hp)
  -- The base is compared with zero after it is rounded.
  have hsign : (ExtReal.ofInt p).isNegative = false := by
    show (some ((Decimal.ofInt p).order Floating.zero) == some Ordering.lt) = false
    rw [Floating.order_eq, Floating.toRat_zero, (cmp_eq_gt_iff _ _).mpr hvalue]
    rfl
  obtain ⟨x, hx, hpow⟩ := pow_of_not_word (toRat?_int p) (if_neg hk : toSignedWord? 32 k = none)
  obtain rfl : ExtReal.ofInt p = x := Option.some.inj hx
  rw [hpow, hsign, if_neg Bool.false_ne_true]
  rfl

/-- The double zero becomes the integer zero. -/
theorem ofDouble_zero : ofDouble 0 = .int 0 := by decide +kernel

/-- An infinite double becomes no integer. -/
theorem toInt?_ofDouble_of_isInf {x : Float} (h : x.isInf = true) : (ofDouble x).toInt? = none := by
  rw [ofDouble, ExtReal.ofDouble]
  split_ifs <;> rfl

/-- A power of a prime is an integer for an exponent that is not negative; far below zero it is
rounded to zero. -/
theorem pow_eq_int_cases (hp : 1 < p) (hsat : PowerSaturates p k)
    (h : (int p).pow (.int k) = .int n) :
    (∃ j : ℕ, k = j ∧ j < 2 ^ 31 ∧ n = p ^ j) ∨ (k < -2 ^ 31 ∧ n = 0) := by
  have hpos : 0 < p := zero_lt_one.trans hp
  by_cases hword : -2 ^ 31 ≤ k ∧ k < 2 ^ 31
  · left
    rw [pow_int_of_word hpos hword.1 hword.2] at h
    have hn : (p : ℚ) ^ k = n := by
      have hvalue := congrArg toRat? h
      rw [toRat?_ofRat] at hvalue
      exact Option.some.inj hvalue
    by_cases hk : 0 ≤ k
    · lift k to ℕ using hk
      refine ⟨k, rfl, by omega, ?_⟩
      rw [zpow_natCast] at hn
      exact_mod_cast hn.symm
    · -- A negative power lies strictly between zero and one.
      have hone : (1 : ℚ) < p := by exact_mod_cast hp
      have hlow : (0 : ℚ) < n := hn ▸ zpow_pos (zero_lt_one.trans hone) k
      have hhigh : (n : ℚ) < 1 := hn ▸ zpow_lt_one_of_neg₀ hone (not_le.mp hk)
      have h0 : 0 < n := by exact_mod_cast hlow
      have h1 : n < 1 := by exact_mod_cast hhigh
      omega
  · right
    rw [pow_int_of_not_word hpos hword] at h
    by_cases hk : k < -2 ^ 31
    · rw [hsat.underflow hk, ofDouble_zero] at h
      exact ⟨hk, (Number.int.inj h).symm⟩
    · have hinf : (ofDouble (doublePower p k)).toInt? = none :=
        toInt?_ofDouble_of_isInf (hsat.overflow (by omega))
      rw [h] at hinf
      cases hinf

/-- The totient of a power of a prime is the power with the exponent less one, times the prime less
one, unless the exponent is zero. -/
theorem exists_pow_sub_one (hp : isPrime p = true) (hk : k ≠ 0) (hsat : PowerSaturates p k)
    (hsat' : PowerSaturates p (k - 1)) (h : (int p).pow (.int k) = .int n) :
    ∃ q : ℚ, ((int p).pow (.int (k - 1))).toRat? = some q ∧ q * ((p - 1 : ℤ) : ℚ) = totient n := by
  obtain ⟨r, hr, rfl⟩ := exists_prime_of_isPrime hp
  have hone : 1 < (r : ℤ) := by exact_mod_cast hr.one_lt
  have hpos : 0 < (r : ℤ) := zero_lt_one.trans hone
  rcases pow_eq_int_cases hone hsat h with ⟨j, rfl, hj, rfl⟩ | ⟨hlow, rfl⟩
  · obtain ⟨i, rfl⟩ : ∃ i, j = i + 1 := ⟨j - 1, by omega⟩
    refine ⟨(r : ℚ) ^ i, ?_, ?_⟩
    · rw [show ((i + 1 : ℕ) : ℤ) - 1 = i by omega, pow_int_of_word hpos (by omega) (by omega),
        toRat?_ofRat, zpow_natCast, Int.cast_natCast]
    · rw [totient_prime_pow_succ hr]
      push_cast [hr.one_le]
      rfl
  · refine ⟨0, ?_, by rw [zero_mul]; rfl⟩
    rw [pow_int_of_not_word hpos (by omega), hsat'.underflow (by omega), ofDouble_zero]
    rfl

end Number

/-! ## The pattern -/

namespace Totient

open SymbolicAlgebra.Expr

/-- The totient of a power of `p`. -/
def phiPower (p : ℤ) (x : Expr) : Expr := .call .phi (.power (.int p) x)

variable {p k : ℤ} {x y : Expr} {σ : List (String × ℤ)} {v : Number} {q : ℚ}

/-- The totient of a power evaluates if the power evaluates to an integer. -/
theorem eval_phiPower_eq_ok_iff :
    ((phiPower p x).assign σ).eval = .ok v ↔
      ∃ m n, (x.assign σ).eval = .ok m ∧ (Number.int p).pow m = .int n ∧ v = .int (totient n) := by
  have hpower : ((Expr.power (.int p) x).assign σ).eval =
      (x.assign σ).eval.map fun m => (Number.int p).pow m := by
    rw [assign_power, assign_int, eval, eval_int]
    cases (x.assign σ).eval <;> rfl
  rw [phiPower, assign_call, eval_phi_eq_ok_iff, hpower]
  cases (x.assign σ).eval with
  | error fault => simp [Except.map]
  | ok m => simp [Except.map]

/-- The product with a power of the prime evaluates to the product of both values. -/
theorem eval_product_power {n : Number} (hy : (y.assign σ).eval = .ok n)
    (hq : ((Number.int p).pow n).toRat? = some q) :
    ((Expr.product [.power (.int p) y, .int (p - 1)]).assign σ).eval =
      .ok (Number.ofRat (q * ((p - 1 : ℤ) : ℚ))) := by
  have hpower : ((Expr.power (.int p) y).assign σ).eval = .ok ((Number.int p).pow n) := by
    rw [assign_power, assign_int, eval, eval_int, hy]
    rfl
  have hproduct : Number.mul (Number.mul 1 ((Number.int p).pow n)) (.int (p - 1)) =
      Number.ofRat (1 * q * ((p - 1 : ℤ) : ℚ)) :=
    Number.mul_eq (Number.toRat?_mul (p := 1) rfl hq) rfl
  -- The evaluation of a product starts with the factor one.
  rw [assign_product, List.map_cons, List.map_singleton, eval, evalFold, hpower, assign_int]
  show Except.ok (Number.mul (Number.mul 1 ((Number.int p).pow n)) (.int (p - 1))) = _
  rw [hproduct, one_mul]

/-- An exponent is lowered unless it is a literal other than a positive integer. -/
theorem loweredExponent?_eq_some (h : loweredExponent? x = some y) :
    (∃ k, x = .int k ∧ 0 < k ∧ y = .int (k - 1)) ∨
      (x.toNumber? = none ∧ y = .sum [x, .int (-1)]) := by
  unfold loweredExponent? at h
  split at h
  · next k =>
    split_ifs at h with hk
    exact .inl ⟨k, rfl, hk, (Option.some.inj h).symm⟩
  · cases h
  · next hint hnumber =>
    refine .inr ⟨?_, (Option.some.inj h).symm⟩
    cases x with
    | number n => exact absurd rfl (hnumber n)
    | _ => rfl

/-- An exponent that is no literal is lowered by adding minus one. -/
theorem loweredExponent?_of_not_literal (hx : x.toNumber? = none) :
    loweredExponent? x = some (.sum [x, .int (-1)]) := by
  cases x with
  | number n => cases hx
  | _ => rfl

/-- The lowered exponent evaluates to the exponent less one, by the addition of numbers. -/
theorem eval_sum_minus_one {n : Number} (hx : (x.assign σ).eval = .ok n) :
    ((Expr.sum [x, .int (-1)]).assign σ).eval = .ok (0 + n + .int (-1)) := by
  rw [assign_sum, List.map_cons, List.map_singleton, assign_int, eval, evalFold, hx]
  rfl

/-- What the lowered exponent stands for is one less. -/
theorem eval_loweredExponent? (h : loweredExponent? x = some y)
    (hx : (x.assign σ).eval = .ok (.int k)) : (y.assign σ).eval = .ok (.int (k - 1)) := by
  rcases loweredExponent?_eq_some h with ⟨l, rfl, -, rfl⟩ | ⟨-, rfl⟩
  · rw [assign_int, eval_int] at hx ⊢
    obtain rfl : l = k := Number.int.inj (Except.ok.inj hx)
    rfl
  · have hvalue : (0 : ℚ) + k + ((-1 : ℤ) : ℚ) = ((k - 1 : ℤ) : ℚ) := by push_cast; ring
    rw [eval_sum_minus_one hx, Number.add_eq (Number.toRat?_add (p := 0) rfl rfl) rfl, hvalue,
      Number.ofRat_intCast]

/-- The pattern changes the totient of a power of a prime wherever it lowers the exponent. -/
theorem ofPrimePower_of_eq_some (hp : isPrime p = true) (h : loweredExponent? x = some y) :
    ofPrimePower (phiPower p x) = .product [.power (.int p) y, .int (p - 1)] := by
  have hliteral : primeLiteral? (.int p) = some p := by
    show (some p).filter isPrime = some p
    rw [Option.filter_some, if_pos hp]
  simp [ofPrimePower, phiPower, call, argOf?, hliteral, h, productOf]

/-- Without a lowered exponent, the pattern leaves the totient alone. -/
theorem ofPrimePower_of_eq_none (h : loweredExponent? x = none) :
    ofPrimePower (phiPower p x) = phiPower p x := by
  simp [ofPrimePower, phiPower, call, argOf?, h]

/-- A prime to the power zero has the totient one. -/
theorem eval_phiPower_zero (hp : isPrime p = true) (hx : (x.assign σ).eval = .ok 0) :
    ((phiPower p x).assign σ).eval = .ok 1 := by
  obtain ⟨r, hr, rfl⟩ := exists_prime_of_isPrime hp
  have hpower : (Number.int r).pow (.int 0) = .int 1 := by
    rw [Number.pow_int_of_word (by exact_mod_cast hr.pos) (by decide) (by decide), zpow_zero]
    rfl
  have hphi : totient 1 = 1 := by decide +kernel
  exact eval_phiPower_eq_ok_iff.mpr ⟨0, 1, hx, hpower, by rw [hphi]; rfl⟩

/-- The pattern makes less than one of it. -/
theorem eval_ofPrimePower_zero (hp : isPrime p = true) (hliteral : x.toNumber? = none)
    (hx : (x.assign σ).eval = .ok 0) :
    ((ofPrimePower (phiPower p x)).assign σ).eval = .ok (Number.ofRat ((p - 1) / p)) := by
  obtain ⟨r, hr, rfl⟩ := exists_prime_of_isPrime hp
  have hlower := loweredExponent?_of_not_literal hliteral
  have hpower : ((Number.int r).pow (.int (0 - 1))).toRat? = some ((r : ℚ) ^ (-1 : ℤ)) := by
    rw [Number.pow_int_of_word (by exact_mod_cast hr.pos) (by decide) (by decide),
      Number.toRat?_ofRat]
    rfl
  have hy := eval_loweredExponent? hlower hx
  rw [ofPrimePower_of_eq_some hp hlower, eval_product_power hy hpower, zpow_neg_one, inv_mul_eq_div]
  push_cast
  rfl

/-- Where the pattern lowers the exponent, the value stays if the exponent is not zero. -/
theorem eval_ofPrimePower (hp : isPrime p = true) (h : loweredExponent? x = some y)
    (hx : (x.assign σ).eval = .ok (.int k)) (hk : k ≠ 0) (hsat : Number.PowerSaturates p k)
    (hsat' : Number.PowerSaturates p (k - 1)) (hv : ((phiPower p x).assign σ).eval = .ok v) :
    ((ofPrimePower (phiPower p x)).assign σ).eval = .ok v := by
  obtain ⟨m, n, hm, hpower, rfl⟩ := eval_phiPower_eq_ok_iff.mp hv
  obtain rfl : m = .int k := Except.ok.inj (hm.symm.trans hx)
  obtain ⟨q, hq, hvalue⟩ := Number.exists_pow_sub_one hp hk hsat hsat' hpower
  rw [ofPrimePower_of_eq_some hp h, eval_product_power (eval_loweredExponent? h hx) hq, hvalue,
    ← Int.cast_natCast, Number.ofRat_intCast]

/-- Where the power underflows, the totient is zero before and after. -/
theorem eval_ofPrimePower_underflow {n : Number} (hp : isPrime p = true)
    (hliteral : x.toNumber? = none) (hx : (x.assign σ).eval = .ok n)
    (hpower : (Number.int p).pow n = 0) (hlower : (Number.int p).pow (0 + n + .int (-1)) = 0)
    (hv : ((phiPower p x).assign σ).eval = .ok v) :
    ((ofPrimePower (phiPower p x)).assign σ).eval = .ok v := by
  obtain ⟨m, l, hm, hl, rfl⟩ := eval_phiPower_eq_ok_iff.mp hv
  obtain rfl : m = n := Except.ok.inj (hm.symm.trans hx)
  obtain rfl : 0 = l := Number.int.inj (hpower.symm.trans hl)
  have hzero : ((Number.int p).pow (0 + m + .int (-1))).toRat? = some 0 := by
    rw [hlower]
    rfl
  rw [ofPrimePower_of_eq_some hp (loweredExponent?_of_not_literal hliteral),
    eval_product_power (eval_sum_minus_one hx) hzero, zero_mul]
  rfl

/-- The pattern keeps a value unless it lowers an exponent that becomes zero. -/
theorem eval_ofPrimePower_of_ne_zero (hp : isPrime p = true)
    (hround : x.toNumber? = none → ∀ n, (x.assign σ).eval = .ok n → n.toInt? = none →
      Number.NotRoundedWhole p n)
    (hsat : ∀ k, (x.assign σ).eval = .ok (.int k) →
      Number.PowerSaturates p k ∧ Number.PowerSaturates p (k - 1))
    (hzero : x.toNumber? = none → (x.assign σ).eval ≠ .ok 0)
    (hv : ((phiPower p x).assign σ).eval = .ok v) :
    ((ofPrimePower (phiPower p x)).assign σ).eval = .ok v := by
  cases hlower : loweredExponent? x with
  | none => rwa [ofPrimePower_of_eq_none hlower]
  | some y =>
    obtain ⟨m, n, hm, hpower, -⟩ := eval_phiPower_eq_ok_iff.mp hv
    rcases loweredExponent?_eq_some hlower with ⟨k, rfl, hk, -⟩ | ⟨hliteral, -⟩
    · have hx : ((Expr.int k).assign σ).eval = .ok (.int k) := by rw [assign_int, eval_int]
      exact eval_ofPrimePower hp hlower hx hk.ne' (hsat k hx).1 (hsat k hx).2 hv
    · by_cases hint : m.toInt? = none
      -- An exponent that is no integer leads to a whole power only by underflow.
      · rcases hround hliteral m hm hint with hnone | ⟨hunder, hunder'⟩
        · rw [hpower] at hnone
          cases hnone
        · exact eval_ofPrimePower_underflow hp hliteral hm hunder hunder' hv
      · obtain ⟨k, rfl⟩ : ∃ k, m = .int k := by
          cases m with
          | int k => exact ⟨k, rfl⟩
          | _ => exact absurd rfl hint
        have hk : k ≠ 0 := by
          rintro rfl
          exact hzero hliteral hm
        exact eval_ofPrimePower hp hlower hm hk (hsat k hm).1 (hsat k hm).2 hv

/-- A positive power of a prime has the totient of the closed form. -/
theorem eval_phiPower_succ (hp : isPrime p = true) {j : ℕ} (hj : j + 1 < 2 ^ 31)
    (hx : (x.assign σ).eval = .ok (.int (j + 1))) :
    ((phiPower p x).assign σ).eval = .ok (.int (p ^ j * (p - 1))) := by
  obtain ⟨r, hr, rfl⟩ := exists_prime_of_isPrime hp
  have hpower : (Number.int r).pow (.int (j + 1)) = .int ((r : ℤ) ^ (j + 1)) := by
    rw [Number.pow_int_of_word (by exact_mod_cast hr.pos) (by omega) (by omega),
      ← Number.ofRat_intCast]
    norm_cast
  refine eval_phiPower_eq_ok_iff.mpr ⟨_, _, hx, hpower, ?_⟩
  rw [totient_prime_pow_succ hr]
  push_cast [hr.one_le]
  rfl

/--
The totient of a power of a prime may be rewritten before the exponent `x` has a value, whatever
integers are then put into it, unless the exponent becomes zero: with a literal exponent nothing can
happen, and any other one is lowered, which is right for each of its values but zero. There the
totient is one and the result is less. For a positive machine exponent both have the value of the
closed form. Powers that are not whole are assumed not to be rounded to whole numbers.
-/
theorem preserves_value_iff (hp : isPrime p = true)
    (hround : x.toNumber? = none → ∀ n, (x.assign σ).eval = .ok n → n.toInt? = none →
      Number.NotRoundedWhole p n)
    (hsat : ∀ k, (x.assign σ).eval = .ok (.int k) →
      Number.PowerSaturates p k ∧ Number.PowerSaturates p (k - 1)) :
    ((∀ v, ((phiPower p x).assign σ).eval = .ok v →
        ((ofPrimePower (phiPower p x)).assign σ).eval = .ok v) ↔
      (x.toNumber? = none → (x.assign σ).eval ≠ .ok 0)) ∧
    (x.toNumber? = none → (x.assign σ).eval = .ok 0 →
      ((phiPower p x).assign σ).eval = .ok 1 ∧
      ((ofPrimePower (phiPower p x)).assign σ).eval = .ok (Number.ofRat ((p - 1) / p))) ∧
    (∀ j : ℕ, j + 1 < 2 ^ 31 → (x.assign σ).eval = .ok (.int (j + 1)) →
      ((phiPower p x).assign σ).eval = .ok (.int (p ^ j * (p - 1))) ∧
      ((ofPrimePower (phiPower p x)).assign σ).eval = .ok (.int (p ^ j * (p - 1)))) := by
  refine ⟨⟨fun hkeeps hliteral hx => ?_, fun hzero v hv => ?_⟩, fun hliteral hx => ?_,
    fun j hj hx => ?_⟩
  · -- One is not one less than the prime over the prime.
    have hone := hkeeps 1 (eval_phiPower_zero hp hx)
    rw [eval_ofPrimePower_zero hp hliteral hx, Number.one_eq_ofRat] at hone
    have hquotient : ((p : ℚ) - 1) / p = 1 := Number.ofRat_injective (Except.ok.inj hone)
    obtain ⟨r, hr, rfl⟩ := exists_prime_of_isPrime hp
    have hne : ((r : ℤ) : ℚ) ≠ 0 := by exact_mod_cast hr.ne_zero
    rw [div_eq_one_iff_eq hne] at hquotient
    linarith
  · exact eval_ofPrimePower_of_ne_zero hp hround hsat hzero hv
  · exact ⟨eval_phiPower_zero hp hx, eval_ofPrimePower_zero hp hliteral hx⟩
  · have hzero : (x.assign σ).eval ≠ .ok 0 := by
      intro h
      have hk : (j : ℤ) + 1 = 0 := Number.int.inj (Except.ok.inj (hx.symm.trans h))
      omega
    have hvalue := eval_phiPower_succ hp hj hx
    exact ⟨hvalue, eval_ofPrimePower_of_ne_zero hp hround hsat (fun _ => hzero) hvalue⟩

/-- The totient of `3 ^ (n + 1)` where `n` is three. -/
theorem preserves_value_eighty_one :
    let e := phiPower 3 (.sum [.var "n", .int 1])
    (e.assign [("n", 3)]).eval = .ok 54 ∧ ((ofPrimePower e).assign [("n", 3)]).eval = .ok 54 := by
  have hx : ((Expr.sum [.var "n", .int 1]).assign [("n", 3)]).eval = .ok (.int (3 + 1)) := by
    have hsum : Number.add (Number.add 0 (.int 3)) (.int 1) = .int (3 + 1) := by decide +kernel
    rw [assign_sum, List.map_cons, List.map_singleton, assign_int, assign_cons, substitute_var_self,
      ← hsum]
    rfl
  have hint : ∀ n, ((Expr.sum [.var "n", .int 1]).assign [("n", 3)]).eval = .ok n → n = .int 4 :=
    fun n hn => (Except.ok.inj (hx.symm.trans hn)).symm
  have hvalue := (preserves_value_iff (p := 3) (by decide +kernel)
    (fun _ n hn hnone => by
      rw [hint n hn] at hnone
      cases hnone)
    (fun k hk => by
      obtain rfl : k = 4 := Number.int.inj (hint _ hk)
      exact ⟨Number.powerSaturates_of_word (by decide) (by decide),
        Number.powerSaturates_of_word (by decide) (by decide)⟩)).2.2 3 (by decide) hx
  exact hvalue

/-- The totient of `2 ^ k` is rewritten to `2 ^ (k - 1) * 1`, which is not one where `k` is zero. -/
theorem not_preserves_value_at_zero :
    let e := phiPower 2 (.var "k")
    isPrime 2 = true ∧ (e.assign [("k", 0)]).eval = .ok 1 ∧
      ((ofPrimePower e).assign [("k", 0)]).eval = .ok (.rat (1 / 2)) ∧
      (1 : Number) ≠ .rat (1 / 2) := by
  have hp : isPrime 2 = true := by decide +kernel
  have hx : ((Expr.var "k").assign [("k", 0)]).eval = .ok 0 := by
    rw [assign_cons, substitute_var_self]
    rfl
  have hhalf : Number.ofRat (((2 : ℤ) - 1) / (2 : ℤ)) = .rat (1 / 2) := by decide +kernel
  exact ⟨hp, eval_phiPower_zero hp hx, hhalf ▸ eval_ofPrimePower_zero hp rfl hx, nofun⟩

end Totient

end SymbolicAlgebra
