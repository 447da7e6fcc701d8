import SymbolicAlgebra.Arithmetic.Binary64
import SymbolicAlgebra.Proofs.Arithmetic.Floating

/-!
# Digits of floating results

How many digits the results of the floating operations with `p` digits have.

* `Floating.digits_round_le`, `Floating.digits_multiply_le`, `Floating.digits_squareRoot_le`: `p` at
  most, whatever the operands are.
* `Floating.digits_add_le`: a difference of operands that have to be aligned may have `p + 1`. An
  operand that is added to zero keeps its own digits.
* `Floating.digits_divide_le`: a quotient may have `p + 1` where the dividend has the smaller
  significand, and as many as the dividend where it is longer than `p` digits.
* `Decimal.digits_ofDouble_le`: the shortest decimal for a double is found on one of twenty grids,
  the first of which lies above the double, so that it has at most twenty digits.
-/

namespace SymbolicAlgebra

namespace Floating

variable {b : ℕ} [Radix b] {p q : ℕ}

omit [Radix b] in
/-- The power of the radix as a natural number. -/
theorem natAbs_radixPower (k : ℕ) : (radixPower b k).natAbs = b ^ k := by
  rw [radixPower_eq, Int.natAbs_pow, Int.natAbs_natCast]

/-! ## Canonical form and rounding -/

/-- A sign is at most one in size. -/
theorem natAbs_sign_le (n : ℤ) : n.sign.natAbs ≤ 1 := by
  rw [Int.natAbs_sign]
  split_ifs <;> decide

/-- Digits are counted by comparison with powers of the radix. -/
theorem digits_le_iff {x : Floating b} : x.digits ≤ p ↔ x.significand.natAbs < b ^ p :=
  digitCount_le_iff

/-- Zero has no digits. -/
theorem digits_zero : (zero : Floating b).digits = 0 := by
  rw [digits, zero, digitCount, Int.natAbs_zero, if_pos rfl]

/-- The sign is not counted as a digit. -/
theorem digits_negate (x : Floating b) : x.negate.digits = x.digits := by
  rw [digits, negate, Int.natAbs_neg, digits]

/-- Canonical form adds no digits, and a power of the radix loses all but one. -/
theorem digits_ofParts_le {s e : ℤ} (hp : 0 < p) (h : s.natAbs ≤ b ^ p) :
    (ofParts s e : Floating b).digits ≤ p := by
  rw [digits_le_iff]
  rcases h.eq_or_lt with h | h
  · have hs : (s : ℚ) = s.sign * (b : ℚ) ^ p := by
      have := Int.sign_mul_natAbs s
      rw [h] at this
      exact_mod_cast this.symm
    have hvalue : (ofParts s e : Floating b).toRat = s.sign * (b : ℚ) ^ (p + e) := by
      rw [toRat_ofParts, hs, zpow_add₀ Radix.cast_ne_zero, zpow_natCast, mul_assoc]
    calc _ ≤ s.sign.natAbs := natAbs_significand_le hvalue
      _ ≤ 1 := natAbs_sign_le s
      _ < b ^ p := Nat.one_lt_pow hp.ne' Radix.one_lt
  · exact (natAbs_significand_le (toRat_ofParts s e)).trans_lt h

omit [Radix b] in
/-- Rounding adds one unit at most. -/
theorem natAbs_roundingStep_le (n low unit : ℤ) : (roundingStep n low unit).natAbs ≤ 1 := by
  rw [roundingStep]
  split_ifs <;> first | exact natAbs_sign_le low | exact Nat.zero_le _

/-- A number of `p` digits may be rounded up to the next power of the radix, but not further. -/
theorem digits_rounded_le {n low unit e : ℤ} (hp : 0 < p) (h : n.natAbs < b ^ p) :
    (ofParts (n + roundingStep n low unit) e : Floating b).digits ≤ p := by
  have hadd := Int.natAbs_add_le n (roundingStep n low unit)
  have hstep := natAbs_roundingStep_le n low unit
  exact digits_ofParts_le hp (by omega)

omit [Radix b] in
/-- Splitting digits off leaves the rest of them. -/
theorem natAbs_splitDigits_fst_lt {s : ℤ} {k : ℕ} (h : s.natAbs < b ^ (p + k)) :
    (splitDigits b s k).1.natAbs < b ^ p := by
  rw [splitDigits, Int.natAbs_tdiv, natAbs_radixPower]
  exact Nat.div_lt_of_lt_mul (by rwa [← pow_add, Nat.add_comm])

/-- The digits that are split off are as many as asked for. -/
theorem natAbs_splitDigits_snd_lt (s : ℤ) (k : ℕ) : (splitDigits b s k).2.natAbs < b ^ k := by
  rw [splitDigits, Int.natAbs_tmod, natAbs_radixPower]
  exact Nat.mod_lt _ (pow_pos Radix.pos k)

/-- Rounding leaves as many digits as the precision, even where a carry makes one more at first. -/
theorem digits_round_le (hp : 0 < p) (x : Floating b) : (round p x).digits ≤ p := by
  rw [round]
  split_ifs with hd
  · exact hd
  · refine digits_rounded_le hp (natAbs_splitDigits_fst_lt ?_)
    rw [← digits_le_iff]
    omega

/-- A product is rounded to the precision. -/
theorem digits_multiply_le (hp : 0 < p) (x y : Floating b) : (multiply p x y).digits ≤ p :=
  digits_round_le hp _

/-- A square root is rounded to the precision. -/
theorem digits_squareRoot_le (hp : 0 < p) (x : Floating b) : (squareRoot p x).digits ≤ p := by
  rw [squareRoot]
  split_ifs with h
  · rw [digits_le_iff, h]
    exact pow_pos Radix.pos p
  · exact digits_round_le hp _

/-! ## Sums -/

namespace Aligned

/-- The low part has no more digits than it is said to have. -/
theorem natAbs_low_ofOperands_lt (p width : ℕ) (large small : Floating b) :
    (ofOperands p width large small).low.natAbs <
      b ^ (ofOperands p width large small).lowDigits := by
  unfold ofOperands
  dsimp only
  split_ifs with hcancel hfar
  · exact Nat.one_pos
  · exact (natAbs_sign_le _).trans_lt (Nat.one_lt_pow (Nat.ne_zero_of_lt hfar.1) Radix.one_lt)
  · exact natAbs_splitDigits_snd_lt _ _
  · exact natAbs_splitDigits_snd_lt _ _
  · exact Nat.one_pos

/-- The leading part is brought to the working width. -/
theorem natAbs_high_adjust_lt {width : ℕ} {a : Aligned} (hlow : a.low.natAbs < b ^ a.lowDigits) :
    (a.adjust b width).high.natAbs < b ^ width := by
  have hhigh : a.high.natAbs < b ^ digitCount b a.high.natAbs := lt_pow_digitCount _
  unfold adjust
  dsimp only
  split_ifs with hlong hshort
  · refine natAbs_splitDigits_fst_lt ?_
    rwa [Nat.add_sub_cancel' hlong.le]
  -- The leading part is short, and leading digits of the rest are put behind it.
  · set d := digitCount b a.high.natAbs
    set k := min a.lowDigits (width - d)
    have hpad : (splitDigits b a.low (a.lowDigits - k)).1.natAbs < b ^ k :=
      natAbs_splitDigits_fst_lt (by rwa [Nat.add_sub_cancel' (min_le_left _ _)])
    calc (a.high * radixPower b k + (splitDigits b a.low (a.lowDigits - k)).1).natAbs
        ≤ a.high.natAbs * b ^ k + (splitDigits b a.low (a.lowDigits - k)).1.natAbs := by
          rw [← natAbs_radixPower (b := b) k, ← Int.natAbs_mul]
          exact Int.natAbs_add_le _ _
      _ < (a.high.natAbs + 1) * b ^ k := by rw [Nat.add_one_mul]; omega
      _ ≤ b ^ d * b ^ k := Nat.mul_le_mul_right _ hhigh
      _ = b ^ (d + k) := (pow_add b d k).symm
      _ ≤ b ^ width := Nat.pow_le_pow_right Radix.pos (by omega)
  · exact hhigh.trans_le (Nat.pow_le_pow_right Radix.pos (by omega))

end Aligned

/-- The operands have opposite signs, and one of them has to be aligned to the other. -/
def IsShiftedDifference (x y : Floating b) : Prop :=
  x.exponent ≠ y.exponent ∧ x.significand.sign ≠ y.significand.sign

instance (x y : Floating b) : Decidable (IsShiftedDifference x y) :=
  inferInstanceAs (Decidable (_ ∧ _))

/-- A sum has `p` digits, and one more only where the operands of a difference are aligned. An
operand added to zero keeps its digits. -/
theorem digits_add_le (hp : 0 < p) (hpq : p ≤ q) {x y : Floating b} (hx : x.digits ≤ q)
    (hy : y.digits ≤ q) (h : IsShiftedDifference x y → p + 1 ≤ q) : (add p x y).digits ≤ q := by
  have haligned : ∀ (width : ℕ) (large small : Floating b), 0 < width → width ≤ q →
      ((Aligned.ofOperands p width large small).adjust b width).toFloating.digits ≤ q :=
    fun width large small hpos hle => (digits_rounded_le hpos (Aligned.natAbs_high_adjust_lt
      (Aligned.natAbs_low_ofOperands_lt p width large small))).trans hle
  rw [add]
  split_ifs with hx0 hy0 he hsign horder horder
  · exact hy
  · exact hx
  · exact (digits_round_le hp _).trans hpq
  · exact haligned (p + 1) x y p.succ_pos (h ⟨he, hsign⟩)
  · exact haligned (p + 1) y x p.succ_pos (h ⟨he, hsign⟩)
  · exact haligned p x y hp hpq
  · exact haligned p y x hp hpq

/-! ## Quotients -/

/-- The dividend has the smaller significand, but not when it is brought to the length of the
divisor. -/
def HasLongQuotient (x y : Floating b) : Prop :=
  x.significand.natAbs < y.significand.natAbs ∧
    y.significand.natAbs ≤ x.significand.natAbs * b ^ (y.digits - x.digits)

instance (x y : Floating b) : Decidable (HasLongQuotient x y) :=
  inferInstanceAs (Decidable (_ ∧ _))

section Quotient

variable {n d : ℕ}

/-- A dividend that is scaled to `p` digits more than the divisor has a quotient of `p + 1` digits
at most. -/
theorem scaled_div_lt (h : n < d) :
    n * b ^ (digitCount b d + p - digitCount b n) / d < b ^ (p + 1) := by
  have hd : d ≠ 0 := Nat.ne_zero_of_lt h
  have hpos : 0 < digitCount b d := digitCount_pos hd
  have hle : digitCount b n ≤ digitCount b d :=
    digitCount_le_iff.mpr (h.trans (lt_pow_digitCount d))
  refine Nat.div_lt_of_lt_mul ?_
  calc n * b ^ (digitCount b d + p - digitCount b n)
      < b ^ digitCount b n * b ^ (digitCount b d + p - digitCount b n) :=
        Nat.mul_lt_mul_of_pos_right (lt_pow_digitCount n) (pow_pos Radix.pos _)
    _ = b ^ (digitCount b d - 1) * b ^ (p + 1) := by
        rw [← pow_add, ← pow_add]
        congr 1
        omega
    _ ≤ d * b ^ (p + 1) := Nat.mul_le_mul_right _ (pow_digitCount_le hd)

/-- It has `p` digits if it is smaller than the divisor when both have the same length. -/
theorem scaled_div_lt_of_lt (h : n < d) (hshort : n * b ^ (digitCount b d - digitCount b n) < d) :
    n * b ^ (digitCount b d + p - digitCount b n) / d < b ^ p := by
  have hle : digitCount b n ≤ digitCount b d :=
    digitCount_le_iff.mpr (h.trans (lt_pow_digitCount d))
  refine Nat.div_lt_of_lt_mul ?_
  rw [Nat.sub_add_comm hle, pow_add, ← mul_assoc]
  exact Nat.mul_lt_mul_of_pos_right hshort (pow_pos Radix.pos p)

/-- A whole quotient is filled up to `p` digits, unless it is longer. -/
theorem filled_div_lt (hpq : p ≤ q) (hd : 0 < d) (hn : n < b ^ q) :
    n / d * b ^ (p - digitCount b (n / d)) + n % d * b ^ (p - digitCount b (n / d)) / d <
      b ^ q := by
  set k := p - digitCount b (n / d)
  have hrest : n % d * b ^ k / d < b ^ k :=
    Nat.div_lt_of_lt_mul (Nat.mul_lt_mul_of_pos_right (Nat.mod_lt n hd) (pow_pos Radix.pos k))
  rcases Nat.eq_zero_or_pos k with h0 | hpos
  · rw [h0, pow_zero] at hrest ⊢
    have hle := Nat.div_le_self n d
    omega
  · calc n / d * b ^ k + n % d * b ^ k / d < (n / d + 1) * b ^ k := by rw [Nat.add_one_mul]; omega
      _ ≤ b ^ digitCount b (n / d) * b ^ k := Nat.mul_le_mul_right _ (lt_pow_digitCount _)
      _ = b ^ p := by rw [← pow_add]; congr 1; omega
      _ ≤ b ^ q := Nat.pow_le_pow_right Radix.pos hpq

end Quotient

/-- A quotient is not rounded again, so that it has one digit more than the precision where the
division is long. -/
theorem digits_divide_le (hp : 0 < p) (hpq : p ≤ q) {x y : Floating b} (hy : y.significand ≠ 0)
    (hx : x.digits ≤ q) (h : HasLongQuotient x y → p + 1 ≤ q) : (divide p x y).digits ≤ q := by
  have hq : 0 < q := hp.trans_le hpq
  have hd : 0 < y.significand.natAbs := Int.natAbs_pos.mpr hy
  rw [digits_le_iff] at hx
  rw [divide]
  dsimp only
  split_ifs with hr hq0
  · refine digits_ofParts_le hq ?_
    rw [Int.natAbs_tdiv]
    exact (Nat.div_le_self _ _).trans hx.le
  · -- The dividend is shorter than the divisor, so that it is the remainder.
    have hlt : x.significand.natAbs < y.significand.natAbs := by
      rw [← Int.natAbs_eq_zero, Int.natAbs_tdiv] at hq0
      exact (Nat.div_eq_zero_iff.mp hq0).resolve_left hd.ne'
    refine digits_rounded_le hq ?_
    rw [Int.natAbs_tdiv, Int.natAbs_mul, natAbs_radixPower, Int.natAbs_tmod, Nat.mod_eq_of_lt hlt]
    by_cases hlong : HasLongQuotient x y
    · exact (scaled_div_lt hlt).trans_le (Nat.pow_le_pow_right Radix.pos (h hlong))
    · have hshort : x.significand.natAbs * b ^ (y.digits - x.digits) < y.significand.natAbs :=
        not_le.mp fun hle => hlong ⟨hlt, hle⟩
      exact (scaled_div_lt_of_lt hlt hshort).trans_le (Nat.pow_le_pow_right Radix.pos hpq)
  · refine digits_rounded_le hq ((Int.natAbs_add_le _ _).trans_lt ?_)
    rw [Int.natAbs_mul, Int.natAbs_tdiv, Int.natAbs_tdiv, Int.natAbs_mul, natAbs_radixPower,
      Int.natAbs_tmod]
    exact filled_div_lt hpq hd hx

end Floating

namespace Decimal

/-- An integer is rounded to the precision when it becomes a decimal. -/
theorem digits_ofInt_le (n : ℤ) : (ofInt n).digits ≤ precision :=
  Floating.digits_round_le (by decide) _

/-! ## Shortest decimals -/

namespace RoundingInterval

variable {i : RoundingInterval} {g : ℤ} {c : ℕ}

/-- The double that the interval lies around. -/
def value (i : RoundingInterval) : ℚ := i.middle * 2 ^ i.unitExponent

/-- An integer power cleared of its denominator. -/
theorem zpow_mul_pow_toNat_neg {r : ℚ} (hr : r ≠ 0) (z : ℤ) :
    r ^ z * r ^ (-z).toNat = r ^ z.toNat := by
  rw [← zpow_natCast r (-z).toNat, ← zpow_natCast r z.toNat, ← zpow_add₀ hr]
  congr 1
  omega

/-- Numbers of units and of steps of a grid are compared over one denominator. -/
theorem scale_mul (i : RoundingInterval) (g : ℤ) (t : ℕ) :
    ((i.scale g t 1).1 : ℚ) * 10 ^ g = t * 2 ^ i.unitExponent * (i.scale g t 1).2 := by
  have htwo := zpow_mul_pow_toNat_neg (r := 2) two_ne_zero i.unitExponent
  have hten := zpow_mul_pow_toNat_neg (r := 10) (by norm_num) g
  simp only [scale, Nat.pow_eq, Nat.cast_mul, Nat.cast_pow, Nat.cast_ofNat, one_mul]
  rw [← htwo, ← hten]
  ring

/-- The common denominator is positive. -/
theorem scale_pos (i : RoundingInterval) (g : ℤ) (t : ℕ) : 0 < (i.scale g t 1).2 := by
  simp only [scale, Nat.pow_eq]
  positivity

/-- The point that is chosen on a grid is one of the two around the double. -/
theorem gridPoint?_le_below (h : i.gridPoint? g = some c) :
    c ≤ (i.scale g i.middle 1).1 / (i.scale g i.middle 1).2 + 1 := by
  rw [gridPoint?] at h
  dsimp only at h
  split at h <;> grind

/-- A grid that starts at a power of ten above the double has few points up to it. -/
theorem gridPoint?_le (h : i.gridPoint? g = some c) {j : ℕ} (hlt : i.value < 10 ^ (g + j)) :
    c ≤ 10 ^ j := by
  have hscale := i.scale_mul g i.middle
  have hpos : (0 : ℚ) < (i.scale g i.middle 1).2 := Nat.cast_pos.mpr (i.scale_pos g i.middle)
  have hgrid : (0 : ℚ) < 10 ^ g := by positivity
  have hbelow : (i.scale g i.middle 1).1 < 10 ^ j * (i.scale g i.middle 1).2 := by
    rw [value, zpow_add₀ (by norm_num), zpow_natCast] at hlt
    have hscaled : ((i.scale g i.middle 1).1 : ℚ) * 10 ^ g <
        10 ^ j * (i.scale g i.middle 1).2 * 10 ^ g := by
      calc ((i.scale g i.middle 1).1 : ℚ) * 10 ^ g
          = i.middle * 2 ^ i.unitExponent * (i.scale g i.middle 1).2 := hscale
        _ < 10 ^ g * 10 ^ j * (i.scale g i.middle 1).2 := by gcongr
        _ = 10 ^ j * (i.scale g i.middle 1).2 * 10 ^ g := by ring
    exact_mod_cast lt_of_mul_lt_mul_right hscaled hgrid.le
  exact (gridPoint?_le_below h).trans (Nat.div_lt_of_lt_mul (by rwa [Nat.mul_comm]))

/-- The search starts at a power of ten above the double. -/
theorem lt_leadingGrid (i : RoundingInterval) : i.value < 10 ^ i.leadingGrid := by
  have hscale := i.scale_mul 0 i.middle
  have hpos := i.scale_pos 0 i.middle
  rw [leadingGrid]
  dsimp only
  rw [zpow_zero, mul_one, ← value] at hscale
  set v := (i.scale 0 i.middle 1).1
  set s := (i.scale 0 i.middle 1).2
  have hs : (0 : ℚ) < s := Nat.cast_pos.mpr hpos
  rw [eq_comm, ← eq_div_iff hs.ne'] at hscale
  rw [hscale, div_lt_iff₀ hs]
  -- The digits of the whole quotient, or of the one upside down, tell the power of ten.
  split_ifs with hle
  · have h : v < 10 ^ digitCount 10 (v / s) * s := by
      rw [← Nat.div_lt_iff_lt_mul hpos]
      exact lt_pow_digitCount _
    rw [zpow_natCast]
    exact_mod_cast h
  · rcases Nat.eq_zero_or_pos v with h0 | hv
    · rw [h0, Nat.cast_zero]
      positivity
    · have hq : s / v ≠ 0 := (Nat.div_pos (not_le.mp hle).le hv).ne'
      have hdigits := digitCount_pos (b := 10) hq
      have h : v * 10 ^ (digitCount 10 (s / v) - 1) ≤ s :=
        (Nat.mul_le_mul_left v (pow_digitCount_le hq)).trans (Nat.mul_div_le s v)
      set d := digitCount 10 (s / v)
      have hexp : (10 : ℚ) ^ (2 - d : ℤ) * 10 ^ (d - 1) = 10 := by
        rw [← zpow_natCast, ← zpow_add₀ (by norm_num),
          show 2 - (d : ℤ) + ((d - 1 : ℕ) : ℤ) = 1 by omega, zpow_one]
      have hv' : (0 : ℚ) < v := Nat.cast_pos.mpr hv
      calc (v : ℚ) < v * 10 := by linarith
        _ = v * (10 ^ (2 - d : ℤ) * 10 ^ (d - 1)) := by rw [hexp]
        _ = 10 ^ (2 - d : ℤ) * (v * 10 ^ (d - 1)) := by ring
        _ ≤ 10 ^ (2 - d : ℤ) * s := by
          gcongr
          exact_mod_cast h

/-- The search ends with as many digits as grids have been passed, since each one is ten times
finer. -/
theorem digits_search_le (grids : ℕ) {j : ℕ} (h : i.value < 10 ^ (g + j)) :
    (i.search grids g).digits ≤ j + grids := by
  induction grids generalizing g j with
  | zero =>
    rw [search, Floating.digits_zero]
    exact Nat.zero_le _
  | succ grids ih =>
    rw [search]
    cases hpoint : i.gridPoint? g with
    | some c =>
      refine Floating.digits_ofParts_le (Nat.succ_pos _) ?_
      exact (gridPoint?_le hpoint h).trans (Nat.pow_le_pow_right (by norm_num) (by omega))
    | none =>
      have hnext : i.value < 10 ^ (g - 1 + (j + 1 : ℕ)) := by
        rwa [show g - 1 + ((j + 1 : ℕ) : ℤ) = g + j by push_cast; ring]
      have hle := ih hnext
      dsimp only
      omega

end RoundingInterval

/-- Twenty grids are searched. -/
theorem digits_ofScaledDouble_le (m : ℕ) (q : ℤ) : (ofScaledDouble m q).digits ≤ 20 := by
  rw [ofScaledDouble]
  split_ifs
  · rw [Floating.digits_zero]
    exact Nat.zero_le _
  · have h := (RoundingInterval.ofDouble m q).lt_leadingGrid
    simpa using RoundingInterval.digits_search_le (j := 0) 20 (by simpa using h)

/-- The shortest decimal for a double has far fewer than fifty digits. -/
theorem digits_ofDouble_le (x : Float) : (ofDouble x).digits ≤ 20 := by
  rw [ofDouble, ofBits]
  split_ifs
  all_goals
    try rw [Floating.digits_negate]
    exact digits_ofScaledDouble_le _ _

end Decimal

end SymbolicAlgebra
