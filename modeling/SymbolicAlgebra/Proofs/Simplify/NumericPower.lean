import SymbolicAlgebra.Proofs.Simplify.Folding

/-!
# Powers of numbers

`Folding.foldPower_number_spec` says what becomes of a power of an exact number with an integer
exponent of any size. It becomes the literal of its value for an exponent of at most
`Folding.maxFoldedExponent`, and stays as it is otherwise; a negative power of zero stays too. The
bound is checked on machine words, through their absolute value, and one word has none: the least
word, `-2 ^ 63`, passes the check. Its powers are computed in double precision, and where the
numerator of the base is two or more the literal that comes out is not the value, which lies between
whole numbers.
-/

namespace SymbolicAlgebra

/-! ## Powers that are computed in double precision -/

/-- A negative power of a fraction is whole only if the numerator is one, up to the sign. -/
theorem natAbs_num_of_zpow_neg_eq {q : ℚ} {n : ℕ} {z : ℤ} (hn : n ≠ 0) (hq : q ≠ 0)
    (h : q ^ (-n : ℤ) = z) : q.num.natAbs = 1 := by
  have hden : (q.den : ℚ) ≠ 0 := by exact_mod_cast q.den_ne_zero
  have hone : q ^ n * z = 1 := by
    rw [← h, zpow_neg, zpow_natCast, mul_inv_cancel₀ (pow_ne_zero n hq)]
  -- In lowest terms: the numerator divides a power of the denominator.
  have hprod : q.num ^ n * z = (q.den : ℤ) ^ n := by
    rw [← Rat.num_div_den q, div_pow, div_mul_eq_mul_div,
      div_eq_one_iff_eq (pow_ne_zero n hden)] at hone
    exact_mod_cast hone
  have hdvd : q.num.natAbs ∣ q.den ^ n := by
    rw [← Int.natCast_dvd_natCast, Nat.cast_pow, ← hprod]
    exact Int.natAbs_dvd.mpr ((dvd_pow_self q.num hn).mul_right z)
  exact Nat.Coprime.eq_one_of_dvd (q.reduced.pow_right n) hdvd

namespace Number

variable {a : Number} {p r : ℚ} {k : ℤ}

/-- A real is exact on its narrowest level only if it is whole. -/
theorem exists_int_of_toRat?_ofReal {x : ExtReal} (h : (ofReal x).toRat? = some r) :
    ∃ n : ℤ, r = n := by
  rw [ofReal] at h
  split at h
  · exact ⟨_, (Option.some.inj h).symm⟩
  · cases h

/-- A complex number that becomes exact becomes an integer. -/
theorem exists_int_of_toRat?_ofComplex {z : ExtComplex} (h : (ofComplex z).toRat? = some r) :
    ∃ n : ℤ, r = n := by
  rw [ofComplex] at h
  split_ifs at h
  · exact exists_int_of_toRat?_ofReal h
  · cases h

/-- With an exponent beyond the machine words a power comes out exact only as a whole number. -/
theorem exists_int_of_toRat?_pow (ha : a.toRat? = some p) (hk : toSignedWord? 32 k = none)
    (h : (a.pow (.int k)).toRat? = some r) : ∃ n : ℤ, r = n := by
  obtain ⟨x, -, hpow⟩ := pow_of_not_word ha hk
  rw [hpow] at h
  split_ifs at h
  · exact exists_int_of_toRat?_ofComplex h
  · exact exists_int_of_toRat?_ofReal h

end Number

namespace Folding

variable {m : Number} {q : ℚ} {k : ℤ}

/-! ## Folded exponents -/

/-- The exponents up to the bound, without the negative powers of zero. -/
def IsFolded (q : ℚ) (k : ℤ) : Prop := |k| ≤ maxFoldedExponent ∧ (q = 0 → 0 ≤ k)

/-- What folding does with a power of a number, case by case. -/
theorem foldPower_number_eq (hm : m.toRat? = some q) :
    foldPower (.power (.number m) (.int k)) =
      if k = 0 ∨ q = 1 then 1
      else if k = 1 then .number m
      else (foldNumericPower? m (.int k)).elim (.power (.number m) (.int k)) .number := by
  have hzero : (Expr.int k).isZero = true ↔ k = 0 :=
    (Number.isZero_iff (Number.toRat?_int k)).trans Int.cast_eq_zero
  have hone : (Expr.int k).isOne = true ↔ k = 1 :=
    (Number.isOne_iff (Number.toRat?_int k)).trans Int.cast_eq_one
  have hbase : (Expr.number m).isOne = true ↔ q = 1 := Number.isOne_iff hm
  rw [foldPower_number]
  simp only [Bool.or_eq_true, hzero, hone, hbase]

/-- A power is computed exactly for an exponent up to the bound, and for the base one. -/
theorem exists_literal_of_isFolded (hm : m.toRat? = some q) (h : q = 1 ∨ IsFolded q k) :
    ∃ n, foldPower (.power (.number m) (.int k)) = .number n ∧ n.toRat? = some (q ^ k) := by
  rw [foldPower_number_eq hm]
  split_ifs with htrivial hone
  · refine ⟨1, rfl, ?_⟩
    rcases htrivial with rfl | rfl
    · rw [zpow_zero]
      rfl
    · rw [one_zpow]
      rfl
  · exact ⟨m, rfl, by rw [hone, zpow_one, hm]⟩
  · obtain ⟨hk, h0⟩ := h.resolve_left fun hq => htrivial (.inr hq)
    rw [foldNumericPower?_of_abs_le hm hk h0]
    exact ⟨_, rfl, Number.toRat?_ofRat _⟩

/-- Apart from the least word, the check lets no other exponent through. -/
theorem foldNumericPower?_eq_none (hm : m.toRat? = some q) (hk : k ≠ -9223372036854775808)
    (h : ¬ IsFolded q k) : foldNumericPower? m (.int k) = none := by
  rw [foldNumericPower?, if_pos (by simp [isExact, hm])]
  split
  · rename_i l hl
    obtain ⟨hword, habs⟩ := Option.filter_eq_some_iff.mp hl
    obtain rfl : k = l := (toSignedWord?_eq_some_iff.mp hword).2
    rw [decide_eq_true_eq, wordAbs_eq_abs hword hk] at habs
    have hzero : q = 0 ∧ k < 0 := by
      rw [IsFolded, not_and, Classical.not_imp, not_le] at h
      exact h habs
    rw [if_pos (by simpa using ⟨(Number.isZero_iff hm).mpr hzero.1, hzero.2⟩)]
  · rfl

/-- A power that is not folded stays as it is written. -/
theorem foldPower_of_not_isFolded (hm : m.toRat? = some q) (hk : k ≠ -9223372036854775808)
    (hone : q ≠ 1) (h : ¬ IsFolded q k) :
    foldPower (.power (.number m) (.int k)) = .power (.number m) (.int k) := by
  have hbound : IsFolded q 0 ∧ IsFolded q 1 :=
    ⟨⟨by decide, fun _ => le_rfl⟩, ⟨by decide, fun _ => zero_le_one⟩⟩
  have hk0 : k ≠ 0 := by
    rintro rfl
    exact h hbound.1
  have hk1 : k ≠ 1 := by
    rintro rfl
    exact h hbound.2
  rw [foldPower_number_eq hm, if_neg (by simp [hk0, hone]), if_neg hk1,
    foldNumericPower?_eq_none hm hk h]
  rfl

/-! ## The least word -/

/-- At the least word the test of the exponent is passed, unless the base is zero. -/
theorem foldNumericPower?_least (hm : m.toRat? = some q) (hk : k = -9223372036854775808) :
    foldNumericPower? m (.int k) = if q = 0 then none else some (m.pow (.int k)) := by
  have hneg : k < 0 := by omega
  have hword : (toSignedWord? 64 k).filter (fun k => wordAbs k ≤ maxFoldedExponent) = some k := by
    rw [hk]
    decide
  rw [foldNumericPower?, if_pos (by simp [isExact, hm])]
  simp only [hword, hneg, decide_true, Bool.and_true, Number.isZero_iff hm]

/-- With the least word as exponent the power is no longer exact. -/
theorem exists_inexact_least (hm : m.toRat? = some q) (hk : k = -9223372036854775808)
    (hnum : 2 ≤ q.num.natAbs) :
    ∃ n, foldPower (.power (.number m) (.int k)) = .number n ∧ n.toRat? ≠ some (q ^ k) := by
  have hq : q ≠ 0 := by
    rintro rfl
    exact absurd hnum (by decide)
  have hone : q ≠ 1 := by
    rintro rfl
    exact absurd hnum (by decide)
  refine ⟨m.pow (.int k), ?_, fun hvalue => ?_⟩
  · rw [foldPower_number_eq hm, if_neg (by simp [hone]; omega), if_neg (by omega),
      foldNumericPower?_least hm hk, if_neg hq]
    rfl
  · have hword : toSignedWord? 32 k = none := by
      rw [hk]
      rfl
    obtain ⟨z, hz⟩ := Number.exists_int_of_toRat?_pow hm hword hvalue
    obtain ⟨n, hn, rfl⟩ : ∃ n : ℕ, n ≠ 0 ∧ k = -n := ⟨k.natAbs, by omega, by omega⟩
    have := natAbs_num_of_zpow_neg_eq hn hq hz
    omega

/--
A power of an exact number with an integer exponent of any size but the least word becomes a literal
of its value for a folded exponent, and for the base one, and stays as it is otherwise; the absolute
value that the exponent is checked through is that of the integers. At the least word this fails: it
has no absolute value among the words and passes the check. Powers of zero and one are right there
too, but a base with a numerator of two or more gets a literal that is not its power.
-/
theorem foldPower_number_spec (hm : m.toRat? = some q) (k : ℤ) :
    let node := Expr.power (.number m) (.int k)
    (k ≠ -9223372036854775808 →
      (∀ w, toSignedWord? 64 k = some w → wordAbs w = |w|) ∧
      (q = 1 ∨ IsFolded q k → ∃ n, foldPower node = .number n ∧ n.toRat? = some (q ^ k)) ∧
      (¬ (q = 1 ∨ IsFolded q k) → foldPower node = node)) ∧
    (k = -9223372036854775808 →
      toSignedWord? 64 k = some k ∧ wordAbs k = k ∧
      (q = 0 → foldPower node = node) ∧
      (q = 1 → ∃ n, foldPower node = .number n ∧ n.toRat? = some (q ^ k)) ∧
      (2 ≤ q.num.natAbs → ∃ n, foldPower node = .number n ∧ n.toRat? ≠ some (q ^ k))) := by
  refine ⟨fun hk => ⟨fun w hw => ?_, exists_literal_of_isFolded hm, fun h => ?_⟩, fun hk =>
    ⟨?_, ?_, fun hq => ?_, fun hq => exists_literal_of_isFolded hm (.inl hq),
      exists_inexact_least hm hk⟩⟩
  · obtain rfl : k = w := (toSignedWord?_eq_some_iff.mp hw).2
    exact wordAbs_eq_abs hw hk
  · obtain ⟨hone, hfolded⟩ := not_or.mp h
    exact foldPower_of_not_isFolded hm hk hone hfolded
  · rw [hk]
    rfl
  · rw [hk]
    rfl
  · rw [foldPower_number_eq hm, if_neg (by simp [hq]; omega), if_neg (by omega),
      foldNumericPower?_least hm hk, if_pos hq]
    rfl

/-- The largest folded exponent and the next one, and the word beside the least one. -/
theorem foldPower_number_spec_two_thirds :
    (∃ n, foldPower (.power (.rat (-2 / 3)) (.int (-1024))) = .number n ∧
      n.toRat? = some ((-2 / 3) ^ (-1024 : ℤ))) ∧
    foldPower (.power (.rat (-2 / 3)) (.int (-1025))) = .power (.rat (-2 / 3)) (.int (-1025)) ∧
    foldPower (.power (.rat (-2 / 3)) (.int (-9223372036854775807))) =
      .power (.rat (-2 / 3)) (.int (-9223372036854775807)) := by
  have hm : (Number.ofRat (-2 / 3)).toRat? = some (-2 / 3) := Number.toRat?_ofRat _
  have hone : (-2 / 3 : ℚ) ≠ 1 := by norm_num
  have hlarge : ∀ k : ℤ, k < -1024 → ¬ ((-2 / 3 : ℚ) = 1 ∨ IsFolded (-2 / 3) k) := by
    rintro k hk (h | ⟨h, -⟩)
    · exact hone h
    · exact absurd (abs_le.mp h).1 (by rw [maxFoldedExponent]; omega)
  exact ⟨((foldPower_number_spec hm (-1024)).1 (by decide)).2.1
      (.inr ⟨by decide, fun h => absurd h (by norm_num)⟩),
    ((foldPower_number_spec hm (-1025)).1 (by decide)).2.2 (hlarge _ (by decide)),
    ((foldPower_number_spec hm (-9223372036854775807)).1 (by decide)).2.2 (hlarge _ (by decide))⟩

/-- Two to the least word is folded, and not to its value. -/
theorem not_exact_of_two_to_least_word :
    let node := Expr.power (.int 2) (.int (-9223372036854775808))
    foldPower node ≠ node ∧
      ¬ ∃ n, foldPower node = .number n ∧ n.toRat? = some (2 ^ (-9223372036854775808 : ℤ)) := by
  obtain ⟨n, hn, hvalue⟩ := exists_inexact_least (m := .int 2) (q := 2)
    (k := -9223372036854775808) rfl rfl (by decide)
  intro node
  have hnode : foldPower node = .number n := hn
  refine ⟨fun h => ?_, fun ⟨n', hn', hexact⟩ => ?_⟩
  · have hpower : Expr.power (.int 2) (.int (-9223372036854775808)) = .number n :=
      h.symm.trans hnode
    cases hpower
  · rw [hnode] at hn'
    obtain rfl : n = n' := Expr.number.inj hn'
    exact hvalue hexact

end Folding

end SymbolicAlgebra
