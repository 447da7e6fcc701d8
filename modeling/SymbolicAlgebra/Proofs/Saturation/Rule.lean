import SymbolicAlgebra.Proofs.Expr.FieldExpression
import SymbolicAlgebra.Saturation.Rule

/-!
# Soundness of the laws of fields

Operator terms and templates have values in the rationals, with rationals for symbols and for holes.
A value is missing where a division by zero, a negative power of zero, a power with an exponent that
is not whole or a function occurs.

`Rule.sound_of_mem_arithmetic` says that each law of the group `Rule.arithmetic` keeps every value of
its left side. Most of the laws are equations between partial values. A law that merges powers or
cancels a divisor is not: its right side has a value in places where the left side has none, which is
why these laws are read from left to right only. No guard is needed for that direction.
-/

namespace SymbolicAlgebra

/-! ## Values -/

/-- The value of an operator with one operand; functions have no rational value. -/
def UnaryOp.value? : UnaryOp → ℚ → Option ℚ
  | .neg, p => some (-p)
  | _, _ => none

/-- The value of an operator with two operands. -/
def BinaryOp.value? : BinaryOp → ℚ → ℚ → Option ℚ
  | .add, p, q => some (p + q)
  | .sub, p, q => some (p - q)
  | .mul, p, q => some (p * q)
  | .div, p, q => exactQuotient? p q
  | .pow, p, q => exactPower? p q

/-- The value of a node over operands with values. -/
def OpNode.exactValue? {α : Type} (ρ : Assignment) (v : α → Option ℚ) : OpNode α → Option ℚ
  | .num n => some n
  | .symbol s => some (ρ s)
  | .unary op a => do op.value? (← v a)
  | .binary op a b => do op.value? (← v a) (← v b)

/-- The value of a term, with rationals for its symbols. -/
def OpTerm.exactValue? (ρ : Assignment) : OpTerm → Option ℚ
  | .num n => some n
  | .symbol s => some (ρ s)
  | .unary op a => do op.value? (← a.exactValue? ρ)
  | .binary op a b => do op.value? (← a.exactValue? ρ) (← b.exactValue? ρ)

/-- The value of a template, with rationals in its holes. -/
def Template.exactValue? (σ : ℕ → ℚ) : Template → Option ℚ
  | .hole index => some (σ index)
  | .num n => some n
  | .unary op a => do op.value? (← a.exactValue? σ)
  | .binary op a b => do op.value? (← a.exactValue? σ) (← b.exactValue? σ)

/-! ## Partial powers and quotients -/

section Partial

variable {p q x y : ℚ}

/-- There is an exact quotient if the divisor is not zero. -/
theorem exactQuotient?_eq_some_iff : exactQuotient? p q = some x ↔ q ≠ 0 ∧ p / q = x := by
  rw [exactQuotient?]
  split_ifs with hq
  · simp [hq]
  · simp [hq]

/-- Dividing by one changes nothing. -/
@[simp]
theorem exactQuotient?_one (p : ℚ) : exactQuotient? p 1 = some p :=
  exactQuotient?_eq_some_iff.mpr ⟨one_ne_zero, div_one p⟩

/-- The sign of a numerator may be taken out of a quotient. -/
theorem exactQuotient?_neg (p q : ℚ) :
    exactQuotient? (-p) q = (exactQuotient? p q).bind fun x => some (-x) := by
  rw [exactQuotient?, exactQuotient?]
  split_ifs
  · rfl
  · rw [Option.bind_some, neg_div]

/-- A power has a value where its exponent is whole, unless it is a negative power of zero. -/
theorem exactPower?_eq_some_iff :
    exactPower? p x = some y ↔ ∃ k : ℤ, x = k ∧ (p = 0 → 0 ≤ k) ∧ y = p ^ k := by
  rw [exactPower?]
  constructor
  · intro h
    split_ifs at h with hx
    have hnum : x = x.num := ((Rat.den_eq_one_iff x).mp hx.1).symm
    exact ⟨x.num, hnum, hx.2, (Option.some.inj h).symm⟩
  · rintro ⟨k, rfl, hk, rfl⟩
    rw [if_pos ⟨Rat.den_intCast k, by rwa [Rat.num_intCast]⟩, Rat.num_intCast]

/-- Powers of one base are merged by adding their exponents. -/
theorem exactPower?_add {m n : ℚ} (hm : exactPower? p m = some x) (hn : exactPower? p n = some y) :
    exactPower? p (m + n) = some (x * y) := by
  obtain ⟨k, rfl, hk, rfl⟩ := exactPower?_eq_some_iff.mp hm
  obtain ⟨l, rfl, hl, rfl⟩ := exactPower?_eq_some_iff.mp hn
  refine exactPower?_eq_some_iff.mpr ⟨k + l, (Int.cast_add k l).symm, fun h => ?_, ?_⟩
  · exact add_nonneg (hk h) (hl h)
  · -- At zero neither exponent is negative, so that they may be added there too.
    rcases eq_or_ne p 0 with h | h
    · have := hk h
      have := hl h
      exact (zpow_add' (by omega)).symm
    · exact (zpow_add₀ h k l).symm

/-- A power of a power has the product of both exponents. -/
theorem exactPower?_mul {m n : ℚ} (hm : exactPower? p m = some x) (hn : exactPower? x n = some y) :
    exactPower? p (m * n) = some y := by
  obtain ⟨k, rfl, hk, rfl⟩ := exactPower?_eq_some_iff.mp hm
  obtain ⟨l, rfl, hl, rfl⟩ := exactPower?_eq_some_iff.mp hn
  refine exactPower?_eq_some_iff.mpr ⟨k * l, (Int.cast_mul k l).symm, fun h => ?_, ?_⟩
  · -- A negative product would need a negative power of zero, inside or outside.
    rcases eq_or_ne k 0 with rfl | hk0
    · simp
    · exact mul_nonneg (hk h) (hl (by rw [h, zero_zpow k hk0]))
  · exact (zpow_mul p k l).symm

/-- The power with exponent zero is one, also of zero. -/
@[simp]
theorem exactPower?_zero (p : ℚ) : exactPower? p 0 = some 1 :=
  exactPower?_eq_some_iff.mpr ⟨0, by simp⟩

/-- The power with exponent one is the base. -/
@[simp]
theorem exactPower?_one (p : ℚ) : exactPower? p 1 = some p :=
  exactPower?_eq_some_iff.mpr ⟨1, by simp⟩

/-- The power with exponent two is the square. -/
@[simp]
theorem exactPower?_two (p : ℚ) : exactPower? p 2 = some (p * p) :=
  exactPower?_eq_some_iff.mpr ⟨2, by simp, by simp, by rw [zpow_ofNat, sq]⟩

/-- The power with exponent minus one is the reciprocal, and is missing where that is. -/
@[simp]
theorem exactPower?_neg_one (p : ℚ) : exactPower? p (-1) = exactQuotient? 1 p := by
  rcases eq_or_ne p 0 with rfl | hp
  · rw [exactPower?, exactQuotient?, if_pos rfl, if_neg (by simp)]
  · rw [exactQuotient?, if_neg hp]
    exact exactPower?_eq_some_iff.mpr ⟨-1, by simp, fun h => absurd h hp, by simp⟩

end Partial

/-! ## Values of templates -/

namespace Template

variable {σ : ℕ → ℚ}

/-- A hole has the value that is filled in. -/
@[simp]
theorem exactValue?_hole (i : ℕ) : (Template.hole i).exactValue? σ = some (σ i) := rfl

@[simp]
theorem exactValue?_num (n : ℤ) : (Template.num n).exactValue? σ = some (n : ℚ) := rfl

@[simp]
theorem exactValue?_zero : (0 : Template).exactValue? σ = some 0 := rfl

@[simp]
theorem exactValue?_one : (1 : Template).exactValue? σ = some 1 := rfl

@[simp]
theorem exactValue?_two : (2 : Template).exactValue? σ = some 2 := rfl

@[simp]
theorem exactValue?_neg (s : Template) :
    (-s).exactValue? σ = (s.exactValue? σ).bind fun p => some (-p) := rfl

/-- A sum has a value if both terms have one, and so for every other operation. -/
@[simp]
theorem exactValue?_add (s t : Template) : (s + t).exactValue? σ =
    (s.exactValue? σ).bind fun p => (t.exactValue? σ).bind fun q => some (p + q) := rfl

@[simp]
theorem exactValue?_sub (s t : Template) : (s - t).exactValue? σ =
    (s.exactValue? σ).bind fun p => (t.exactValue? σ).bind fun q => some (p - q) := rfl

@[simp]
theorem exactValue?_mul (s t : Template) : (s * t).exactValue? σ =
    (s.exactValue? σ).bind fun p => (t.exactValue? σ).bind fun q => some (p * q) := rfl

/-- A quotient of templates has a value unless the denominator is zero. -/
@[simp]
theorem exactValue?_div (s t : Template) : (s / t).exactValue? σ =
    (s.exactValue? σ).bind fun p => (t.exactValue? σ).bind fun q => exactQuotient? p q := rfl

/-- A power of templates has a value unless the base is zero and the exponent negative. -/
@[simp]
theorem exactValue?_pow (s t : Template) : (pow s t).exactValue? σ =
    (s.exactValue? σ).bind fun p => (t.exactValue? σ).bind fun q => exactPower? p q := rfl

/-! ### Laws that are read from left to right only -/

section Laws

variable {s t u : Template} {q : ℚ}

/-- Powers of one base are merged by adding the exponents. -/
theorem exactValue?_pow_add (h : (pow s t * pow s u).exactValue? σ = some q) :
    (pow s (t + u)).exactValue? σ = some q := by
  simp only [exactValue?_mul, exactValue?_pow, Option.bind_eq_some_iff] at h
  obtain ⟨_, ⟨p, hs, m, ht, hm⟩, _, ⟨_, hs', n, hu, hn⟩, ⟨⟩⟩ := h
  obtain rfl := Option.some.inj (hs.symm.trans hs')
  simp only [exactValue?_pow, exactValue?_add, hs, ht, hu, Option.bind_some]
  exact exactPower?_add hm hn

/-- A further factor adds one to the exponent. -/
theorem exactValue?_pow_succ (h : (pow s t * s).exactValue? σ = some q) :
    (pow s (t + 1)).exactValue? σ = some q := by
  refine exactValue?_pow_add (u := 1) ?_
  simp only [exactValue?_mul, exactValue?_pow, Option.bind_eq_some_iff] at h
  obtain ⟨x, ⟨p, hs, m, ht, hm⟩, _, hs', ⟨⟩⟩ := h
  obtain rfl := Option.some.inj (hs.symm.trans hs')
  simp only [exactValue?_mul, exactValue?_pow, exactValue?_one, hs, ht, hm, exactPower?_one,
    Option.bind_some]

/-- A power of a power has the product of the exponents. -/
theorem exactValue?_pow_mul (h : (pow (pow s t) u).exactValue? σ = some q) :
    (pow s (t * u)).exactValue? σ = some q := by
  simp only [exactValue?_pow, Option.bind_eq_some_iff] at h
  obtain ⟨_, ⟨p, hs, m, ht, hm⟩, n, hu, hn⟩ := h
  simp only [exactValue?_pow, exactValue?_mul, hs, ht, hu, Option.bind_some]
  exact exactPower?_mul hm hn

/-- What has a quotient by itself is not zero, so that the quotient is one. -/
theorem exactValue?_div_self (h : (s / s).exactValue? σ = some q) :
    (1 : Template).exactValue? σ = some q := by
  simp only [exactValue?_div, Option.bind_eq_some_iff] at h
  obtain ⟨p, hs, _, hs', hq⟩ := h
  obtain rfl := Option.some.inj (hs.symm.trans hs')
  obtain ⟨hp, rfl⟩ := exactQuotient?_eq_some_iff.mp hq
  rw [exactValue?_one, div_self hp]

/-- A factor is canceled against the same denominator. -/
theorem exactValue?_mul_div_cancel (h : (s * t / t).exactValue? σ = some q) :
    s.exactValue? σ = some q := by
  simp only [exactValue?_div, exactValue?_mul, Option.bind_eq_some_iff] at h
  obtain ⟨_, ⟨x, hs, y, ht, ⟨⟩⟩, _, ht', hq⟩ := h
  obtain rfl := Option.some.inj (ht.symm.trans ht')
  obtain ⟨hy, rfl⟩ := exactQuotient?_eq_some_iff.mp hq
  rw [hs, mul_div_cancel_right₀ x hy]

/-- A denominator is canceled against the same factor. -/
theorem exactValue?_div_mul_cancel (h : (s / t * t).exactValue? σ = some q) :
    s.exactValue? σ = some q := by
  simp only [exactValue?_div, exactValue?_mul, Option.bind_eq_some_iff] at h
  obtain ⟨_, ⟨x, hs, y, ht, hq⟩, _, ht', ⟨⟩⟩ := h
  obtain rfl := Option.some.inj (ht.symm.trans ht')
  obtain ⟨hy, rfl⟩ := exactQuotient?_eq_some_iff.mp hq
  rw [hs, div_mul_cancel₀ x hy]

end Laws

end Template

/-! ## Rules -/

namespace Rule

/-- Where the left side has a value, the right side has the same value. -/
def Sound (r : Rule) : Prop :=
  ∀ (σ : ℕ → ℚ) (q : ℚ), r.left.exactValue? σ = some q → r.right.exactValue? σ = some q

/-- A law whose sides have the same values in the same places is sound. -/
theorem Sound.of_eq {r : Rule} (h : ∀ σ, r.left.exactValue? σ = r.right.exactValue? σ) :
    r.Sound :=
  fun σ _ hq => h σ ▸ hq

/-- The laws of fields are sound. -/
theorem sound_of_mem_arithmetic {r : Rule} (hr : r ∈ arithmetic) : r.Sound := by
  simp only [arithmetic, List.mem_cons, List.not_mem_nil, or_false] at hr
  rcases hr with rfl | rfl | rfl | rfl | rfl | rfl | rfl | rfl | rfl | rfl | rfl | rfl | rfl | rfl |
    rfl | rfl | rfl | rfl | rfl | rfl | rfl | rfl | rfl | rfl | rfl | rfl | rfl | rfl | rfl
  -- The first laws, up to the square as a power, are equations of partial values.
  iterate 22
    · exact .of_eq fun σ => by simp <;> ring
  · exact fun σ q h => Template.exactValue?_pow_add h
  · exact fun σ q h => Template.exactValue?_pow_succ h
  · exact fun σ q h => Template.exactValue?_pow_mul h
  · exact fun σ q h => Template.exactValue?_div_self h
  · exact .of_eq fun σ => by simp [exactQuotient?_neg]
  · exact fun σ q h => Template.exactValue?_mul_div_cancel h
  · exact fun σ q h => Template.exactValue?_div_mul_cancel h

end Rule

end SymbolicAlgebra
