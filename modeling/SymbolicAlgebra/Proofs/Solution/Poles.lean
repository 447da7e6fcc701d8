import SymbolicAlgebra.Proofs.Polynomial.NormalForm
import SymbolicAlgebra.Proofs.SetExpr.Listing
import SymbolicAlgebra.Solution.ZeroSet

/-!
# Poles of fractions

A quotient of two polynomials has no value at the zeros of its denominator, and neither has a power of
negative exponent at the zeros of its base. No such zero is listed for the whole expression,
`Expr.IsFraction.defined_of_mem_zeroSet`:

* the points at which the denominator of a quotient is zero are dropped,
  `ZeroSet.ne_zero_of_mem_dropPoles`;
* the zeros of the base are not those of a power, unless the exponent is positive,
  `ZeroSet.within_power_of_neg`.

The search looks at the normal form, so that the passes must not take the denominator away. They do if
it is a number other than zero, or if they make a number of the whole fraction. Otherwise there is
a denominator with the same values after each pass, `Expr.HasDenominator.pass`.
-/

namespace SymbolicAlgebra

variable {x : String} {ρ : Assignment} {δ : Assignment → ℚ}

/-! ## Fractions -/

namespace Expr

/-- A quotient of two small polynomials, or a power of one with any integer as exponent. -/
inductive IsFraction (x : String) : Expr → Prop
  | div {a b : Expr} (ha : a.IsSmall x) (hb : b.IsSmall x) : IsFraction x (.div a b)
  | power {b : Expr} (hb : b.IsSmall x) (k : ℤ) : IsFraction x (.power b (.int k))

/-- A quotient by a small polynomial with the given values, a power of negative exponent of a small
polynomial, or a number. -/
inductive HasDenominator (x : String) (δ : Assignment → ℚ) : Expr → Prop
  | number (n : Number) : HasDenominator x δ (.number n)
  | div {a b : Expr} (ha : a.IsSmall x) (hb : b.IsSmall x) (hvalue : ∀ ρ, b.value ρ = δ ρ) :
      HasDenominator x δ (.div a b)
  | power {b : Expr} {k : ℤ} (hb : b.IsSmall x) (hk : k < 0) : HasDenominator x δ (.power b (.int k))

/-- A small polynomial has an exact value at every number. -/
theorem IsSmall.hasValue_substitute {e : Expr} {n : Number} (h : e.IsSmall x)
    (hn : n.toRat? = some (ρ x)) : (e.substitute x (.number n)).HasValue (e.value ρ) := by
  induction h with
  | number hm =>
    rw [substitute_number, value_number hm]
    exact hasValue_number hm
  | var =>
    rw [substitute_var_self, value_var]
    exact hasValue_number hn
  | sum _ ih =>
    rw [substitute_sum, value_sum]
    exact .sum ih
  | product _ _ ih =>
    rw [substitute_product, value_product]
    exact .product ih
  | neg _ ih =>
    rw [substitute_neg, value_neg]
    exact ih.neg
  | div _ _ _ hne iha ihb =>
    rw [substitute_div, value_div]
    exact iha.div ihb (hne ρ)
  | @power b k _ h0 hk _ ih =>
    rw [substitute_power, value_power]
    refine ih.power (Folding.toSignedWord?_of_abs_le ?_) fun _ => h0
    rw [abs_of_nonneg h0]
    exact hk.trans (by decide)

end Expr

/-! ## Passes -/

namespace Folding

/-- A quotient stays as it is, unless it becomes a number or its denominator is a number other than
zero. -/
theorem foldDiv_cases (a : Expr) {b : Expr} (hb : b.Settled x) :
    (∃ n, foldDiv (.div a b) = .number n) ∨ foldDiv (.div a b) = .div a b ∨
      ∃ n q, b = .number n ∧ n.toRat? = some q ∧ q ≠ 0 := by
  cases hnum : b.toNumber? with
  | some n =>
    obtain rfl := Expr.eq_number_of_toNumber? hnum
    obtain ⟨q, hq⟩ := (hb.defined fun _ => 0).exists_toRat?
    by_cases hzero : q = 0
    · have hn : n.isZero = true := (Number.isZero_iff hq).mpr hzero
      have hone : ¬(Expr.number n).isOne = true := fun h =>
        one_ne_zero (((Number.isOne_iff hq).mp h).symm.trans hzero)
      exact .inr (.inl (by rw [foldDiv_number, if_neg hone, if_pos hn]))
    · exact .inr (.inr ⟨n, q, rfl, hq, hzero⟩)
  | none =>
    have hone : ¬b.isOne = true := by
      cases b with
      | number n => simp [Expr.toNumber?] at hnum
      | _ => simp [Expr.isOne]
    rw [foldDiv_of_toNumber?_eq_none a hnum, if_neg hone]
    split_ifs
    · exact .inl ⟨0, rfl⟩
    · exact .inl ⟨1, rfl⟩
    · exact .inr (.inl rfl)

/-- A power of negative exponent keeps the sign of the exponent, or becomes a number. -/
theorem foldPower_cases {b : Expr} {k : ℤ} (hb : b.Settled x) (hk : k < 0) :
    (∃ n, foldPower (.power b (.int k)) = .number n) ∨
      ∃ c j, foldPower (.power b (.int k)) = .power c (.int j) ∧ c.Settled x ∧
        c.degree x ≤ b.degree x ∧ j < 0 := by
  have hone : ¬(Expr.int k).isOne = true := fun h => by
    have h1 : k = 1 := Int.cast_eq_one.mp ((Number.isOne_iff (Number.toRat?_int k)).mp h)
    omega
  have hself : ∃ c j, Expr.power b (.int k) = .power c (.int j) ∧ c.Settled x ∧
      c.degree x ≤ b.degree x ∧ j < 0 := ⟨b, k, rfl, hb, le_rfl, hk⟩
  cases hnum : b.toNumber? with
  | some m =>
    obtain rfl := Expr.eq_number_of_toNumber? hnum
    rw [foldPower_number, if_neg hone]
    split_ifs
    · exact .inl ⟨1, rfl⟩
    · cases foldNumericPower? m (.int k) with
      | none => exact .inr hself
      | some n => exact .inl ⟨n, rfl⟩
  | none =>
    rw [foldPower_of_toNumber?_eq_none hnum, if_neg hone]
    split_ifs
    · exact .inl ⟨1, rfl⟩
    · cases hb with
      | @power c j hc hd hj =>
        -- The exponents of the two powers have a negative product.
        refine .inr ⟨c, j * k, rfl, hc, ?_, by nlinarith⟩
        rw [Expr.degree_power]
        exact Nat.le_mul_of_pos_left _ (by omega)
      | _ => exact .inr hself

end Folding

namespace Pattern

variable {K : ℤ → Prop} {p : Pattern} {a b : Expr} {k : ℤ}

/-- A quotient is left alone by every pattern but the one for quotients. -/
theorem apply_div_cases (hp : p ∈ library) (h : (Expr.div a b).IsField K) :
    p.apply (.div a b) = Folding.foldDiv (.div a b) ∨ p.apply (.div a b) = .div a b := by
  rcases mem_arithmetic_or_function hp with harith | hfunction
  · simp only [arithmetic, List.mem_cons, List.not_mem_nil, or_false] at harith
    rcases harith with rfl | rfl | rfl | rfl | rfl | rfl | rfl
    · exact .inr rfl
    · exact .inr rfl
    · exact .inr rfl
    · exact .inr rfl
    · exact .inl rfl
    · exact .inr (Folding.foldSqrt_eq_self h)
    · exact .inr (Folding.foldAbs_eq_self h)
  · exact .inr (apply_eq_self hfunction h)

/-- A power is left alone by every pattern but the one for powers. -/
theorem apply_power_cases (hp : p ∈ library) (h : (Expr.power b (.int k)).IsField K) :
    p.apply (.power b (.int k)) = Folding.foldPower (.power b (.int k)) ∨
      p.apply (.power b (.int k)) = .power b (.int k) := by
  rcases mem_arithmetic_or_function hp with harith | hfunction
  · simp only [arithmetic, List.mem_cons, List.not_mem_nil, or_false] at harith
    rcases harith with rfl | rfl | rfl | rfl | rfl | rfl | rfl
    · exact .inr rfl
    · exact .inr rfl
    · exact .inl rfl
    · exact .inr rfl
    · exact .inr rfl
    · exact .inr (Folding.foldSqrt_eq_self h)
    · exact .inr (Folding.foldAbs_eq_self h)
  · exact .inr (apply_eq_self hfunction h)

/-- A visited quotient stays as it is, unless it becomes a number or its denominator is a number
other than zero. -/
theorem visit_div_cases (ha : a.Settled x) (hb : b.Settled x) :
    (∃ n, visit (.div a b) = .number n) ∨ visit (.div a b) = .div a b ∨
      ∃ n q, b = .number n ∧ n.toRat? = some q ∧ q ≠ 0 := by
  by_cases hconstant : ∃ n q, b = .number n ∧ n.toRat? = some q ∧ q ≠ 0
  · exact .inr (.inr hconstant)
  have hfield : (Expr.div a b).IsField fun _ => True :=
    .div (ha.defined fun _ => 0).isField (hb.defined fun _ => 0).isField
  have hvisit : (∃ n, visit (.div a b) = .number n) ∨ visit (.div a b) = .div a b := by
    refine foldl_step_induction (P := fun e => (∃ n, e = .number n) ∨ e = .div a b) ?_ (.inr rfl)
    rintro p hp e (⟨n, rfl⟩ | rfl)
    · exact .inl ⟨n, apply_number hp n⟩
    · rcases apply_div_cases hp hfield with h | h
      · rw [h]
        rcases Folding.foldDiv_cases a hb with hnumber | hself | hother
        · exact .inl hnumber
        · exact .inr hself
        · exact absurd hother hconstant
      · exact .inr h
  exact hvisit.imp_right .inl

/-- A visited power of negative exponent keeps the sign of the exponent, or becomes a number. -/
theorem visit_power_cases (hb : b.Settled x) (hk : k < 0) :
    (∃ n, visit (.power b (.int k)) = .number n) ∨
      ∃ c j, visit (.power b (.int k)) = .power c (.int j) ∧ c.Settled x ∧
        c.degree x ≤ b.degree x ∧ j < 0 := by
  refine foldl_step_induction (P := fun e => (∃ n, e = .number n) ∨ ∃ c j, e = .power c (.int j) ∧
    c.Settled x ∧ c.degree x ≤ b.degree x ∧ j < 0) ?_ (.inr ⟨b, k, rfl, hb, le_rfl, hk⟩)
  rintro p hp e (⟨n, rfl⟩ | ⟨c, j, rfl, hc, hd, hj⟩)
  · exact .inl ⟨n, apply_number hp n⟩
  · have hfield : (Expr.power c (.int j)).IsField fun _ => True :=
      .power (hc.defined fun _ => 0).isField trivial
    rcases apply_power_cases hp hfield with h | h
    · rw [h]
      rcases Folding.foldPower_cases hc hj with hnumber | ⟨c', j', heq, hc', hd', hj'⟩
      · exact .inl hnumber
      · exact .inr ⟨c', j', heq, hc', hd'.trans hd, hj'⟩
    · exact .inr ⟨c, j, h, hc, hd, hj⟩

end Pattern

namespace Expr

variable {e : Expr}

/-- A pass keeps a denominator that is zero somewhere. -/
theorem HasDenominator.pass (he : e.HasDenominator x δ) (hzero : ∃ ρ, δ ρ = 0) :
    (Pattern.pass Pattern.library e).HasDenominator x δ := by
  change (e.mapBottomUp Pattern.visit).HasDenominator x δ
  cases he with
  | number n =>
    rw [mapBottomUp_number, Pattern.visit_number]
    exact .number n
  | @div a b ha hb hvalue =>
    have hsa : (a.mapBottomUp Pattern.visit).Settles x a := ha.pass_settles
    have hsb : (b.mapBottomUp Pattern.visit).Settles x b := hb.pass_settles
    have hvalue' : ∀ ρ, (b.mapBottomUp Pattern.visit).value ρ = δ ρ := fun ρ =>
      (hsb.refines ρ (hb.defined ρ)).2.trans (hvalue ρ)
    rw [mapBottomUp_div]
    rcases Pattern.visit_div_cases hsa.settled hsb.settled with ⟨n, h⟩ | h | ⟨n, q, hn, hq, hne⟩
    · rw [h]
      exact .number n
    · rw [h]
      exact .div (hsa.isSmall ha) (hsb.isSmall hb) hvalue'
    -- The denominator is zero somewhere, so it has not become a number other than zero.
    · obtain ⟨ρ, hρ⟩ := hzero
      have hzero' := (hvalue' ρ).trans hρ
      rw [hn, value_number hq] at hzero'
      exact absurd hzero' hne
  | @power b k hb hk =>
    have hs : (b.mapBottomUp Pattern.visit).Settles x b := hb.pass_settles
    have hint : mapBottomUp Pattern.visit (.int k) = .int k := Pattern.visit_number _
    rw [mapBottomUp_power, hint]
    rcases Pattern.visit_power_cases hs.settled hk with ⟨n, h⟩ | ⟨c, j, h, hc, hd, hj⟩
    · rw [h]
      exact .number n
    · rw [h]
      exact .power (hc.isSmall (hd.trans (hs.degree_le.trans hb.degree_le))) hj

/-- A denominator that vanishes somewhere comes through all passes of the simplification. -/
theorem HasDenominator.normalForm (he : e.HasDenominator x δ) (hzero : ∃ ρ, δ ρ = 0) :
    e.normalForm.HasDenominator x δ :=
  Pattern.normalizeWithin_induction (P := HasDenominator x δ) (fun _ h => h.pass hzero) 30 he

end Expr

/-! ## Listed points -/

namespace ZeroSet

variable {b p : Expr} {s : SetExpr} {n : Number}

/-- A point that stays was listed, and the denominator is not seen to vanish there. -/
theorem mem_of_mem_points_dropPoles (h : p ∈ (dropPoles x b s).points) :
    p ∈ s.points ∧ vanishes (b.substitute x p) = false := by
  cases s with
  | finite es =>
    have hmem := List.mem_filter.mp (SetExpr.mem_of_mem_points_ofElements h)
    exact ⟨hmem.1, by simpa using hmem.2⟩
  | _ => simp [dropPoles, SetExpr.points] at h

/-- A rational at which the denominator is zero is not listed for a quotient. -/
theorem ne_zero_of_mem_dropPoles {v : ℚ} (h : p ∈ (dropPoles x b s).points)
    (hv : (b.substitute x p).HasValue v) : v ≠ 0 := by
  obtain ⟨m, hm, hmv⟩ := hv.eval?
  have hvanishes := (mem_of_mem_points_dropPoles h).2
  rw [vanishes, hm, Option.any_some] at hvanishes
  intro hzero
  rw [(Number.isZero_iff hmv).mpr hzero] at hvanishes
  exact Bool.noConfusion hvanishes

/-- No points are listed for an expression without the variable. -/
theorem points_ofConstant (e : Expr) : (ofConstant e).points = [] := by
  rw [ofConstant]
  split_ifs <;> rfl

/-- A power of negative exponent is no polynomial. -/
theorem ofExpr?_power_of_neg {k : ℤ} (hx : (Expr.power b (.int k)).containsVar x = true)
    (hk : k < 0) : Coefficients.ofExpr? x (.power b (.int k)) = none := by
  obtain ⟨m, rfl⟩ := Int.eq_negSucc_of_lt_zero hk
  have hcollect : Coefficients.collect? x (.power b (.int (Int.negSucc m))) = none := by
    rw [Coefficients.collect?.eq_def, hx]
    rfl
  rw [Coefficients.ofExpr?, hcollect, Option.map_none]

/-- Nothing is listed for a power of negative exponent: the zeros of its base are not looked for. -/
theorem points_within_power_of_neg {levels : ℕ} {k : ℤ} (hk : k < 0)
    (h : within x levels (.power b (.int k)) = .ok s) : s.points = [] := by
  cases levels with
  | zero => cases h
  | succ levels =>
    unfold within at h
    cases hx : (Expr.power b (.int k)).containsVar x with
    | false =>
      rw [hx] at h
      obtain rfl := Except.ok.inj h
      exact points_ofConstant _
    | true =>
      have hneg : ¬isPositiveExponent x (.int k) = true := fun h => by
        have hpos : Number.isPositive (.int k) = true := ((Bool.and_eq_true _ _).mp h).2
        exact hk.not_gt (Int.cast_pos.mp ((Number.isPositive_iff (Number.toRat?_int k)).mp hpos))
      rw [hx] at h
      simp only [Bool.not_true, Bool.false_eq_true, if_false] at h
      rw [if_neg hneg, ofPolynomial, ofExpr?_power_of_neg hx hk] at h
      cases h

/-- At a point that is listed for a fraction, the denominator is not zero. -/
theorem ne_zero_of_mem_within {e : Expr} {levels : ℕ} (he : e.HasDenominator x δ)
    (h : within x levels e = .ok s) (hmem : .number n ∈ s.points) (hn : n.toRat? = some (ρ x)) :
    δ ρ ≠ 0 := by
  cases levels with
  | zero => cases h
  | succ levels =>
    have hconstant : e.containsVar x = true := by
      by_contra hx
      unfold within at h
      rw [Bool.not_eq_true] at hx
      rw [hx] at h
      obtain rfl := Except.ok.inj h
      simp [points_ofConstant] at hmem
    cases he with
    | number m => simp at hconstant
    | @div a b ha hb hvalue =>
      unfold within at h
      rw [hconstant] at h
      obtain ⟨t, -, h⟩ := bind_eq_ok h
      obtain rfl := Except.ok.inj h
      rw [← hvalue]
      exact ne_zero_of_mem_dropPoles hmem (hb.hasValue_substitute hn)
    | power hb hk =>
      rw [points_within_power_of_neg hk h] at hmem
      exact absurd hmem List.not_mem_nil

end ZeroSet

/-- A fraction is defined at the points that its zero set lists. -/
theorem Expr.IsFraction.defined_of_mem_zeroSet {e : Expr} {points : List Expr} {n : Number}
    (he : e.IsFraction x) (h : e.zeroSet x = .ok (.finite points)) (hmem : .number n ∈ points)
    (hn : n.toRat? = some (ρ x)) : e.Defined ρ := by
  cases he with
  | @div a b ha hb =>
    refine .div (ha.defined ρ) (hb.defined ρ) ?_
    by_cases hzero : ∃ ρ, b.value ρ = 0
    · have hnormal := (HasDenominator.div ha hb fun _ => rfl).normalForm hzero
      exact ZeroSet.ne_zero_of_mem_within hnormal h hmem hn
    · exact fun h => hzero ⟨ρ, h⟩
  | @power b hb k =>
    refine .power (hb.defined ρ) fun hρ => ?_
    by_contra hk
    rw [not_le] at hk
    have hnormal := (HasDenominator.power (δ := b.value) hb hk).normalForm ⟨ρ, hρ⟩
    exact ZeroSet.ne_zero_of_mem_within hnormal h hmem hn hρ

/-- The numerator of `(x ^ 2 - 4) / (x - 2)` is zero at 2 too. -/
example : (((Expr.power (.var "x") (.int 2) - 4) / (.var "x" - 2)).zeroSet "x").toOption.any
    (fun s => sameAll s.points [.int (-2)]) = true := by decide +kernel

end SymbolicAlgebra
