import Mathlib.Data.List.Permutation
import SymbolicAlgebra.Proofs.SetExpr.Intersection
import SymbolicAlgebra.Proofs.Solution.ZeroSet
import SymbolicAlgebra.Solution.PositiveSet

/-!
# Where polynomials are positive

The positive set of a linear polynomial, and of a quadratic one that splits over the rationals, stands
for the rationals at which the polynomial is positive: `Expr.IsSmall.denotes_positiveSet`. Its bounds
are in order unless the polynomial is positive nowhere, as a negated square is.

Whether a polynomial splits is told by its coefficients, `Coefficients.HasRationalRoots`. Then there
is a positive set, and membership in it is the sign at the point:
`Expr.mem_positiveSet_of_hasRationalRoots`.
-/

namespace SymbolicAlgebra

open Polynomial SetExpr
open SymbolicAlgebra.Bound

variable {x : String}

/-- A set that stands for some rational has its bounds in order. -/
theorem SetExpr.Denotes.isProper {V : Expr → ℚ → Prop} {s : SetExpr} {A : Set ℚ}
    (h : Denotes V s A) (hA : A.Nonempty) : s.IsProper := by
  cases s with
  | interval l lc r rc =>
    obtain ⟨α, β, hl, hr, rfl⟩ := h.interval_inv
    refine ⟨α, β, hl, hr, ?_⟩
    by_contra hproper
    rw [Interval.between_eq_empty hproper] at hA
    exact Set.not_nonempty_empty hA
  | _ => trivial

namespace PositiveSet

/-! ## Rays and open intervals -/

/-- The open interval between two rationals, without a condition on their order. -/
theorem denotes_openInterval (a b : ℚ) :
    Denotes Expr.IsRat (openInterval (.rat a) (.rat b)) {q | a < q ∧ q < b} := by
  have hset : {q | a < q ∧ q < b} = between a false b false := by
    ext q
    simp [between, Above, Below]
  rw [hset]
  exact .interval (Expr.hasValue_rat a).hasBound (Expr.hasValue_rat b).hasBound

/-- The rationals below a bound. -/
theorem denotes_rayBelow (b : ℚ) : Denotes Expr.IsRat (rayBelow (.rat b)) {q | q < b} := by
  have hset : {q | q < b} = between ⊥ false b false := by
    ext q
    have hbot : (⊥ : Bound) < q := Bound.bot_lt_coe q
    simp [between, Above, Below, hbot]
  rw [hset]
  exact .interval Expr.hasBound_negInf (Expr.hasValue_rat b).hasBound

/-- The rationals above a bound. -/
theorem denotes_rayAbove (a : ℚ) : Denotes Expr.IsRat (rayAbove (.rat a)) {q | a < q} := by
  have hset : {q | a < q} = between a false ⊤ false := by
    ext q
    simp [between, Above, Below, Bound.coe_lt_top]
  rw [hset]
  exact .interval (Expr.hasValue_rat a).hasBound Expr.hasBound_posInf

/-! ## Roots -/

/-- Rational roots are real. -/
theorem rootKind_rat (q : ℚ) : RootKind.ofExpr (.rat q) = .real := by
  obtain ⟨n, hn, hq⟩ := (Expr.hasValue_rat q).eval?
  rw [RootKind.ofExpr, hn]
  obtain ⟨k, rfl, -⟩ | rfl := Number.eq_int_or_eq_rat hq <;> rfl

/-- The sign test of a literal is the sign of its value. -/
theorem isNegative_iff {a : Expr} {q : ℚ} (ha : a.IsNumber q) : isNegative a = true ↔ q < 0 := by
  obtain ⟨n, rfl, hn⟩ := ha
  exact Number.isNegative_iff hn

/-- Rational roots are put in ascending order. -/
theorem ascending_rat (a b : ℚ) :
    ascending (.rat a, .rat b) = (.rat (min a b), .rat (max a b)) := by
  have hcmp : Interval.compareBounds? (.rat a) (.rat b) = some (cmp a b) := by
    rw [Interval.compareBounds?_eq (Expr.hasValue_rat a).hasBound (Expr.hasValue_rat b).hasBound,
      WithBotTop.coe_strictMono.cmp_map_eq]
  have hgt : (some (cmp a b) == some .gt) = true ↔ b < a := by
    rw [beq_iff_eq, Option.some.injEq, cmp_eq_gt_iff]
  rw [ascending, hcmp]
  rcases lt_or_ge b a with hlt | hle
  · rw [if_pos (hgt.mpr hlt), min_eq_right hlt.le, max_eq_left hlt.le]
  · rw [if_neg (mt hgt.mp hle.not_gt), min_eq_left hle, max_eq_right hle]

/-! ## Signs -/

/-- A linear polynomial is positive on one side of its root. -/
theorem denotes_ofLinear {a b : Expr} {p q : ℚ} (ha : a.IsNumber p) (hb : b.IsNumber q)
    (hp : p ≠ 0) : Denotes Expr.IsRat (ofLinear ⟨a, b⟩) {t | 0 < p * t + q} := by
  simp only [ofLinear, Linear.root_eq ha hb hp, rootKind_rat, reduceCtorEq, if_false]
  have hfactor : ∀ t, p * t + q = p * (t - -q / p) := fun t => by field_simp; ring
  split_ifs with hneg
  · have hset : {t | 0 < p * t + q} = {t | t < -q / p} := by
      ext t
      have hp' : p < 0 := (isNegative_iff ha).mp hneg
      simp only [hfactor, Set.mem_ofPred_eq, mul_pos_iff, hp', hp'.not_gt, false_and, true_and,
        false_or, sub_neg]
    rw [hset]
    exact denotes_rayBelow _
  · have hset : {t | 0 < p * t + q} = {t | -q / p < t} := by
      ext t
      have hp' : 0 < p := lt_of_le_of_ne (not_lt.mp fun h => hneg ((isNegative_iff ha).mpr h)) hp.symm
      simp only [hfactor, Set.mem_ofPred_eq, mul_pos_iff_of_pos_left hp', sub_pos]
    rw [hset]
    exact denotes_rayAbove _

/-- A parabola open above is negative between its roots. -/
theorem sub_mul_sub_neg_iff {a b t : ℚ} (h : a ≤ b) :
    (t - a) * (t - b) < 0 ↔ a < t ∧ t < b := by
  rw [mul_neg_iff]
  constructor
  · rintro (⟨ha, hb⟩ | ⟨ha, hb⟩)
    · exact ⟨by linarith, by linarith⟩
    · exact ⟨by linarith, by linarith⟩
  · exact fun ⟨ha, hb⟩ => .inl ⟨by linarith, by linarith⟩

/-- A parabola open above is positive outside of its roots. -/
theorem sub_mul_sub_pos_iff {a b t : ℚ} (h : a ≤ b) :
    0 < (t - a) * (t - b) ↔ t < a ∨ b < t := by
  rw [mul_pos_iff]
  constructor
  · rintro (⟨ha, hb⟩ | ⟨ha, hb⟩)
    · exact .inr (by linarith)
    · exact .inl (by linarith)
  · rintro (ha | hb)
    · exact .inr ⟨by linarith, by linarith⟩
    · exact .inl ⟨by linarith, by linarith⟩

/-- Two roots bound the positive set of a quadratic polynomial from inside or from outside. -/
theorem ofQuadratic_eq {a b c : Expr} {p q r s : ℚ} (ha : a.IsNumber p) (hb : b.IsNumber q)
    (hc : c.IsNumber r) (hp : p ≠ 0) (hs : q ^ 2 - 4 * p * r = s * s) {u v : ℚ}
    (hu : u = (-q - |s|) / (2 * p)) (hv : v = (-q + |s|) / (2 * p)) :
    ofQuadratic ⟨a, b, c⟩ = if p < 0 then openInterval (.rat (min u v)) (.rat (max u v))
      else (rayBelow (.rat (min u v))).unite (rayAbove (.rat (max u v))) := by
  simp only [ofQuadratic, Quadratic.roots_eq ha hb hc hp hs, ← hu, ← hv, rootKind_rat, reduceCtorEq,
    decide_false, Bool.or_self, if_false, ascending_rat, Bool.false_eq_true, isNegative_iff ha]

/-- A quadratic polynomial is positive between its roots, or outside of them. -/
theorem denotes_ofQuadratic {a b c : Expr} {p q r s : ℚ} (ha : a.IsNumber p) (hb : b.IsNumber q)
    (hc : c.IsNumber r) (hp : p ≠ 0) (hs : q ^ 2 - 4 * p * r = s * s) :
    Denotes Expr.IsRat (ofQuadratic ⟨a, b, c⟩) {t | 0 < p * t ^ 2 + q * t + r} := by
  obtain ⟨u, hu⟩ : ∃ u, u = (-q - |s|) / (2 * p) := ⟨_, rfl⟩
  obtain ⟨v, hv⟩ : ∃ v, v = (-q + |s|) / (2 * p) := ⟨_, rfl⟩
  have horder : min u v ≤ max u v := min_le_max
  have hfactor : ∀ t, p * t ^ 2 + q * t + r = p * ((t - min u v) * (t - max u v)) := by
    intro t
    have habs : |s| * |s| = s * s := abs_mul_abs_self s
    -- The formula gives the roots in an order that depends on the leading coefficient.
    have hswap : (t - min u v) * (t - max u v) = (t - u) * (t - v) := by
      rcases le_total u v with h | h
      · rw [min_eq_left h, max_eq_right h]
      · rw [min_eq_right h, max_eq_left h, mul_comm]
    rw [hswap, hu, hv]
    field_simp
    linear_combination habs - hs
  rw [ofQuadratic_eq ha hb hc hp hs hu hv]
  simp only [hfactor, mul_pos_iff (a := p)]
  split_ifs with hneg
  · simp only [hneg, hneg.not_gt, false_and, true_and, false_or, sub_mul_sub_neg_iff horder]
    exact denotes_openInterval _ _
  · have hpos : 0 < p := lt_of_le_of_ne (not_lt.mp hneg) hp.symm
    simp only [hpos, hneg, false_and, true_and, or_false, sub_mul_sub_pos_iff horder]
    have hbelow := denotes_rayBelow (min u v)
    have habove := denotes_rayAbove (max u v)
    exact (hbelow.unite Expr.IsRat.hasValue habove (hbelow.isProper (exists_lt _))
      (habove.isProper (exists_gt _))).1

/-- A quadratic polynomial is positive somewhere, unless it is a negated square. -/
theorem exists_quadratic_pos {p q r s : ℚ} (hp : p ≠ 0) (hs : q ^ 2 - 4 * p * r = s * s)
    (h : 0 < p ∨ s ≠ 0) : ∃ t, 0 < p * t ^ 2 + q * t + r := by
  have hvalue : ∀ k, p * ((-q + k) / (2 * p)) ^ 2 + q * ((-q + k) / (2 * p)) + r =
      (k ^ 2 - s ^ 2) / (4 * p) := fun k => by
    field_simp
    linear_combination -4 * hs
  rcases lt_or_gt_of_ne hp with hneg | hpos
  · have hs0 : s ≠ 0 := h.resolve_left hneg.not_gt
    refine ⟨(-q + 0) / (2 * p), ?_⟩
    rw [hvalue]
    refine div_pos_of_neg_of_neg ?_ (by linarith)
    have hsq : 0 < s ^ 2 := by positivity
    linarith
  · refine ⟨(-q + (|s| + 1)) / (2 * p), ?_⟩
    rw [hvalue]
    refine div_pos ?_ (by linarith)
    nlinarith [sq_abs s, abs_nonneg s]

end PositiveSet

namespace Expr

variable {e : Expr} {p : ℚ[X]} {s : SetExpr}

/-- Linear and quadratic polynomials have a positive set, which is found from their coefficients. -/
theorem IsSmall.positiveSet_cases (he : e.IsSmall x) (hp : e.Represents x p)
    (h : e.positiveSet x = .ok s) :
    (∃ a b u v, a.IsNumber u ∧ b.IsNumber v ∧ u ≠ 0 ∧ p = C u * X + C v ∧
        s = PositiveSet.ofLinear ⟨a, b⟩) ∨
      ∃ a b c u v w, a.IsNumber u ∧ b.IsNumber v ∧ c.IsNumber w ∧ u ≠ 0 ∧
        p = C u * X ^ 2 + C v * X + C w ∧ s = PositiveSet.ofQuadratic ⟨a, b, c⟩ := by
  rw [positiveSet] at h
  split at h
  · next b a hcoefficients =>
    obtain ⟨u, v, ha, hb, hu, hlinear⟩ := he.represents_linear hcoefficients
    exact .inl ⟨a, b, u, v, ha, hb, hu, hp.unique hlinear, (Except.ok.inj h).symm⟩
  · next c b a hcoefficients =>
    obtain ⟨u, v, w, ha, hb, hc, hu, hquadratic⟩ := he.represents_quadratic hcoefficients
    exact .inr ⟨a, b, c, u, v, w, ha, hb, hc, hu, hp.unique hquadratic, (Except.ok.inj h).symm⟩
  · cases h

/-- The positive set of a small polynomial that splits. -/
theorem IsSmall.denotes_positiveSet (he : e.IsSmall x) (hp : e.Represents x p)
    (hsplits : p.Splits) (h : e.positiveSet x = .ok s) : Denotes IsRat s {q | 0 < p.eval q} := by
  rcases he.positiveSet_cases hp h with
    ⟨a, b, u, v, ha, hb, hu, rfl, rfl⟩ | ⟨a, b, c, u, v, w, ha, hb, hc, hu, rfl, rfl⟩
  · simpa using PositiveSet.denotes_ofLinear ha hb hu
  · obtain ⟨d, hd⟩ := discriminant_of_splits hu hsplits
    simpa using PositiveSet.denotes_ofQuadratic ha hb hc hu hd

/-- A polynomial of degree one at most with a positive set is positive somewhere. -/
theorem IsSmall.exists_pos_of_positiveSet (he : e.IsSmall x) (hp : e.Represents x p)
    (hd : p.natDegree ≤ 1) (h : e.positiveSet x = .ok s) : ∃ q, 0 < p.eval q := by
  rcases he.positiveSet_cases hp h with
    ⟨a, b, u, v, -, -, hu, rfl, -⟩ | ⟨a, b, c, u, v, w, -, -, -, hu, rfl, -⟩
  · refine ⟨(1 - v) / u, ?_⟩
    simp only [eval_add, eval_mul, eval_C, eval_X, mul_div_cancel₀ _ hu]
    linarith
  · rw [natDegree_quadratic hu] at hd
    omega

/-- The positive set of a negated square is written as an interval without an inside. -/
theorem IsSmall.positiveSet_of_negated_square {a t : ℚ} (ha : a < 0) (he : e.IsSmall x)
    (hp : e.Represents x (C a * (X - C t) ^ 2)) (h : e.positiveSet x = .ok s) :
    s = PositiveSet.openInterval (.rat t) (.rat t) := by
  have hdegree : (C a * (X - C t) ^ 2).natDegree = 2 := by
    rw [natDegree_C_mul ha.ne, natDegree_pow, natDegree_X_sub_C]
  rcases he.positiveSet_cases hp h with
    ⟨a', b, u, v, -, -, hu, heq, -⟩ | ⟨a', b, c, u, v, w, hu', hv, hw, hu, heq, rfl⟩
  · rw [heq, natDegree_linear hu] at hdegree
    omega
  · -- The values at three points give the coefficients of the square multiplied out.
    have heval : ∀ k, a * (k - t) ^ 2 = u * k ^ 2 + v * k + w := fun k => by
      simpa using congrArg (Polynomial.eval k) heq
    have h0 := heval 0
    have h1 := heval 1
    have h2 := heval (-1)
    obtain rfl : u = a := by linarith
    obtain rfl : v = -(2 * u * t) := by linarith
    obtain rfl : w = u * t ^ 2 := by linarith
    have hdisc : (-(2 * u * t)) ^ 2 - 4 * u * (u * t ^ 2) = 0 * 0 := by ring
    have hroot : ∀ k : ℚ, k = 0 → t = (-(-(2 * u * t)) + k) / (2 * u) := by
      rintro k rfl
      field_simp
      ring
    rw [PositiveSet.ofQuadratic_eq hu' hv hw hu hdisc (u := t) (v := t)
      (by rw [sub_eq_add_neg]; exact hroot _ (by simp)) (hroot _ abs_zero), if_pos ha, min_self,
      max_self]

/-! ## Membership -/

/-- A polynomial expression has an exact value at every rational. -/
theorem IsPolynomial.hasValue_substitute {e : Expr} {n : Number} {q : ℚ}
    (h : e.IsPolynomial x) (hn : n.toRat? = some q) :
    (e.substitute x (.number n)).HasValue (e.value fun _ => q) := by
  induction h with
  | number hm =>
    rw [substitute_number, value_number hm]
    exact hasValue_number hm
  | var =>
    rw [substitute_var_self, value_var]
    exact hasValue_number hn
  | @sum es _ ih =>
    rw [substitute_sum, value_sum]
    exact .sum ih
  | @product es _ ih =>
    rw [substitute_product, value_product]
    exact .product ih
  | neg _ ih =>
    rw [substitute_neg, value_neg]
    exact ih.neg
  | div _ hm hq ih =>
    rw [substitute_div, substitute_number, value_div, value_number hm]
    exact ih.div (hasValue_number hm) hq
  | @power b k _ h0 hk ih =>
    rw [substitute_power, value_power]
    refine ih.power (Folding.toSignedWord?_of_abs_le ?_) fun _ => h0
    rw [abs_of_nonneg h0]
    exact hk.trans (by decide)

end Expr

/-- Two coefficients, or three with the square of a rational as the discriminant. -/
inductive Coefficients.HasRationalRoots (ρ : Assignment) : Coefficients → Prop
  | linear (b a : Expr) : HasRationalRoots ρ [b, a]
  | quadratic {c b a : Expr}
      (hd : IsSquare (b.value ρ ^ 2 - 4 * a.value ρ * c.value ρ)) : HasRationalRoots ρ [c, b, a]

namespace Expr

variable {e : Expr} {cs : Coefficients} {ρ : Assignment}

/-- Where the roots are rational, there is a positive set, and it stands for the rationals at which
the expression is positive. -/
theorem IsPolynomial.exists_denotes_positiveSet (he : e.IsPolynomial x)
    (h : Coefficients.ofExpr? x e = some cs) (hr : cs.HasRationalRoots ρ) :
    ∃ s, e.positiveSet x = .ok s ∧ Denotes IsRat s {q | 0 < e.value fun _ => q} := by
  have hsmall : e.IsSmall x := he.isSmall_of_coefficients h
  cases hr with
  | linear b a =>
    obtain ⟨p, q, ha, hb, hp, hrep⟩ := hsmall.represents_linear h
    refine ⟨_, by rw [positiveSet, h], ?_⟩
    have hvalue : ∀ t, e.value (fun _ => t) = p * t + q := fun t => by simpa using hrep fun _ => t
    simp only [hvalue]
    exact PositiveSet.denotes_ofLinear ha hb hp
  | @quadratic c b a hd =>
    obtain ⟨p, q, r, ha, hb, hc, hp, hrep⟩ := hsmall.represents_quadratic h
    rw [ha.value_eq, hb.value_eq, hc.value_eq] at hd
    obtain ⟨s, hs⟩ := hd
    refine ⟨_, by rw [positiveSet, h], ?_⟩
    have hvalue : ∀ t, e.value (fun _ => t) = p * t ^ 2 + q * t + r :=
      fun t => by simpa using hrep fun _ => t
    simp only [hvalue]
    exact PositiveSet.denotes_ofQuadratic ha hb hc hp hs

/-- A polynomial expression with rational roots has a positive set, and a rational is in it exactly
where the expression evaluates to a positive number. -/
theorem mem_positiveSet_of_hasRationalRoots (he : e.IsPolynomial x)
    (h : Coefficients.ofExpr? x e = some cs) (hr : cs.HasRationalRoots ρ) :
    ∃ s, e.positiveSet x = .ok s ∧ ∀ {n : Number} {q : ℚ}, n.toRat? = some q →
      ∃ v, (e.substitute x (.number n)).HasValue v ∧
        s.contains? (.number n) = some (decide (0 < v)) := by
  obtain ⟨s, hs, hden⟩ := he.exists_denotes_positiveSet h hr
  refine ⟨s, hs, fun {n q} hn => ⟨_, he.hasValue_substitute hn, ?_⟩⟩
  exact (hden.contains? IsRat.hasValue (hasValue_number hn)).eq_some_decide

/-- A parabola that opens downwards, where the formula yields the larger root first: it is positive
between the roots, and not at the smaller one. -/
theorem mem_positiveSet_of_downward_parabola :
    ∃ s, (.neg ((.var "x" - 1) * (.var "x" - 3)) : Expr).positiveSet "x" = .ok s ∧
      s.contains? 2 = some true ∧ s.contains? 1 = some false := by
  have hx : ∀ k : ℕ, Expr.IsPolynomial "x" (.var "x" - .number (.int k)) := fun k =>
    .sum (by simpa using ⟨.var, .neg (.number rfl)⟩)
  have he : (.neg ((.var "x" - 1) * (.var "x" - 3)) : Expr).IsPolynomial "x" :=
    .neg (.product (by simpa using ⟨hx 1, hx 3⟩))
  have hcs : Coefficients.ofExpr? "x" (.neg ((.var "x" - 1) * (.var "x" - 3))) =
      some [.int (-3), .int 4, .int (-1)] := by cbv
  have hr : Coefficients.HasRationalRoots (fun _ => 0) [.int (-3), .int 4, .int (-1)] :=
    .quadratic ⟨2, by norm_num⟩
  have hinside : ((.neg ((.var "x" - 1) * (.var "x" - 3)) : Expr).substitute "x"
      (.number 2)).HasValue 1 := ⟨1, by with_unfolding_all rfl, rfl⟩
  have hroot : ((.neg ((.var "x" - 1) * (.var "x" - 3)) : Expr).substitute "x"
      (.number 1)).HasValue 0 := ⟨0, by with_unfolding_all rfl, rfl⟩
  obtain ⟨s, hs, hmem⟩ := mem_positiveSet_of_hasRationalRoots he hcs hr
  obtain ⟨v, hv, htwo⟩ := hmem (n := 2) rfl
  obtain ⟨w, hw, hone⟩ := hmem (n := 1) rfl
  rw [hv.unique hinside] at htwo
  rw [hw.unique hroot] at hone
  exact ⟨s, hs, htwo.trans (by simp), hone.trans (by simp)⟩

end Expr

end SymbolicAlgebra
