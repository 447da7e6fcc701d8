import Mathlib.Algebra.Polynomial.Splits
import Mathlib.Algebra.QuadraticDiscriminant
import Mathlib.Tactic.LinearCombination
import SymbolicAlgebra.Proofs.Polynomial.Roots
import SymbolicAlgebra.Proofs.SetExpr.Union
import SymbolicAlgebra.Solution.ZeroSet

/-!
# Zero sets of polynomials

A zero set is right for a polynomial, `ZeroSet.Correct`, if it holds the whole line for the zero
polynomial, and otherwise lists the roots, as far as the polynomial splits into linear factors over
the rationals.

The levels of a settled expression follow the factors of its polynomial. So a relation between sets
and polynomials holds for zero sets, `ZeroSet.Lawful.of_within`, if it does for constants and
polynomials of low degree, and if products, powers and signs pass it on.
-/

namespace SymbolicAlgebra

open Polynomial SetExpr

variable {x : String}

namespace Expr

/-- The expression is the literal of a rational. -/
def IsRat (e : Expr) (q : ℚ) : Prop := e = .rat q

theorem IsRat.hasValue (e : Expr) (q : ℚ) (h : e.IsRat q) : e.HasValue q := h ▸ hasValue_rat q

/-! ## Settled expressions as polynomials -/

namespace Represents

variable {a : Expr} {es : List Expr} {p : ℚ[X]} {P : Expr → ℚ[X]}

theorem number {n : Number} {q : ℚ} (h : n.toRat? = some q) :
    (Expr.number n).Represents x (C q) := by
  intro ρ
  rw [value_number h, eval_C]

theorem sum (h : ∀ e ∈ es, e.Represents x (P e)) : (Expr.sum es).Represents x (es.map P).sum := by
  intro ρ
  rw [value_sum, eval_listSum, List.map_map]
  exact congrArg List.sum (List.map_congr_left fun e he => h e he ρ)

theorem product (h : ∀ e ∈ es, e.Represents x (P e)) :
    (Expr.product es).Represents x (es.map P).prod := by
  intro ρ
  rw [value_product, eval_list_prod, List.map_map]
  exact congrArg List.prod (List.map_congr_left fun e he => h e he ρ)

theorem neg (h : a.Represents x p) : (Expr.neg a).Represents x (-p) := by
  intro ρ
  rw [value_neg, h ρ, eval_neg]

/-- A literal exponent that is not negative represents a power of polynomials. -/
theorem power {k : ℤ} (h : a.Represents x p) (hk : 0 ≤ k) :
    (Expr.power a (.int k)).Represents x (p ^ k.toNat) := by
  intro ρ
  rw [value_power, h ρ, eval_pow, ← zpow_natCast, Int.toNat_of_nonneg hk]

end Represents

/-- A settled expression represents a polynomial. -/
theorem Settled.exists_represents {e : Expr} (h : e.Settled x) : ∃ p, e.Represents x p := by
  induction h with
  | number h => exact ⟨_, .number h⟩
  | var => exact ⟨X, fun ρ => by rw [value_var, eval_X]⟩
  | sum _ _ ih =>
    choose! P hP using ih
    exact ⟨_, .sum hP⟩
  | product _ _ _ ih =>
    choose! P hP using ih
    exact ⟨_, .product hP⟩
  | neg _ _ ih =>
    obtain ⟨p, hp⟩ := ih
    exact ⟨_, hp.neg⟩
  | power _ _ hk ih =>
    obtain ⟨p, hp⟩ := ih
    exact ⟨_, hp.power (by omega)⟩

/-- Simplification changes the value nowhere, so it keeps the polynomial of a small expression. -/
theorem IsSmall.represents_normalForm {e : Expr} {p : ℚ[X]} (he : e.IsSmall x)
    (hp : e.Represents x p) : e.normalForm.Represents x p := fun ρ => by
  rw [he.value_normalForm, hp ρ]

end Expr

/-! ## Quadratic polynomials -/

section Quadratic

variable {p q r s : ℚ}

/-- A quadratic polynomial that splits has the square of a rational as its discriminant. -/
theorem discriminant_of_splits (hp : p ≠ 0) (h : (C p * X ^ 2 + C q * X + C r).Splits) :
    ∃ s, q ^ 2 - 4 * p * r = s * s := by
  obtain ⟨t, ht⟩ := h.exists_eval_eq_zero (by rw [degree_quadratic hp]; decide)
  simp only [eval_add, eval_mul, eval_pow, eval_C, eval_X] at ht
  exact ⟨2 * p * t + q, by linear_combination (-4 * p) * ht⟩

/-- The roots, where the discriminant is the square of `s`. -/
theorem isRoot_quadratic_iff (hp : p ≠ 0) (hs : q ^ 2 - 4 * p * r = s * s) (t : ℚ) :
    (C p * X ^ 2 + C q * X + C r).IsRoot t ↔
      t = (-q - |s|) / (2 * p) ∨ t = (-q + |s|) / (2 * p) := by
  have hdisc : discrim p q r = |s| * |s| := by rw [discrim, hs, abs_mul_abs_self]
  have hroots := quadratic_eq_zero_iff hp hdisc t
  rw [or_comm, ← hroots, IsRoot.def]
  simp [sq]

/-- A quadratic polynomial with the square of a rational as its discriminant splits. -/
theorem splits_quadratic (hp : p ≠ 0) (hs : q ^ 2 - 4 * p * r = s * s) :
    (C p * X ^ 2 + C q * X + C r).Splits := by
  have hfactor : C p * X ^ 2 + C q * X + C r =
      C p * ((X - C ((-q - s) / (2 * p))) * (X - C ((-q + s) / (2 * p)))) := by
    refine Polynomial.funext fun t => ?_
    simp only [eval_add, eval_mul, eval_pow, eval_sub, eval_C, eval_X]
    field_simp
    linear_combination -hs
  rw [hfactor]
  exact ((Splits.X_sub_C _).mul (Splits.X_sub_C _)).C_mul _

end Quadratic

namespace ZeroSet

/-- The set is the set of the rational zeros of a polynomial: the whole line for the zero polynomial,
and the list of roots for a polynomial that splits. -/
structure Correct (s : SetExpr) (p : ℚ[X]) : Prop where
  full : p = 0 → s.Full
  lists : p ≠ 0 → p.Splits → Denotes Expr.IsRat s {q | p.IsRoot q} ∧ s.IsFinite

/-- A list of rationals. -/
theorem denotes_rats (qs : List ℚ) :
    Denotes Expr.IsRat (.ofElements (qs.map Expr.rat)) {q | q ∈ qs} ∧
      (SetExpr.ofElements (qs.map Expr.rat)).IsFinite := by
  have hset : {q | ∃ e ∈ qs.map Expr.rat, e.IsRat q} = {q | q ∈ qs} := by
    ext q
    simp only [List.mem_map, Set.mem_ofPred_eq]
    constructor
    · rintro ⟨_, ⟨r, hr, rfl⟩, hq⟩
      rwa [(Expr.hasValue_rat r).unique (Expr.IsRat.hasValue _ q hq)] at hr
    · exact fun hq => ⟨_, ⟨q, hq, rfl⟩, rfl⟩
  rw [← hset]
  refine ⟨denotes_ofElements Expr.IsRat.hasValue ?_, isFinite_ofElements _⟩
  exact List.forall_mem_map.mpr fun q _ => ⟨q, rfl⟩

/-- Polynomials of degree one and two. -/
theorem ofPolynomial_correct {e : Expr} {p : ℚ[X]} {s : SetExpr} (he : e.IsSmall x)
    (hp : e.Represents x p) (h : ofPolynomial x e = .ok s) : Correct s p := by
  rw [ofPolynomial] at h
  split at h
  · next b a hcoefficients =>
    obtain ⟨u, v, ha, hb, hu, hlinear⟩ := he.represents_linear hcoefficients
    obtain rfl := hp.unique hlinear
    rw [Linear.root_eq ha hb hu] at h
    obtain rfl := Except.ok.inj h
    refine ⟨fun h0 => absurd (degree_linear hu) (by rw [h0]; decide), fun _ _ => ?_⟩
    have hroots : {t | (C u * X + C v).IsRoot t} = {t | t ∈ [-v / u]} := by
      ext t
      simp only [IsRoot.def, eval_add, eval_mul, eval_C, eval_X, Set.mem_ofPred_eq,
        List.mem_singleton, eq_div_iff hu, mul_comm u]
      exact ⟨fun h => by linarith, fun h => by linarith⟩
    rw [hroots]
    exact denotes_rats [-v / u]
  · next c b a hcoefficients =>
    obtain ⟨u, v, w, ha, hb, hc, hu, hquadratic⟩ := he.represents_quadratic hcoefficients
    obtain rfl := hp.unique hquadratic
    refine ⟨fun h0 => absurd (degree_quadratic hu) (by rw [h0]; decide), fun _ hsplits => ?_⟩
    -- Since the polynomial splits, the discriminant is the square of a rational.
    obtain ⟨d, hd⟩ := discriminant_of_splits hu hsplits
    simp only [Quadratic.roots_eq ha hb hc hu hd] at h
    obtain rfl := Except.ok.inj h
    have hroots : {t | (C u * X ^ 2 + C v * X + C w).IsRoot t} =
        {t | t ∈ [(-v - |d|) / (2 * u), (-v + |d|) / (2 * u)]} := by
      ext t
      simp only [Set.mem_ofPred_eq, isRoot_quadratic_iff hu hd, List.mem_cons, List.not_mem_nil,
        or_false]
    rw [hroots]
    exact denotes_rats [(-v - |d|) / (2 * u), (-v + |d|) / (2 * u)]
  · cases h

/-! ## Levels -/

/-- What holds of each result holds of the list of results. -/
theorem forall₂_of_mapM {f : Expr → Except SolveError SetExpr} {R : Expr → SetExpr → Prop}
    {es : List Expr} {sets : List SetExpr} (hR : ∀ e ∈ es, ∀ s, f e = .ok s → R e s)
    (h : es.mapM f = .ok sets) : List.Forall₂ R es sets := by
  induction es generalizing sets with
  | nil =>
    obtain rfl := Except.ok.inj h
    exact .nil
  | cons e es ih =>
    obtain ⟨hRe, hR⟩ := List.forall_mem_cons.mp hR
    rw [List.mapM_cons] at h
    obtain ⟨s, he, h⟩ := bind_eq_ok h
    obtain ⟨rest, hes, h⟩ := bind_eq_ok h
    obtain rfl := Except.ok.inj h
    exact .cons (hRe s he) (ih hR hes)

/-- Each element of one list is related to one of the other list. -/
theorem exists_of_mem_left {α β : Type} {R : α → β → Prop} {as : List α} {bs : List β}
    (h : List.Forall₂ R as bs) {a : α} (ha : a ∈ as) : ∃ b ∈ bs, R a b := by
  induction h with
  | nil => simp at ha
  | @cons a' b as bs hab _ ih =>
    rcases List.mem_cons.mp ha with rfl | ha
    · exact ⟨b, List.mem_cons_self, hab⟩
    · obtain ⟨c, hc, hac⟩ := ih ha
      exact ⟨c, List.mem_cons_of_mem _ hc, hac⟩

/-- A zero polynomial among the factors brings in the whole line. -/
theorem full_uniteAll {es : List Expr} {sets : List SetExpr} {P : Expr → ℚ[X]}
    (h : List.Forall₂ (fun e s => P e = 0 → s.Full) es sets) (h0 : (es.map P).prod = 0) :
    (SetExpr.uniteAll sets).Full := by
  obtain ⟨e, he, hzero⟩ := List.mem_map.mp (List.prod_eq_zero_iff.mp h0)
  obtain ⟨s, hs, hfull⟩ := exists_of_mem_left h he
  exact full_foldl_unite (.inr ⟨s, hs, hfull hzero⟩)

/-- The zeros of a product are those of its factors. -/
theorem uniteAll_correct {es : List Expr} {sets : List SetExpr} {P : Expr → ℚ[X]}
    (h : List.Forall₂ (fun e s => Correct s (P e)) es sets) :
    Correct (.uniteAll sets) (es.map P).prod := by
  constructor
  · exact full_uniteAll (h.imp fun _ _ hs => hs.full)
  · intro hne hsplits
    have hfactor : ∀ e ∈ es, P e ≠ 0 ∧ (P e).Splits := by
      intro e he
      have hdvd : P e ∣ (es.map P).prod := List.dvd_prod (List.mem_map_of_mem he)
      exact ⟨ne_zero_of_dvd_ne_zero hne hdvd, hsplits.of_dvd hne hdvd⟩
    have hlists : List.Forall₂ (fun e s => Denotes Expr.IsRat s {q | (P e).IsRoot q} ∧ s.IsFinite)
        es sets := by
      clear hne hsplits
      induction h with
      | nil => exact .nil
      | cons hs _ ih =>
        obtain ⟨⟨h0, hs0⟩, hrest⟩ := List.forall_mem_cons.mp hfactor
        exact .cons (hs.lists h0 hs0) (ih hrest)
    have hroots : {q | (es.map P).prod.IsRoot q} = ∅ ∪ {q | ∃ e ∈ es, q ∈ {q | (P e).IsRoot q}} := by
      ext q
      simp [IsRoot.def, eval_list_prod, List.prod_eq_zero_iff]
    rw [hroots]
    exact denotes_foldl_unite Expr.IsRat.hasValue hlists .empty trivial

/-- A rational factor other than zero has no roots of its own. -/
theorem Correct.C_mul {p : ℚ[X]} {s : SetExpr} (h : Correct s p) {a : ℚ} (ha : a ≠ 0) :
    Correct s (C a * p) := by
  have hroots : {q | (C a * p).IsRoot q} = {q | p.IsRoot q} := by
    ext q
    simp [IsRoot.def, ha]
  refine ⟨fun h0 => h.full ((mul_eq_zero.mp h0).resolve_left (C_ne_zero.mpr ha)), fun hne hs => ?_⟩
  have hdvd : p ∣ C a * p := dvd_mul_left p (C a)
  rw [hroots]
  exact h.lists (ne_zero_of_dvd_ne_zero hne hdvd) (hs.of_dvd hne hdvd)

/-- A power has the roots of its base. -/
theorem Correct.pow {p : ℚ[X]} {s : SetExpr} (h : Correct s p) {k : ℕ} (hk : k ≠ 0) :
    Correct s (p ^ k) := by
  have hroots : {q | (p ^ k).IsRoot q} = {q | p.IsRoot q} := by
    ext q
    simp [IsRoot.def, hk]
  refine ⟨fun h0 => h.full (pow_eq_zero_iff hk |>.mp h0), fun hne hsplits => ?_⟩
  have hdvd : p ∣ p ^ k := dvd_pow_self p hk
  rw [hroots]
  exact h.lists (ne_zero_of_dvd_ne_zero hne hdvd) (hsplits.of_dvd hne hdvd)

/-- A literal is zero everywhere or nowhere. -/
theorem ofConstant_number {n : Number} {q : ℚ} (hn : n.toRat? = some q) :
    ofConstant (.number n) = if q = 0 then .reals else .empty := by
  have hvanishes : vanishes (.number n) = true ↔ q = 0 := Number.isZero_iff hn
  rw [ofConstant]
  simp only [hvanishes]

/-- The zero set of a literal is right for the constant polynomial. -/
theorem ofConstant_correct {n : Number} {q : ℚ} (hn : n.toRat? = some q) :
    Correct (ofConstant (.number n)) (C q) := by
  rw [ofConstant_number hn]
  split_ifs with hq
  · subst hq
    exact ⟨fun _ => .interval false false, fun h0 => absurd C_0 h0⟩
  · refine ⟨fun h0 => absurd (C_eq_zero.mp h0) hq, fun _ _ => ⟨?_, trivial⟩⟩
    have hroots : {t | (C q).IsRoot t} = ∅ := by
      ext t
      simp [IsRoot.def, hq]
    rw [hroots]
    exact .empty

/-- The factors without the variable are numbers, and not zero. -/
theorem prod_eq_C_mul {es : List Expr} {P : Expr → ℚ[X]} (hes : ∀ e ∈ es, e.Settled x)
    (hd : (Expr.product es).degree x ≤ maxDegree)
    (hz : ∀ e ∈ es, e.isZero = false) (hP : ∀ e ∈ es, e.Represents x (P e)) :
    ∃ a, a ≠ 0 ∧
      (es.map P).prod = C a * ((es.filter (Expr.containsVar x)).map P).prod := by
  replace hd := fun e he => (Expr.degree_le_degree_product (x := x) (e := e) he).trans hd
  induction es with
  | nil => exact ⟨1, one_ne_zero, by simp⟩
  | cons e es ih =>
    obtain ⟨he, hes⟩ := List.forall_mem_cons.mp hes
    obtain ⟨hze, hz⟩ := List.forall_mem_cons.mp hz
    obtain ⟨hPe, hP⟩ := List.forall_mem_cons.mp hP
    obtain ⟨hde, hd⟩ := List.forall_mem_cons.mp hd
    obtain ⟨a, ha, hprod⟩ := ih hes hz hP hd
    rw [List.map_cons, List.prod_cons, hprod, List.filter_cons]
    cases hx : e.containsVar x with
    | true => exact ⟨a, ha, by simp only [if_true, List.map_cons, List.prod_cons]; ring⟩
    | false =>
      obtain ⟨n, q, rfl, hn⟩ := he.eq_number ((he.isSmall hde).degree_eq_zero hx)
      have hq : q ≠ 0 := Expr.IsNumber.ne_zero ⟨n, rfl, hn⟩ hze
      have hC : P (.number n) = C q := hPe.unique (.number hn)
      refine ⟨q * a, mul_ne_zero hq ha, ?_⟩
      rw [hC, C_mul, mul_assoc]
      rfl

/-- A relation between zero sets and polynomials that holds at both ends of the search, constants
and polynomials of low degree, and is passed on by each way in which an expression is taken apart. -/
structure Lawful (x : String) (R : SetExpr → ℚ[X] → Prop) : Prop where
  ofConstant : ∀ {n : Number} {q : ℚ}, n.toRat? = some q → R (ofConstant (.number n)) (C q)
  ofPolynomial : ∀ {e : Expr} {p : ℚ[X]} {s : SetExpr}, e.IsSmall x → e.Represents x p →
    ofPolynomial x e = .ok s → R s p
  uniteAll : ∀ {es : List Expr} {sets : List SetExpr} {P : Expr → ℚ[X]},
    List.Forall₂ (fun e s => R s (P e)) es sets → R (.uniteAll sets) (es.map P).prod
  C_mul : ∀ {p : ℚ[X]} {s : SetExpr}, R s p → ∀ {a : ℚ}, a ≠ 0 → R s (C a * p)
  pow : ∀ {p : ℚ[X]} {s : SetExpr}, R s p → ∀ {k : ℕ}, k ≠ 0 → R s (p ^ k)

/-- A lawful relation holds between the zero set of a settled expression and its polynomial, at
whatever level the search for the zeros ends. -/
theorem Lawful.of_within {R : SetExpr → ℚ[X] → Prop} (hR : Lawful x R) {levels : ℕ} {e : Expr}
    {p : ℚ[X]} {s : SetExpr} (he : e.Settled x) (hd : e.degree x ≤ maxDegree)
    (hp : e.Represents x p) (h : within x levels e = .ok s) : R s p := by
  induction levels generalizing e p s with
  | zero => cases h
  | succ levels ih =>
    -- The parts are settled again in normal form, and represent the same polynomials.
    have hpart : ∀ {a : Expr} {q : ℚ[X]} {t : SetExpr}, a.Settled x → a.degree x ≤ maxDegree →
        a.Represents x q → within x levels a.normalForm = .ok t → R t q := by
      intro a q t ha hda hq ht
      have hs := (ha.isSmall hda).normalForm_settles
      exact ih hs.settled (hs.degree_le.trans hda)
        ((ha.isSmall hda).represents_normalForm hq) ht
    have hsmall := he.isSmall hd
    unfold within at h
    cases hx : e.containsVar x with
    | false =>
      rw [hx] at h
      obtain ⟨n, q, rfl, hn⟩ := he.eq_number (hsmall.degree_eq_zero hx)
      obtain rfl := Except.ok.inj h
      obtain rfl := hp.unique (.number hn)
      exact hR.ofConstant hn
    | true =>
      rw [hx] at h
      cases he with
      | number hn => simp at hx
      | var => exact hR.ofPolynomial hsmall hp h
      | sum => exact hR.ofPolynomial hsmall hp h
      | neg ha hda =>
        obtain ⟨q, hq⟩ := ha.exists_represents
        have hneg : p = C (-1) * q := by rw [hp.unique hq.neg, C_neg, C_1, neg_one_mul]
        rw [hneg]
        exact hR.C_mul (hpart ha hd hq h) (by decide)
      | @power b k hb hdb hk =>
        obtain ⟨q, hq⟩ := hb.exists_represents
        have hpow : p = q ^ k.toNat := hp.unique (hq.power (by omega))
        have hpositive : isPositiveExponent x (.int k) = true := by
          have hk' : Number.isPositive (.int k) = true :=
            (Number.isPositive_iff (p := (k : ℚ)) rfl).mpr (by exact_mod_cast hk)
          exact hk'
        have hle : b.degree x ≤ k.toNat * b.degree x := Nat.le_mul_of_pos_left _ (by omega)
        simp only [Bool.not_true, Bool.false_eq_true, if_false, hpositive, if_true] at h
        rw [hpow]
        exact hR.pow (hpart hb (hle.trans hd) hq h) (by omega)
      | @product es hes hz hdp =>
        choose! P hP using fun e he => (hes e he).exists_represents
        have hprod : p = (es.map P).prod := hp.unique (.product hP)
        obtain ⟨a, ha, hconstant⟩ := prod_eq_C_mul hes hd hz hP
        simp only [Bool.not_true, Bool.false_eq_true, if_false] at h
        obtain ⟨sets, hsets, h⟩ := bind_eq_ok h
        obtain rfl := Except.ok.inj h
        rw [hprod, hconstant]
        -- Factors without the variable are passed over, since they are numbers other than zero.
        refine hR.C_mul (hR.uniteAll (forall₂_of_mapM (fun f hf t ht => ?_) hsets)) ha
        have hmem : f ∈ es := List.mem_of_mem_filter hf
        exact hpart (hes f hmem) ((Expr.degree_le_degree_product hmem).trans hd) (hP f hmem) ht

/-- Being right for the polynomial passes through all levels. -/
theorem lawful_correct : Lawful x Correct where
  ofConstant := ofConstant_correct
  ofPolynomial := ofPolynomial_correct
  uniteAll := uniteAll_correct
  C_mul := Correct.C_mul
  pow := Correct.pow

end ZeroSet

/-- A lawful relation holds between the zero set of a small polynomial and the polynomial. -/
theorem ZeroSet.Lawful.of_zeroSet {R : SetExpr → ℚ[X] → Prop} (hR : ZeroSet.Lawful x R) {e : Expr}
    {p : ℚ[X]} {s : SetExpr} (he : e.IsSmall x) (hp : e.Represents x p)
    (h : e.zeroSet x = .ok s) : R s p :=
  hR.of_within he.normalForm_settles.settled he.isSmall_normalForm.degree_le
    (he.represents_normalForm hp) h

/-- The zero set of a small polynomial is right for it. -/
theorem Expr.IsSmall.zeroSet_correct {e : Expr} {p : ℚ[X]} {s : SetExpr}
    (he : e.IsSmall x) (hp : e.Represents x p) (h : e.zeroSet x = .ok s) : ZeroSet.Correct s p :=
  ZeroSet.lawful_correct.of_zeroSet he hp h

/-- The zero set stands for the zeros of a polynomial that splits. -/
theorem ZeroSet.Correct.denotes {p : ℚ[X]} {s : SetExpr} (h : ZeroSet.Correct s p)
    (hsplits : p.Splits) : Denotes Expr.IsRat s {q | p.IsRoot q} ∧ s.IsProper := by
  by_cases h0 : p = 0
  · have hset : {q | p.IsRoot q} = Set.univ := by
      ext q
      simp [h0]
    rw [hset]
    exact ⟨.full (h.full h0), (h.full h0).isProper⟩
  · obtain ⟨hden, hfin⟩ := h.lists h0 hsplits
    exact ⟨hden, hfin.isProper⟩

end SymbolicAlgebra
