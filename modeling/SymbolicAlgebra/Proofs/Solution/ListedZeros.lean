import Mathlib.Data.Rat.Sqrt
import SymbolicAlgebra.Proofs.Expr.FieldExpression
import SymbolicAlgebra.Proofs.Expr.Specialization
import SymbolicAlgebra.Proofs.SetExpr.Listing
import SymbolicAlgebra.Proofs.Simplify.Normalization
import SymbolicAlgebra.Proofs.Solution.Poles
import SymbolicAlgebra.Proofs.Solution.Statement

/-!
# Listed rationals are zeros

A rational that the zero set of a field expression lists is a zero of the expression, wherever the
expression has a value: `Expr.eq_zero_of_mem_zeroSet`. A fraction of polynomials has a value at all of
them, since its poles are dropped. A product need not have one: a factor may have a pole at a zero of
another one, `Expr.mem_zeroSet_of_pole`.

The search has to compute with exact numbers, which `Expr.isSolvedExactly` tells from its run. No
power may overflow while an expression is brought into normal form, coefficients have to come out as
literals of rationals, and no root of a quadratic polynomial may be rounded: the square root of a
large discriminant is computed to fifty digits, and counts as exact if the result is whole.
-/

namespace SymbolicAlgebra

open Polynomial SetExpr

variable {x : String} {ρ : Assignment}

/-! ## Exact searches -/

/-- Whether an expression is the literal of a rational. -/
def Expr.isRational (e : Expr) : Bool := e.toNumber?.any Folding.isExact

theorem Expr.isRational_iff {e : Expr} : e.isRational = true ↔ ∃ q, e.IsNumber q := by
  cases e with
  | number n =>
    simp [isRational, toNumber?, Folding.isExact, IsNumber, Option.isSome_iff_exists]
  | _ => simp [isRational, toNumber?, IsNumber]

/-- Whether a root of a quadratic polynomial comes out as a rational only where the discriminant is
the square of a rational. -/
def Quadratic.isFaithful (p : Quadratic) : Bool :=
  !(p.roots.1.isRational || p.roots.2.isRational) ||
    (p.discriminant.toNumber?.bind Number.toRat?).any fun d => decide (IsSquare d)

/-- The root of `10 ^ 100 + 1` is rounded to `10 ^ 50`. -/
example : (Quadratic.mk 1 0 (.int (-(10 ^ 100 + 1)))).isFaithful = false := by decide +kernel

namespace ZeroSet

/-- Whether the coefficients of an expression are brought into normal form without overflow, and are
literals of rationals then. -/
def readsExactly (x : String) (e : Expr) : Bool :=
  (Coefficients.collect? x e).all fun cs =>
    cs.all fun c => c.normalizesExactly && c.normalForm.isRational

/-- Whether the zeros of a polynomial of degree one or two are computed with exact numbers. -/
def ofPolynomialIsExact (x : String) (e : Expr) : Bool :=
  readsExactly x e &&
    match Coefficients.ofExpr? x e with
    | some [c, b, a] => (Quadratic.mk a b c).isFaithful
    | _ => true

/-- Whether the search below an expression in normal form computes with exact numbers. -/
def withinIsExact (x : String) : Nat → Expr → Bool
  | 0, _ => true
  | levels + 1, e =>
    !e.containsVar x ||
      match e with
      | .product es => (es.filter (Expr.containsVar x)).all fun f =>
        f.normalizesExactly && withinIsExact x levels f.normalForm
      | .neg a => a.normalizesExactly && withinIsExact x levels a.normalForm
      | .power b k =>
        if isPositiveExponent x k then b.normalizesExactly && withinIsExact x levels b.normalForm
        else ofPolynomialIsExact x (.power b k)
      | .div a _ => a.normalizesExactly && withinIsExact x levels a.normalForm
      | e => ofPolynomialIsExact x e

end ZeroSet

/-- Whether the search for the zeros of an expression computes with exact numbers. -/
def Expr.isSolvedExactly (x : String) (e : Expr) : Bool :=
  e.normalizesExactly && ZeroSet.withinIsExact x e.normalForm.size e.normalForm

/-! ## Polynomials of degree one and two -/

namespace Coefficients

/-- Coefficients that are read exactly are numbers, and make up a polynomial with the value of the
expression. The last one is not zero, unless it is the only one. -/
theorem ofExpr?_spec_of_readsExactly {e : Expr} {cs : Coefficients} (hd : e.Defined ρ)
    (hread : ZeroSet.readsExactly x e = true) (h : ofExpr? x e = some cs) :
    (∀ c ∈ cs, ∃ q, c.IsNumber q) ∧ e.value ρ = (toPolynomial ρ cs).eval (ρ x) ∧
      (∀ ds c, 1 ≤ ds.length → cs = ds ++ [c] → c.isZero = false) := by
  obtain ⟨ps, hps, hcs⟩ := Option.map_eq_some_iff.mp h
  simp only [ZeroSet.readsExactly, hps, Option.all_some, List.all_eq_true,
    Bool.and_eq_true] at hread
  have hrefines : ∀ c ∈ ps, c.normalForm.Refines c := fun c hc =>
    Expr.normalForm_refines (hread c hc).1
  refine ⟨fun c hc => ?_, (value_eq_eval_ofExpr? hd hps hrefines h).2, isZero_eq_false_of_ofExpr? h⟩
  obtain ⟨c', hc', rfl⟩ := List.mem_map.mp (mem_of_mem_trim (hcs ▸ hc))
  exact Expr.isRational_iff.mp (hread c' hc').2

end Coefficients

/-- Where a root comes out as a rational, a faithful discriminant is the square of a rational. -/
theorem Quadratic.isSquare_of_isFaithful {a b c point : Expr} {u v w q : ℚ} (ha : a.IsNumber u)
    (hb : b.IsNumber v) (hc : c.IsNumber w) (h : (Quadratic.mk a b c).isFaithful = true)
    (hpoint : point.IsNumber q)
    (hroot : point = (Quadratic.mk a b c).roots.1 ∨ point = (Quadratic.mk a b c).roots.2) :
    IsSquare (v ^ 2 - 4 * u * w) := by
  obtain ⟨m, hm, hd⟩ := discriminant_isNumber ha hb hc
  have hrational : ((Quadratic.mk a b c).roots.1.isRational ||
      (Quadratic.mk a b c).roots.2.isRational) = true := by
    rw [Bool.or_eq_true]
    rcases hroot with rfl | rfl
    · exact .inl (Expr.isRational_iff.mpr ⟨q, hpoint⟩)
    · exact .inr (Expr.isRational_iff.mpr ⟨q, hpoint⟩)
  rw [isFaithful, hrational, hm] at h
  simpa [Expr.toNumber?, hd] using h

namespace ZeroSet

/-- A rational that is listed for a polynomial of degree one or two is a zero. -/
theorem value_eq_zero_of_mem_ofPolynomial {e : Expr} {s : SetExpr} {n : Number} (hd : e.Defined ρ)
    (hexact : ofPolynomialIsExact x e = true) (h : ofPolynomial x e = .ok s)
    (hmem : .number n ∈ s.points) (hn : n.toRat? = some (ρ x)) : e.value ρ = 0 := by
  rw [ofPolynomialIsExact, Bool.and_eq_true] at hexact
  obtain ⟨hread, hfaithful⟩ := hexact
  have hpoint : (Expr.number n).IsNumber (ρ x) := ⟨n, rfl, hn⟩
  have hrat : ∀ {q : ℚ}, Expr.number n = .rat q → ρ x = q := fun heq => by
    rw [Expr.number.inj heq, Number.toRat?_ofRat] at hn
    exact (Option.some.inj hn).symm
  rw [ofPolynomial] at h
  split at h
  · next b a hcoefficients =>
    obtain ⟨hnumber, hvalue, hlast⟩ :=
      Coefficients.ofExpr?_spec_of_readsExactly hd hread hcoefficients
    obtain ⟨u, ha⟩ := hnumber a (by simp)
    obtain ⟨v, hb⟩ := hnumber b (by simp)
    have hu : u ≠ 0 := ha.ne_zero (hlast [b] a (by simp) rfl)
    rw [Linear.root_eq ha hb hu] at h
    obtain rfl := Except.ok.inj h
    have hroot := hrat (List.mem_singleton.mp (mem_of_mem_points_ofElements hmem))
    rw [hvalue, Coefficients.toPolynomial, Coefficients.toPolynomial_singleton, ha.value_eq,
      hb.value_eq, hroot]
    simp only [eval_add, eval_mul, eval_C, eval_X]
    field_simp
    ring
  · next c b a hcoefficients =>
    obtain ⟨hnumber, hvalue, hlast⟩ :=
      Coefficients.ofExpr?_spec_of_readsExactly hd hread hcoefficients
    obtain ⟨u, ha⟩ := hnumber a (by simp)
    obtain ⟨v, hb⟩ := hnumber b (by simp)
    obtain ⟨w, hc⟩ := hnumber c (by simp)
    have hu : u ≠ 0 := ha.ne_zero (hlast [c, b] a (by simp) rfl)
    obtain rfl := Except.ok.inj h
    have hlisted := List.mem_pair.mp (mem_of_mem_points_ofElements hmem)
    rw [hcoefficients] at hfaithful
    -- With a rational listed among the roots, the discriminant is the square of a rational.
    obtain ⟨d, hsquare⟩ := Quadratic.isSquare_of_isFaithful ha hb hc hfaithful hpoint hlisted
    rw [Quadratic.roots_eq ha hb hc hu hsquare] at hlisted
    have hroot := (isRoot_quadratic_iff hu hsquare _).mpr (hlisted.imp hrat hrat)
    simp only [IsRoot.def, eval_add, eval_mul, eval_pow, eval_C, eval_X] at hroot
    rw [hvalue, Coefficients.toPolynomial, Coefficients.toPolynomial,
      Coefficients.toPolynomial_singleton, ha.value_eq, hb.value_eq, hc.value_eq]
    simp only [eval_add, eval_mul, eval_C, eval_X]
    linear_combination hroot
  · cases h

/-! ## The search -/

/-- A rational that an exact search lists is a zero of the expression, wherever that is defined. -/
theorem value_eq_zero_of_mem_within {levels : ℕ} {e : Expr} {s : SetExpr} {n : Number}
    (hd : e.Defined ρ) (hexact : withinIsExact x levels e = true) (h : within x levels e = .ok s)
    (hmem : .number n ∈ s.points) (hn : n.toRat? = some (ρ x)) : e.value ρ = 0 := by
  induction levels generalizing e s with
  | zero => cases h
  | succ levels ih =>
    -- The parts are defined where the whole is, and their normal forms have the same values.
    have hpart : ∀ {a : Expr} {t : SetExpr}, a.Defined ρ →
        (a.normalizesExactly && withinIsExact x levels a.normalForm) = true →
        within x levels a.normalForm = .ok t → .number n ∈ t.points → a.value ρ = 0 := by
      intro a t ha hexact ht hmem
      obtain ⟨hnormal, hexact⟩ := (Bool.and_eq_true _ _).mp hexact
      obtain ⟨hda, hva⟩ := Expr.normalForm_refines hnormal ρ ha
      rw [← hva]
      exact ih hda hexact ht hmem
    unfold within at h
    unfold withinIsExact at hexact
    cases hx : e.containsVar x with
    | false =>
      rw [hx] at h
      obtain rfl := Except.ok.inj h
      rw [points_ofConstant] at hmem
      exact absurd hmem List.not_mem_nil
    | true =>
      rw [hx] at h hexact
      cases hd with
      | number hm => simp at hx
      | var v => exact value_eq_zero_of_mem_ofPolynomial (.var v) hexact h hmem hn
      | sum hes => exact value_eq_zero_of_mem_ofPolynomial (.sum hes) hexact h hmem hn
      | neg ha => rw [Expr.value_neg, hpart ha hexact h hmem, neg_zero]
      | @power b k hb hk =>
        simp only [Bool.not_true, Bool.false_eq_true, if_false, Bool.false_or] at h hexact
        split_ifs at h hexact with hpositive
        · have hne : k ≠ 0 := by
            rintro rfl
            exact absurd ((Bool.and_eq_true _ _).mp hpositive).2 (by decide)
          rw [Expr.value_power, hpart hb hexact h hmem, zero_zpow k hne]
        · exact value_eq_zero_of_mem_ofPolynomial (.power hb hk) hexact h hmem hn
      | div ha hb hne =>
        simp only [Bool.not_true, Bool.false_eq_true, if_false, Bool.false_or] at h hexact
        obtain ⟨t, ht, h⟩ := bind_eq_ok h
        obtain rfl := Except.ok.inj h
        rw [Expr.value_div, hpart ha hexact ht (mem_of_mem_points_dropPoles hmem).1, zero_div]
      | @product es hes =>
        simp only [Bool.not_true, Bool.false_eq_true, if_false, Bool.false_or] at h hexact
        obtain ⟨sets, hsets, h⟩ := bind_eq_ok h
        obtain rfl := Except.ok.inj h
        have hfactors : List.Forall₂ (fun f t => .number n ∈ t.points → f.value ρ = 0)
            (es.filter (Expr.containsVar x)) sets :=
          forall₂_of_mapM (fun f hf t ht hp => hpart (hes f (List.mem_of_mem_filter hf))
            (List.all_eq_true.mp hexact f hf) ht hp) hsets
        have hflip : List.Forall₂ (fun t f => .number n ∈ t.points → f.value ρ = 0) sets
            (es.filter (Expr.containsVar x)) := hfactors.flip
        -- The point is listed for a factor.
        obtain ⟨t, ht, hpoint⟩ := (mem_or_exists_of_mem_points_foldl_unite hmem).resolve_left
          (by simp [points])
        obtain ⟨f, hf, hzero⟩ := exists_of_mem_left hflip ht
        rw [Expr.value_product]
        exact List.prod_eq_zero (List.mem_map.mpr ⟨f, List.mem_of_mem_filter hf, hzero hpoint⟩)

end ZeroSet

namespace Expr

/-- A rational that the zero set of an expression lists is a zero, if the search computes with exact
numbers, and if the expression is defined there or a fraction of polynomials. -/
theorem eq_zero_of_mem_zeroSet {e : Expr} {points : List Expr} {n : Number}
    (h : e.zeroSet x = .ok (.finite points)) (hexact : e.isSolvedExactly x = true)
    (hmem : .number n ∈ points) (hn : n.toRat? = some (ρ x)) (hd : e.Defined ρ ∨ e.IsFraction x) :
    (e.substitute x (.number n)).exactValue? ρ = some 0 := by
  have hd : e.Defined ρ := hd.elim id fun he => he.defined_of_mem_zeroSet h hmem hn
  obtain ⟨hnormal, hexact⟩ := (Bool.and_eq_true _ _).mp hexact
  obtain ⟨hnd, hnv⟩ := normalForm_refines hnormal ρ hd
  have hzero := ZeroSet.value_eq_zero_of_mem_within hnd hexact h hmem hn
  obtain ⟨hsd, hsv⟩ := hd.substitute hn
  rw [hsd.exactValue?_eq, hsv, ← hnv, hzero]

/-- An evaluated search that lists a literal. -/
theorem exists_mem_of_any {u : Except SolveError SetExpr} {n : Number}
    (h : u.toOption.any (fun s => s.points.any (· == .number n)) = true) :
    ∃ points, u = .ok (.finite points) ∧ .number n ∈ points := by
  obtain ⟨s, rfl, hs⟩ := Comparison.exists_of_any h
  obtain ⟨p, hp, heq⟩ := List.any_eq_true.mp hs
  obtain rfl := same_literal_iff.mp heq
  cases s with
  | finite points => exact ⟨points, rfl, hp⟩
  | _ => simp [points] at hp

/-- The quotient of `x ^ 2 - 4` by `x - 2` has the zero -2. -/
theorem eq_zero_of_mem_zeroSet_quotient :
    ∃ points, ((Expr.power (.var "x") (.int 2) - 4) / (.var "x" - 2)).zeroSet "x" =
        .ok (.finite points) ∧ .int (-2) ∈ points ∧
      (((Expr.power (.var "x") (.int 2) - 4) / (.var "x" - 2)).substitute "x"
        (.int (-2))).exactValue? (fun _ => -2) = some 0 := by
  obtain ⟨points, hzeros, hmem⟩ := exists_mem_of_any (n := .int (-2))
    (u := ((Expr.power (.var "x") (.int 2) - 4) / (.var "x" - 2)).zeroSet "x") (by decide +kernel)
  have hexact : ((Expr.power (.var "x") (.int 2) - 4) / (.var "x" - 2)).isSolvedExactly "x" =
      true := by decide +kernel
  have hsquare : (Expr.power (.var "x") (.int 2)).IsSmall "x" :=
    .power .var (by decide) (by decide) (by decide)
  have hnum : (Expr.power (.var "x") (.int 2) - 4).IsSmall "x" :=
    .sum (List.forall_mem_cons.mpr ⟨hsquare, List.forall_mem_singleton.mpr (.neg (.int 4))⟩)
  have hden : (.var "x" - 2 : Expr).IsSmall "x" :=
    .sum (List.forall_mem_cons.mpr ⟨.var, List.forall_mem_singleton.mpr (.neg (.int 2))⟩)
  refine ⟨points, hzeros, hmem, eq_zero_of_mem_zeroSet hzeros hexact hmem ?_ (.inr (.div hnum hden))⟩
  norm_num

/-- The zero set of `(x - 1) * (1 / (x ^ 2 - 1))` lists 1, where the second factor has a pole. -/
theorem mem_zeroSet_of_pole :
    ∃ points, ((.var "x" - 1) * (1 / (.power (.var "x") (.int 2) - 1)) : Expr).zeroSet "x" =
        .ok (.finite points) ∧ 1 ∈ points ∧
      ∀ ρ, (((.var "x" - 1) * (1 / (.power (.var "x") (.int 2) - 1)) : Expr).substitute "x"
        1).exactValue? ρ = none := by
  obtain ⟨points, hzeros, hmem⟩ := exists_mem_of_any (n := 1)
    (u := ((.var "x" - 1) * (1 / (.power (.var "x") (.int 2) - 1)) : Expr).zeroSet "x")
    (by decide +kernel)
  exact ⟨points, hzeros, hmem, fun ρ => by with_unfolding_all rfl⟩

end Expr

end SymbolicAlgebra
