import SymbolicAlgebra.Polynomial.Roots
import SymbolicAlgebra.Proofs.Simplify.Radical

/-!
# Roots of polynomials with symbolic coefficients

The coefficients of a polynomial may hold other variables, and a root in closed form is then an
expression in these. `exactValue?_roots` says that it stays right when the variables get values later:
the root of `a x + b` has the value `-b / a`, and the roots of `a x ^ 2 + b x + c` have the values
`(-b - s) / (2 a)` and `(-b + s) / (2 a)`, in this order, wherever the discriminant has the square of
`s` as its value. This covers the values at which the discriminant is zero or a fraction, which no
step of the simplifier knows of.

The normal forms on the way must come about without overflow, `Linear.normalizesExactly` and
`Quadratic.normalizesExactly`.
-/

namespace SymbolicAlgebra

variable {ρ : Assignment} {a b c : Expr} {s : ℚ}

namespace Linear

/-- Whether no power overflows while the root is brought into normal form. -/
def normalizesExactly (p : Linear) : Bool := (-p.b / p.a).normalizesExactly

theorem root_defined {p : Linear} (ha : p.a.Defined ρ) (hb : p.b.Defined ρ)
    (hne : p.a.value ρ ≠ 0) (hexact : p.normalizesExactly = true) :
    p.root.Defined ρ ∧ p.root.value ρ = -p.b.value ρ / p.a.value ρ :=
  Expr.normalForm_refines hexact ρ (.div hb.neg ha hne)

end Linear

namespace Quadratic

/-- Whether no power overflows while the discriminant, its square root and the two roots are brought
into normal form. -/
def normalizesExactly (p : Quadratic) : Bool :=
  let root : Expr := .call .sqrt p.discriminant
  (.power p.b 2 - 4 * p.a * p.c : Expr).normalizesExactly && root.normalizesExactly &&
    ((-p.b - root.normalForm) / (2 * p.a)).normalizesExactly &&
    ((-p.b + root.normalForm) / (2 * p.a)).normalizesExactly

variable {p : Quadratic}

/-- The discriminant has its value wherever the coefficients have theirs. -/
theorem discriminant_defined (ha : p.a.Defined ρ) (hb : p.b.Defined ρ) (hc : p.c.Defined ρ)
    (hexact : (.power p.b 2 - 4 * p.a * p.c : Expr).normalizesExactly = true) :
    p.discriminant.Defined ρ ∧
      p.discriminant.value ρ = p.b.value ρ ^ 2 - 4 * p.a.value ρ * p.c.value ρ := by
  have hpower : (Expr.power p.b (.int 2)).Defined ρ := .power hb fun _ => by decide
  have hproduct : (Expr.product [.product [4, p.a], p.c]).Defined ρ :=
    .product (by simpa using ⟨.product (by simpa using ⟨.ofNat 4, ha⟩), hc⟩)
  obtain ⟨hd, hv⟩ := Expr.normalForm_refines hexact ρ (.sum (by simpa using ⟨hpower, hproduct.neg⟩))
  refine ⟨hd, hv.trans ?_⟩
  change (Expr.sum [.power p.b (.int 2), .neg (.product [.product [.int 4, p.a], p.c])]).value ρ = _
  simp
  ring

/-- The denominator of the roots. -/
theorem denominator_defined (ha : a.Defined ρ) :
    (2 * a).Defined ρ ∧ (2 * a).value ρ = 2 * a.value ρ := by
  refine ⟨.product (by simpa using ⟨.ofNat 2, ha⟩), ?_⟩
  change (Expr.product [.int 2, a]).value ρ = _
  simp

theorem containsVar_denominator (w : String) : (2 * a).containsVar w = a.containsVar w := by
  change (Expr.product [.int 2, a]).containsVar w = _
  simp [Expr.int]

end Quadratic

/-- The roots in closed form are right at all values of the variables in the coefficients. -/
theorem exactValue?_roots (ha : a.Defined ρ) (hb : b.Defined ρ) (hne : a.value ρ ≠ 0) :
    ((Linear.mk a b).normalizesExactly = true →
      (Linear.mk a b).root.exactValue? ρ = some (-b.value ρ / a.value ρ)) ∧
    ∀ {c : Expr} {s : ℚ}, c.Defined ρ → 0 ≤ s →
      b.value ρ ^ 2 - 4 * a.value ρ * c.value ρ = s ^ 2 →
      (Quadratic.mk a b c).normalizesExactly = true →
      (Quadratic.mk a b c).roots.1.rootValue? ρ = some ((-b.value ρ - s) / (2 * a.value ρ)) ∧
        (Quadratic.mk a b c).roots.2.rootValue? ρ = some ((-b.value ρ + s) / (2 * a.value ρ)) := by
  refine ⟨fun hexact => ?_, fun {c s} hc hs hsq hexact => ?_⟩
  · obtain ⟨hd, hv⟩ := Linear.root_defined (p := ⟨a, b⟩) ha hb hne hexact
    rw [hd.exactValue?_eq, hv]
  · simp only [Quadratic.normalizesExactly, Bool.and_eq_true] at hexact
    obtain ⟨⟨⟨hdisc, hroot⟩, hminus⟩, hplus⟩ := hexact
    obtain ⟨hd, hv⟩ := Quadratic.discriminant_defined (p := ⟨a, b, c⟩) ha hb hc hdisc
    rw [hsq, pow_two] at hv
    -- A variable stands for the square root, so that it must not occur in the coefficients.
    obtain ⟨w, hwa, hwb⟩ := Expr.exists_not_containsVar ha hb
    have hsqrt := (Expr.IsRadical.sqrt (w := w) hd hv).normalForm hs hroot
    obtain ⟨hden, hdenvalue⟩ := Quadratic.denominator_defined ha
    have hdenne : (2 * a).value ρ ≠ 0 := hdenvalue ▸ mul_ne_zero two_ne_zero hne
    have hwden : (2 * a).containsVar w = false := (Quadratic.containsVar_denominator w).trans hwa
    have hwneg : (-b).containsVar w = false := (Expr.containsVar_neg w b).trans hwb
    have hfirst := hsqrt.neg.add_div hb.neg hden hwneg hwden hdenne
    have hsecond := hsqrt.add_div hb.neg hden hwneg hwden hdenne
    rw [sub_eq_add_neg, ← hdenvalue]
    exact ⟨(hfirst.normalForm hs hminus).rootValue?_eq hs,
      (hsecond.normalForm hs hplus).rootValue?_eq hs⟩

/-- The polynomials `t x - (1 + t)` and `t x ^ 2 - (1 + t) x + 1` at `t = 1 / 3`, where the
discriminant is `4 / 9`. -/
theorem exactValue?_roots_parameter :
    (Linear.mk (.var "t") (-(1 + .var "t"))).root.exactValue? (fun _ => 1 / 3) = some 4 ∧
      (Quadratic.mk (.var "t") (-(1 + .var "t")) 1).roots.1.rootValue? (fun _ => 1 / 3) = some 1 ∧
      (Quadratic.mk (.var "t") (-(1 + .var "t")) 1).roots.2.rootValue? (fun _ => 1 / 3) = some 3 := by
  have hb : (-(1 + .var "t") : Expr).Defined fun _ => 1 / 3 :=
    .neg (.sum (by simpa using ⟨.ofNat 1, .var "t"⟩))
  have hbvalue : (-(1 + .var "t") : Expr).value (fun _ => 1 / 3) = -(4 / 3) := by
    change (Expr.neg (.sum [.int 1, .var "t"])).value _ = _
    norm_num
  obtain ⟨hlinear, hquadratic⟩ := exactValue?_roots (.var "t") hb (by norm_num)
  have hsq : (-(1 + .var "t") : Expr).value (fun _ => 1 / 3) ^ 2 -
      4 * (Expr.var "t").value (fun _ => 1 / 3) * (1 : Expr).value (fun _ => 1 / 3) = (2 / 3) ^ 2 := by
    rw [hbvalue, Expr.value_ofNat]
    norm_num
  obtain ⟨hfirst, hsecond⟩ := hquadratic (.ofNat 1) (by norm_num) hsq (by decide +kernel)
  refine ⟨(hlinear (by decide +kernel)).trans ?_, hfirst.trans ?_, hsecond.trans ?_⟩
  all_goals
    rw [hbvalue, Expr.value_var]
    norm_num

end SymbolicAlgebra
