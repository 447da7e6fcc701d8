import SymbolicAlgebra.Proofs.SetExpr.Listing
import SymbolicAlgebra.Proofs.Simplify.Variables
import SymbolicAlgebra.Proofs.Solution.Statement

/-!
# No rational zero is lost

The zero set of a polynomial holds all its rational zeros, `ZeroSet.Complete`, also where it lists
roots without exact values beside them: a quadratic factor with a rational zero has the square of a
rational as its discriminant, and its roots are rationals then. Roots of other quadratic factors
are in the lists as expressions. They have no sets in them, so that no union drops a point for
their sake.
-/

namespace SymbolicAlgebra

open Polynomial SetExpr

variable {x : String}

/-! ## Roots without sets -/

/-- Literals have no sets in them. -/
theorem Expr.IsNumber.setFree {e : Expr} {q : ℚ} (h : e.IsNumber q) : e.SetFree := by
  obtain ⟨n, rfl, -⟩ := h
  exact .number n

namespace Expr.SetFree

variable {a b : Expr}

theorem add (ha : a.SetFree) (hb : b.SetFree) : (a + b).SetFree :=
  .sum (by simpa using ⟨ha, hb⟩)

theorem sub (ha : a.SetFree) (hb : b.SetFree) : (a - b).SetFree :=
  .sum (by simpa using ⟨ha, .neg hb⟩)

theorem mul (ha : a.SetFree) (hb : b.SetFree) : (a * b).SetFree :=
  .product (by simpa using ⟨ha, hb⟩)

theorem call (f : Func) (ha : a.SetFree) : (Expr.call f a).SetFree :=
  .apply f (List.forall_mem_singleton.mpr ha)

end Expr.SetFree

/-- The quadratic formula brings no sets in, whether the roots have values or not. -/
theorem Quadratic.setFree_roots {p : Quadratic} (ha : p.a.SetFree) (hb : p.b.SetFree)
    (hc : p.c.SetFree) : p.roots.1.SetFree ∧ p.roots.2.SetFree := by
  have hdisc : p.discriminant.SetFree :=
    ((Expr.SetFree.power hb (.number 2)).sub (((Expr.SetFree.number 4).mul ha).mul hc)).normalForm
  have hroot := (Expr.SetFree.call .sqrt hdisc).normalForm
  have hden : (2 * p.a).SetFree := (Expr.SetFree.number 2).mul ha
  exact ⟨(Expr.SetFree.div (.sub (.neg hb) hroot) hden).normalForm,
    (Expr.SetFree.div (.add (.neg hb) hroot) hden).normalForm⟩

namespace ZeroSet

/-- The set holds all rational zeros of a polynomial: the whole line for the zero polynomial, and
otherwise a list with all of them. -/
structure Complete (s : SetExpr) (p : ℚ[X]) : Prop where
  full : p = 0 → s.Full
  lists : p ≠ 0 → s.IsListing ∧ ∀ q, p.IsRoot q → .rat q ∈ s.points

/-- A list of expressions without sets, with all roots among them. -/
theorem complete_ofElements {es : List Expr} {p : ℚ[X]} (hp : p ≠ 0) (hes : ∀ e ∈ es, e.SetFree)
    (h : ∀ q, p.IsRoot q → .rat q ∈ es) : Complete (.ofElements es) p := by
  obtain ⟨hlist, hmem⟩ := isListing_ofElements hes
  exact ⟨fun h0 => absurd h0 hp, fun _ => ⟨hlist, fun q hq => (hmem _).mpr (h q hq)⟩⟩

/-! ## Ends of the search -/

/-- The zero set of a literal loses no zero. -/
theorem ofConstant_complete {n : Number} {q : ℚ} (hn : n.toRat? = some q) :
    Complete (ofConstant (.number n)) (C q) := by
  rw [ofConstant_number hn]
  split_ifs with hq
  · subst hq
    exact ⟨fun _ => .interval false false, fun h0 => absurd C_0 h0⟩
  · refine ⟨fun h0 => absurd (C_eq_zero.mp h0) hq, fun _ => ⟨.empty, fun t ht => ?_⟩⟩
    rw [IsRoot.def, eval_C] at ht
    exact absurd ht hq

/-- A quadratic polynomial with a rational root has the square of a rational as its discriminant. -/
theorem discriminant_of_isRoot {p q r t : ℚ} (h : (C p * X ^ 2 + C q * X + C r).IsRoot t) :
    q ^ 2 - 4 * p * r = (2 * p * t + q) * (2 * p * t + q) := by
  simp only [IsRoot.def, eval_add, eval_mul, eval_pow, eval_C, eval_X] at h
  linear_combination (-4 * p) * h

/-- A solved polynomial of degree one or two has all its rational roots listed. -/
theorem ofPolynomial_complete {e : Expr} {p : ℚ[X]} {s : SetExpr} (he : e.IsSmall x)
    (hp : e.Represents x p) (h : ofPolynomial x e = .ok s) : Complete s p := by
  rw [ofPolynomial] at h
  split at h
  · next b a hcoefficients =>
    obtain ⟨u, v, ha, hb, hu, hlinear⟩ := he.represents_linear hcoefficients
    obtain rfl := hp.unique hlinear
    rw [Linear.root_eq ha hb hu] at h
    obtain rfl := Except.ok.inj h
    have h0 : C u * X + C v ≠ 0 := fun h0 => absurd (degree_linear hu) (by rw [h0]; decide)
    refine complete_ofElements h0 (by simpa using .number _) fun q hq => ?_
    simp only [IsRoot.def, eval_add, eval_mul, eval_C, eval_X] at hq
    have hq' : q = -v / u := by
      rw [eq_div_iff hu]
      linarith
    rw [hq', List.mem_singleton]
  · next c b a hcoefficients =>
    obtain ⟨u, v, w, ha, hb, hc, hu, hquadratic⟩ := he.represents_quadratic hcoefficients
    obtain rfl := hp.unique hquadratic
    obtain rfl := Except.ok.inj h
    have h0 : C u * X ^ 2 + C v * X + C w ≠ 0 := fun h0 =>
      absurd (degree_quadratic hu) (by rw [h0]; decide)
    obtain ⟨hminus, hplus⟩ :=
      Quadratic.setFree_roots (p := ⟨a, b, c⟩) ha.setFree hb.setFree hc.setFree
    refine complete_ofElements h0 (by simpa using ⟨hminus, hplus⟩) fun q hq => ?_
    have hd := discriminant_of_isRoot hq
    rw [Quadratic.roots_eq ha hb hc hu hd]
    -- The rational roots are the two that are listed.
    have hlisted := (isRoot_quadratic_iff hu hd q).mp hq
    exact List.mem_pair.mpr (hlisted.imp (congrArg Expr.rat) (congrArg Expr.rat))
  · cases h

/-! ## Products, powers and signs -/

/-- A union over the factors loses no root of the product. -/
theorem uniteAll_complete {es : List Expr} {sets : List SetExpr} {P : Expr → ℚ[X]}
    (h : List.Forall₂ (fun e s => Complete s (P e)) es sets) :
    Complete (.uniteAll sets) (es.map P).prod := by
  refine ⟨full_uniteAll (h.imp fun _ _ hs => hs.full), fun hne => ?_⟩
  have hfactor : ∀ e ∈ es, P e ≠ 0 := fun e he =>
    ne_zero_of_dvd_ne_zero hne (List.dvd_prod (List.mem_map_of_mem he))
  have hsets : ∀ s ∈ sets, s.IsListing := by
    intro s hs
    have hflip : List.Forall₂ (fun s e => Complete s (P e)) sets es := h.flip
    obtain ⟨e, he, hcomplete⟩ := exists_of_mem_left hflip hs
    exact (hcomplete.lists (hfactor e he)).1
  obtain ⟨hlist, hmem⟩ := IsListing.empty.foldl_unite hsets
  refine ⟨hlist, fun q hq => (hmem _).mpr (.inr ?_)⟩
  -- A root of the product is a root of a factor, which lists it.
  rw [IsRoot.def, eval_list_prod, List.prod_eq_zero_iff, List.map_map] at hq
  obtain ⟨e, he, hroot⟩ := List.mem_map.mp hq
  obtain ⟨s, hs, hcomplete⟩ := exists_of_mem_left h he
  exact ⟨s, hs, (hcomplete.lists (hfactor e he)).2 q hroot⟩

/-- A rational factor other than zero adds no roots. -/
theorem Complete.C_mul {p : ℚ[X]} {s : SetExpr} (h : Complete s p) {a : ℚ} (ha : a ≠ 0) :
    Complete s (C a * p) := by
  refine ⟨fun h0 => h.full ((mul_eq_zero.mp h0).resolve_left (C_ne_zero.mpr ha)), fun hne => ?_⟩
  obtain ⟨hlist, hmem⟩ := h.lists (right_ne_zero_of_mul hne)
  refine ⟨hlist, fun q hq => hmem q ?_⟩
  rw [IsRoot.def, eval_mul, eval_C] at hq
  exact (mul_eq_zero.mp hq).resolve_left ha

/-- The base has all roots of a power. -/
theorem Complete.pow {p : ℚ[X]} {s : SetExpr} (h : Complete s p) {k : ℕ} (hk : k ≠ 0) :
    Complete s (p ^ k) := by
  refine ⟨fun h0 => h.full ((pow_eq_zero_iff hk).mp h0), fun hne => ?_⟩
  obtain ⟨hlist, hmem⟩ := h.lists (ne_zero_of_dvd_ne_zero hne (dvd_pow_self p hk))
  refine ⟨hlist, fun q hq => hmem q ?_⟩
  rw [IsRoot.def, eval_pow] at hq
  exact (pow_eq_zero_iff hk).mp hq

/-- Holding all rational zeros passes through all levels. -/
theorem lawful_complete : Lawful x Complete where
  ofConstant := ofConstant_complete
  ofPolynomial := ofPolynomial_complete
  uniteAll := uniteAll_complete
  C_mul := Complete.C_mul
  pow := Complete.pow

/-- A rational zero is in a complete set. -/
theorem Complete.contains? {p : ℚ[X]} {s : SetExpr} {n : Number} {q : ℚ} (h : Complete s p)
    (hn : n.toRat? = some q) (hq : p.IsRoot q) : s.contains? (.number n) = some true := by
  by_cases h0 : p = 0
  · exact (h.full h0).contains? (Expr.hasValue_number hn)
  · exact contains?_of_mem_points hn ((h.lists h0).2 q hq)

end ZeroSet

namespace Expr

/-- No rational zero of a polynomial expression with coefficients is lost: it is decided that the
zero set holds every rational at which the expression evaluates to zero. -/
theorem mem_zeroSet_of_hasValue_zero {e : Expr} {cs : Coefficients} {s : SetExpr}
    {n : Number} {q : ℚ} (he : e.IsPolynomial x) (hc : Coefficients.ofExpr? x e = some cs)
    (h : e.zeroSet x = .ok s) (hn : n.toRat? = some q)
    (hzero : (e.substitute x (.number n)).HasValue 0) : s.contains? (.number n) = some true := by
  have hsmall : e.IsSmall x := he.isSmall_of_coefficients hc
  obtain ⟨p, hp, -⟩ := hsmall.exists_represents_of_coefficients hc
  have hroot : p.IsRoot q := by
    rw [IsRoot.def, ← hp fun _ => q]
    exact (he.hasValue_substitute hn).unique hzero
  exact (ZeroSet.lawful_complete.of_zeroSet hsmall hp h).contains? hn hroot

/-- Of the product of `x ^ 2 - 2` and `x - 3`, the zero set lists two square roots and the
rational zero 3. -/
theorem mem_zeroSet_beside_square_roots :
    ∃ s, ((Expr.power (.var "x") (.int 2) - 2) * (.var "x" - 3)).zeroSet "x" = .ok s ∧
      s.contains? 3 = some true := by
  obtain ⟨s, hs, -⟩ := Comparison.exists_of_any (f := fun _ => true)
    (u := ((Expr.power (.var "x") (.int 2) - 2) * (.var "x" - 3)).zeroSet "x") (by decide +kernel)
  have hnumber : ∀ k : ℕ, (Expr.number (.int k)).IsPolynomial "x" := fun k => .number rfl
  have hsquare : (Expr.power (.var "x") (.int 2)).IsPolynomial "x" :=
    .power .var (by decide) (by decide)
  have he : ((Expr.power (.var "x") (.int 2) - 2) * (.var "x" - 3)).IsPolynomial "x" :=
    .product (by simpa using ⟨hsquare.sub (hnumber 2), IsPolynomial.var.sub (hnumber 3)⟩)
  have hc : Coefficients.ofExpr? "x" ((Expr.power (.var "x") (.int 2) - 2) * (.var "x" - 3)) =
      some [6, .int (-2), .int (-3), 1] := by cbv
  have hzero : (((Expr.power (.var "x") (.int 2) - 2) * (.var "x" - 3)).substitute "x"
      (.number 3)).HasValue 0 := ⟨0, by with_unfolding_all rfl, rfl⟩
  exact ⟨s, hs, mem_zeroSet_of_hasValue_zero he hc hs rfl hzero⟩

end Expr

end SymbolicAlgebra
