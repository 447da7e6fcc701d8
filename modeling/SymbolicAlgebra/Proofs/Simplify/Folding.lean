import Mathlib.Algebra.BigOperators.Ring.Finset
import Mathlib.Algebra.Order.BigOperators.Group.List
import SymbolicAlgebra.Proofs.Expr.FieldExpression
import SymbolicAlgebra.Proofs.Simplify.Term
import SymbolicAlgebra.Simplify.Folding

/-!
# Soundness of the arithmetic patterns

Each arithmetic pattern refines the node that it is applied to: the new node has the value of the
old one wherever that is defined. Zeros of bases and denominators need care. A sum of exponents may
be positive where a summand is negative, but then the node has no value at a zero of the base.

The absolute value of the least word of 64 bits is not its magnitude, so that folding a power with
this exponent is not sound; `Folding.overflows` tells these nodes apart.
-/

namespace SymbolicAlgebra

variable {ρ : Assignment}

namespace Folding

/-! ## Sums -/

/-- Flattening a list of sums flattens each and joins the terms in order. -/
theorem flattenSums_eq_flatMap (es : List Expr) : flattenSums es = es.flatMap flattenSum := by
  induction es with
  | nil => rfl
  | cons e es ih => rw [flattenSums, ih, List.flatMap_cons]

/-- The terms of a sum add up to its value. -/
theorem defined_flattenSum {e : Expr} (he : e.Defined ρ) :
    (∀ t ∈ flattenSum e, t.Defined ρ) ∧ ((flattenSum e).map (Expr.value ρ)).sum = e.value ρ := by
  induction he with
  | @sum es h ih =>
    rw [flattenSum, flattenSums_eq_flatMap, Expr.value_sum]
    clear h
    induction es with
    | nil => simp
    | cons e es ihes =>
      obtain ⟨hd, hv⟩ := ih e (by simp)
      obtain ⟨hds, hvs⟩ := ihes fun e' he' => ih e' (by simp [he'])
      constructor
      · intro t ht
        rcases List.mem_append.mp (List.flatMap_cons ▸ ht) with ht | ht
        · exact hd t ht
        · exact hds t ht
      · simp only [List.flatMap_cons, List.map_append, List.sum_append, hv, hvs, List.map_cons,
          List.sum_cons]
  | number h => exact ⟨by simpa [flattenSum] using .number h, by simp [flattenSum]⟩
  | var v => exact ⟨by simpa [flattenSum] using .var v, by simp [flattenSum]⟩
  | product h => exact ⟨by simpa [flattenSum] using .product h, by simp [flattenSum]⟩
  | power hb hk => exact ⟨by simpa [flattenSum] using .power hb hk, by simp [flattenSum]⟩
  | neg ha => exact ⟨by simpa [flattenSum] using .neg ha, by simp [flattenSum]⟩
  | div ha hb h => exact ⟨by simpa [flattenSum] using .div ha hb h, by simp [flattenSum]⟩

/-- Collecting a term adds its value. -/
theorem defined_addLike {gs : List Term} {t : Term} (hgs : ∀ g ∈ gs, g.Defined ρ)
    (ht : t.Defined ρ) :
    (∀ g ∈ addLike gs t, g.Defined ρ) ∧
      ((addLike gs t).map (Term.value ρ)).sum = (gs.map (Term.value ρ)).sum + t.value ρ := by
  induction gs with
  | nil => exact ⟨by simpa [addLike] using ht, by simp [addLike]⟩
  | cons g gs ih =>
    have hg : g.Defined ρ := hgs g (by simp)
    have hrest : ∀ g' ∈ gs, g'.Defined ρ := fun g' hg' => hgs g' (by simp [hg'])
    rw [addLike]
    split_ifs with hsame
    · -- The first group with the same factors takes the coefficient.
      have hfactors : g.factors = t.factors :=
        (Expr.sameAll_iff (fun e he => (hg.factors e he).setFree) _).mp hsame
      obtain ⟨p, hp⟩ := hg.coefficient
      obtain ⟨q, hq⟩ := ht.coefficient
      have hsum := Number.toRat?_add hp hq
      constructor
      · intro g' hg'
        rcases List.mem_cons.mp hg' with rfl | hg'
        · exact ⟨⟨_, hsum⟩, hg.factors⟩
        · exact hrest g' hg'
      · rw [List.map_cons, List.sum_cons, Term.value_mk hsum, List.map_cons, List.sum_cons,
          Term.value, Term.value, hp, hq, ← hfactors, Option.getD_some, Option.getD_some]
        ring
    · obtain ⟨hds, hvs⟩ := ih hrest
      refine ⟨by simpa using ⟨hg, hds⟩, ?_⟩
      rw [List.map_cons, List.sum_cons, hvs, List.map_cons, List.sum_cons, add_assoc]

/-- The constant is exact, and the groups have values. -/
structure Collected.Defined (ρ : Assignment) (c : Collected) : Prop where
  constant : ∃ q, c.constant.toRat? = some q
  groups : ∀ g ∈ c.groups, g.Defined ρ

/-- The sum of the constant and the groups. -/
def Collected.value (ρ : Assignment) (c : Collected) : ℚ :=
  c.constant.toRat?.getD 0 + (c.groups.map (Term.value ρ)).sum

/-- Adding a term to a collection adds its value. -/
theorem Collected.Defined.add {c : Collected} {t : Term} (hc : c.Defined ρ) (ht : t.Defined ρ) :
    (c.add t).Defined ρ ∧ (c.add t).value ρ = c.value ρ + t.value ρ := by
  rw [Collected.add]
  split_ifs with hnil
  · obtain ⟨p, hp⟩ := hc.constant
    obtain ⟨q, hq⟩ := ht.coefficient
    have hsum := Number.toRat?_add hp hq
    refine ⟨⟨⟨_, hsum⟩, hc.groups⟩, ?_⟩
    simp only [Collected.value, Term.value, hsum, hp, hq, List.isEmpty_iff.mp hnil,
      Option.getD_some, List.map_nil, List.prod_nil]
    ring
  · obtain ⟨hds, hvs⟩ := defined_addLike hc.groups ht
    refine ⟨⟨hc.constant, hds⟩, ?_⟩
    simp only [Collected.value, hvs]
    ring

/-- Collecting the terms of a list adds all their values. -/
theorem Collected.Defined.foldl_add {c : Collected} {ts : List Term} (hc : c.Defined ρ)
    (hts : ∀ t ∈ ts, t.Defined ρ) :
    (ts.foldl Collected.add c).Defined ρ ∧
      (ts.foldl Collected.add c).value ρ = c.value ρ + (ts.map (Term.value ρ)).sum := by
  induction ts generalizing c with
  | nil => exact ⟨hc, by simp⟩
  | cons t ts ih =>
    obtain ⟨hd, hv⟩ := hc.add (hts t (by simp))
    obtain ⟨hd', hv'⟩ := ih hd fun t' ht' => hts t' (by simp [ht'])
    refine ⟨hd', ?_⟩
    rw [List.foldl_cons, hv', hv, List.map_cons, List.sum_cons, add_assoc]

/-- Terms that are zero do not count. -/
theorem sum_map_filter_isZero {gs : List Term} (hgs : ∀ g ∈ gs, g.Defined ρ) :
    (((gs.filter fun t => !t.coefficient.isZero).map Term.toExpr).map (Expr.value ρ)).sum
      = (gs.map (Term.value ρ)).sum := by
  have hzero : ∀ g ∈ gs, (!g.coefficient.isZero) = false → g.value ρ = 0 := by
    intro g hg hz
    obtain ⟨p, hp⟩ := (hgs g hg).coefficient
    have hp0 : p = 0 := (Number.isZero_iff hp).mp (by simpa using hz)
    rw [Term.value, hp, Option.getD_some, hp0, zero_mul]
  rw [List.map_map, ← sum_map_filter hzero]
  exact congrArg List.sum (List.map_congr_left fun g hg =>
    (hgs g (List.mem_of_mem_filter hg)).toExpr.2)

/-- The terms that are not zero keep the value. -/
theorem Collected.Defined.toTerms {c : Collected} (hc : c.Defined ρ) :
    (∀ e ∈ c.toTerms, e.Defined ρ) ∧ (c.toTerms.map (Expr.value ρ)).sum = c.value ρ := by
  obtain ⟨q, hq⟩ := hc.constant
  have hds : ∀ e ∈ (c.groups.filter fun t => !t.coefficient.isZero).map Term.toExpr,
      e.Defined ρ := by
    intro e he
    obtain ⟨g, hg, rfl⟩ := List.mem_map.mp he
    exact (hc.groups g (List.mem_filter.mp hg).1).toExpr.1
  simp only [Collected.toTerms, Collected.value, hq, Option.getD_some, List.map_append,
    List.sum_append, sum_map_filter_isZero hc.groups]
  split_ifs with hz
  · exact ⟨by simpa only [List.append_nil] using hds, by simp [(Number.isZero_iff hq).mp hz]⟩
  · refine ⟨?_, by simp [Expr.value_number hq, add_comm]⟩
    intro e he
    rcases List.mem_append.mp he with he | he
    · exact hds e he
    · rw [List.mem_singleton.mp he]
      exact .number hq

/-- Collecting like terms keeps the value. -/
theorem collectSum_refines (e : Expr) : (collectSum e).Refines e := by
  intro ρ he
  obtain ⟨hts, htv⟩ := defined_flattenSum he
  have hterms : ∀ t ∈ (flattenSum e).map Term.ofExpr, t.Defined ρ := by
    intro t ht
    obtain ⟨a, ha, rfl⟩ := List.mem_map.mp ht
    exact (Term.defined_ofExpr (hts a ha)).1
  have hvalues : (((flattenSum e).map Term.ofExpr).map (Term.value ρ)).sum = e.value ρ := by
    rw [← htv, List.map_map]
    exact congrArg List.sum
      (List.map_congr_left fun a ha => (Term.defined_ofExpr (hts a ha)).2)
  have hempty : Collected.Defined ρ ⟨0, []⟩ := ⟨⟨0, rfl⟩, by simp⟩
  obtain ⟨hd, hv⟩ := hempty.foldl_add hterms
  obtain ⟨hds, hvs⟩ := hd.toTerms
  obtain ⟨hsum, hsumv⟩ := Expr.defined_sumOf hds
  refine ⟨hsum, ?_⟩
  rw [collectSum, collect, hsumv, hvs, hv, hvalues]
  simp [Collected.value, Number.toRat?]

/-- Collecting the terms of a sum keeps its value. -/
theorem foldSum_refines (e : Expr) : (foldSum e).Refines e := by
  cases e with
  | sum es => exact collectSum_refines (.sum es)
  | _ => exact .refl _

/-! ## Sums and products of numbers -/

section Numbers

variable {ns : List Number} {qs : List ℚ}

/-- A sum of exact numbers folds to the literal of its value. -/
theorem foldSum_numbers (h : List.Forall₂ (fun n q => n.toRat? = some q) ns qs) :
    foldSum (.sum (ns.map .number)) = .rat qs.sum := by
  have hflat : ∀ ns : List Number, flattenSums (ns.map .number) = ns.map .number := by
    intro ns
    induction ns with
    | nil => rfl
    | cons n ns ih => rw [List.map_cons, flattenSums, ih]; rfl
  -- The terms have no factors, so that all of them go into the constant.
  have hcollect : ∀ p : ℚ, ((ns.map Expr.number).map Term.ofExpr).foldl Collected.add
      ⟨.ofRat p, []⟩ = ⟨.ofRat (p + qs.sum), []⟩ := by
    induction h with
    | nil => simp
    | @cons n q ns qs hn _ ih =>
      intro p
      have hadd : Collected.add ⟨.ofRat p, []⟩ (Term.ofExpr (.number n)) =
          ⟨.ofRat (p + q), []⟩ := by
        change Collected.mk (.ofRat p + 1 * n) [] = _
        rw [Number.add_eq (Number.toRat?_ofRat p) (Number.toRat?_mul (p := 1) rfl hn), one_mul]
      rw [List.map_cons, List.map_cons, List.foldl_cons, hadd, ih, List.sum_cons, add_assoc]
  have hsum : collect ((flattenSum (.sum (ns.map .number))).map Term.ofExpr) =
      ⟨.ofRat qs.sum, []⟩ := by
    rw [collect, flattenSum, hflat, show (0 : Number) = .ofRat 0 from rfl, hcollect, zero_add]
  rw [foldSum, collectSum, hsum, Collected.toTerms]
  split_ifs with hz
  · rw [(Number.isZero_iff (Number.toRat?_ofRat _)).mp hz]
    rfl
  · rfl

/-- A product of exact numbers folds to the literal of its value. -/
theorem foldProduct_numbers (h : List.Forall₂ (fun n q => n.toRat? = some q) ns qs) :
    foldProduct (.product (ns.map .number)) = .rat qs.prod := by
  have htimes : ∀ p : ℚ, (ns.map Expr.number).foldl Term.times ⟨.ofRat p, []⟩ =
      ⟨.ofRat (p * qs.prod), []⟩ := by
    induction h with
    | nil => simp
    | @cons n q ns qs hn _ ih =>
      intro p
      have hmul : Term.times ⟨.ofRat p, []⟩ (.number n) = ⟨.ofRat (p * q), []⟩ := by
        rw [Term.times, Number.mul_eq (Number.toRat?_ofRat p) hn]
      rw [List.map_cons, List.foldl_cons, hmul, ih, List.prod_cons, mul_assoc]
  have hterm : Term.ofExpr (.product (ns.map .number)) = ⟨.ofRat qs.prod, []⟩ := by
    rw [Term.ofExpr, Term.times, Term.timesAll_eq_foldl, Number.one_eq_ofRat, htimes, one_mul]
  rw [foldProduct, hterm]
  dsimp only
  split_ifs with hz
  · rw [(Number.isZero_iff (Number.toRat?_ofRat _)).mp hz]
    rfl
  · rfl

end Numbers

/-! ## Products -/

/-- A sum of integer literals folds to the literal of their sum. -/
theorem foldSum_sumOf_ints (ks : List ℤ) :
    foldSum (.sumOf (ks.map .int)) = .int ks.sum := by
  -- No term and one term are written without a sum, so that nothing is collected.
  match ks with
  | [] => rfl
  | [k] => rw [List.sum_singleton]; rfl
  | k :: l :: ks =>
    have hvalues : List.Forall₂ (fun n q => n.toRat? = some q) ((k :: l :: ks).map Number.int)
        ((k :: l :: ks).map fun k : ℤ => (k : ℚ)) := by
      simp [List.forall₂_map_left_iff, List.forall₂_map_right_iff]
    have hfold := foldSum_numbers hvalues
    rw [List.map_map, ← Int.cast_list_sum, Expr.rat, Number.ofRat_intCast] at hfold
    exact hfold

/-- The base has a value, and the exponents are integers that fit to it. -/
structure PowerGroup.Defined (ρ : Assignment) (g : PowerGroup) : Prop where
  base : g.base.Defined ρ
  exponents : ∃ ks : List ℤ, g.exponents = ks.map .int ∧ (g.base.value ρ = 0 → ∀ k ∈ ks, 0 ≤ k)

/-- The product of all powers of the base. -/
def PowerGroup.value (ρ : Assignment) (g : PowerGroup) : ℚ :=
  (g.exponents.map fun x => g.base.value ρ ^ x.toInt?.getD 0).prod

/-- Powers of one base multiply by adding their exponents, as long as none is a negative power of
zero. -/
theorem prod_map_zpow {b : ℚ} {ks : List ℤ} (h : b = 0 → ∀ k ∈ ks, 0 ≤ k) :
    (ks.map fun k => b ^ k).prod = b ^ ks.sum := by
  induction ks with
  | nil => simp
  | cons k ks ih =>
    rw [List.map_cons, List.prod_cons, ih fun hb k' hk' => h hb k' (by simp [hk']), List.sum_cons]
    rcases eq_or_ne b 0 with hb | hb
    · -- No exponent is negative at zero, and then the exponents may be added there too.
      have hk : 0 ≤ k := h hb k (by simp)
      have hsum : 0 ≤ ks.sum := List.sum_nonneg fun k' hk' => h hb k' (by simp [hk'])
      exact (zpow_add' (by omega)).symm
    · exact (zpow_add₀ hb k ks.sum).symm

/-- The value of a group is the power with the sum of the exponents. -/
theorem PowerGroup.value_eq {g : PowerGroup} (ks : List ℤ)
    (hks : g.exponents = ks.map .int) (hb : g.base.value ρ = 0 → ∀ k ∈ ks, 0 ≤ k) :
    g.value ρ = g.base.value ρ ^ ks.sum := by
  rw [PowerGroup.value, hks, List.map_map, ← prod_map_zpow hb]
  rfl

/-- A factor is the power of its base with its exponent. -/
theorem defined_baseAndExponent {e : Expr} (he : e.Defined ρ) :
    PowerGroup.Defined ρ ⟨(baseAndExponent e).1, [(baseAndExponent e).2]⟩ ∧
      PowerGroup.value ρ ⟨(baseAndExponent e).1, [(baseAndExponent e).2]⟩ = e.value ρ := by
  have hone : ∀ {e : Expr}, e.Defined ρ →
      PowerGroup.Defined ρ ⟨e, [1]⟩ ∧ PowerGroup.value ρ ⟨e, [1]⟩ = e.value ρ := by
    intro e he
    refine ⟨⟨he, [1], rfl, by simp⟩, ?_⟩
    rw [PowerGroup.value_eq [1] rfl (by simp), List.sum_singleton, zpow_one]
  cases he with
  | @power b k hb hk =>
    have hk' : b.value ρ = 0 → ∀ k' ∈ [k], 0 ≤ k' := by simpa using hk
    refine ⟨⟨hb, [k], rfl, hk'⟩, ?_⟩
    rw [PowerGroup.value_eq [k] rfl hk', List.sum_singleton]
    rfl
  | number h => exact hone (.number h)
  | var v => exact hone (.var v)
  | sum h => exact hone (.sum h)
  | product h => exact hone (.product h)
  | neg ha => exact hone (.neg ha)
  | div ha hb h => exact hone (.div ha hb h)

/-- Adding a power to its group multiplies the value by it. -/
theorem defined_addPower {gs : List PowerGroup} {b x : Expr} (hgs : ∀ g ∈ gs, g.Defined ρ)
    (hp : PowerGroup.Defined ρ ⟨b, [x]⟩) :
    (∀ g ∈ addPower gs (b, x), g.Defined ρ) ∧
      ((addPower gs (b, x)).map (PowerGroup.value ρ)).prod
        = (gs.map (PowerGroup.value ρ)).prod * PowerGroup.value ρ ⟨b, [x]⟩ := by
  -- The induction goes through the groups until one has the base.
  induction gs with
  | nil => exact ⟨by simpa [addPower] using hp, by simp [addPower]⟩
  | cons g gs ih =>
    have hg : g.Defined ρ := hgs g (by simp)
    have hrest : ∀ g' ∈ gs, g'.Defined ρ := fun g' hg' => hgs g' (by simp [hg'])
    rw [addPower]
    split_ifs with hsame
    · obtain rfl : g.base = b := (hg.base.setFree.beq_iff b).mp hsame
      obtain ⟨ks, hks, hkb⟩ := hg.exponents
      obtain ⟨ls, hls, hlb⟩ := hp.exponents
      constructor
      · intro g' hg'
        rcases List.mem_cons.mp hg' with rfl | hg'
        · refine ⟨hg.base, ks ++ ls, by simp [hks, ← hls], ?_⟩
          intro h0 k hk
          rcases List.mem_append.mp hk with hk | hk
          · exact hkb h0 k hk
          · exact hlb h0 k hk
        · exact hrest g' hg'
      · simp only [List.map_cons, List.prod_cons, PowerGroup.value, List.map_append,
          List.prod_append, List.map_nil, List.prod_nil]
        ring
    · obtain ⟨hds, hvs⟩ := ih hrest
      refine ⟨by simpa using ⟨hg, hds⟩, ?_⟩
      rw [List.map_cons, List.prod_cons, hvs, List.map_cons, List.prod_cons, mul_assoc]

/-- The factor of a group depends on the sum of its exponents. -/
theorem PowerGroup.toFactor?_eq {g : PowerGroup} {ks : List ℤ} (hks : g.exponents = ks.map .int) :
    g.toFactor? =
      if (Expr.int ks.sum).isZero then none
      else if (Expr.int ks.sum).isOne then some g.base
      else some (.power g.base (.int ks.sum)) := by
  rw [← foldSum_sumOf_ints, PowerGroup.toFactor?, hks]
  match ks with
  | [] => rfl
  | [k] => rfl
  | k :: l :: ks => rfl

/-- The factor that is written for a group, if any, has the value of the group. -/
theorem PowerGroup.Defined.toFactor? {g : PowerGroup} (hg : g.Defined ρ) :
    (∀ e ∈ g.toFactor?.toList, e.Defined ρ) ∧
      (g.toFactor?.toList.map (Expr.value ρ)).prod = g.value ρ := by
  obtain ⟨ks, hks, hb⟩ := hg.exponents
  have hsum : g.base.value ρ = 0 → 0 ≤ ks.sum := fun h0 => List.sum_nonneg (hb h0)
  rw [PowerGroup.value_eq ks hks hb, PowerGroup.toFactor?_eq hks]
  split_ifs with hzero hone
  · have h0 : ((ks.sum : ℤ) : ℚ) = 0 := (Number.isZero_iff (Number.toRat?_int _)).mp hzero
    exact ⟨by simp, by simp [Int.cast_eq_zero.mp h0]⟩
  · have h1 : ((ks.sum : ℤ) : ℚ) = 1 := (Number.isOne_iff (Number.toRat?_int _)).mp hone
    exact ⟨by simpa using hg.base, by simp [Int.cast_eq_one.mp h1]⟩
  · exact ⟨by simpa using .power hg.base hsum, by simp⟩

/-- Grouping the powers of a list multiplies by all of them. -/
theorem defined_foldl_addPower {es : List Expr} {gs : List PowerGroup}
    (hes : ∀ e ∈ es, e.Defined ρ) (hgs : ∀ g ∈ gs, g.Defined ρ) :
    (∀ g ∈ (es.map baseAndExponent).foldl addPower gs, g.Defined ρ) ∧
      (((es.map baseAndExponent).foldl addPower gs).map (PowerGroup.value ρ)).prod
        = (gs.map (PowerGroup.value ρ)).prod * (es.map (Expr.value ρ)).prod := by
  induction es generalizing gs with
  | nil => exact ⟨hgs, by simp⟩
  | cons e es ih =>
    obtain ⟨hp, hpv⟩ := defined_baseAndExponent (hes e (by simp))
    obtain ⟨hadd, haddv⟩ := defined_addPower hgs hp
    obtain ⟨hd, hv⟩ := ih (fun e' he' => hes e' (by simp [he'])) hadd
    refine ⟨hd, ?_⟩
    rw [List.map_cons, List.foldl_cons, hv, haddv, hpv, List.map_cons, List.prod_cons, mul_assoc]

/-- The factors that are written for groups have the product of their values. -/
theorem defined_flatMap_toFactor? {gs : List PowerGroup} (hgs : ∀ g ∈ gs, g.Defined ρ) :
    (∀ e ∈ gs.flatMap fun g => g.toFactor?.toList, e.Defined ρ) ∧
      ((gs.flatMap fun g => g.toFactor?.toList).map (Expr.value ρ)).prod
        = (gs.map (PowerGroup.value ρ)).prod := by
  induction gs with
  | nil => simp
  | cons g gs ih =>
    obtain ⟨hd, hv⟩ := (hgs g (by simp)).toFactor?
    obtain ⟨hds, hvs⟩ := ih fun g' hg' => hgs g' (by simp [hg'])
    rw [List.flatMap_cons, List.map_append, List.prod_append, hv, hvs, List.map_cons,
      List.prod_cons]
    refine ⟨?_, rfl⟩
    intro e he
    rcases List.mem_append.mp he with he | he
    · exact hd e he
    · exact hds e he

/-- Merging powers of equal bases keeps the product. -/
theorem defined_mergePowers {es : List Expr} (hes : ∀ e ∈ es, e.Defined ρ) :
    (∀ e ∈ mergePowers es, e.Defined ρ) ∧
      ((mergePowers es).map (Expr.value ρ)).prod = (es.map (Expr.value ρ)).prod := by
  have hnil : ∀ g ∈ ([] : List PowerGroup), g.Defined ρ := by simp
  obtain ⟨hgs, hgv⟩ := defined_foldl_addPower hes hnil
  obtain ⟨hfs, hfv⟩ := defined_flatMap_toFactor? hgs
  rw [mergePowers, List.filterMap_eq_flatMap_toList]
  refine ⟨hfs, ?_⟩
  rw [hfv, hgv]
  simp

/-- Folding a product keeps its value. -/
theorem foldProduct_refines (e : Expr) : (foldProduct e).Refines e := by
  cases e with
  | product es =>
    intro ρ he
    obtain ⟨ht, htv⟩ := Term.defined_ofExpr he
    obtain ⟨c, hc⟩ := ht.coefficient
    obtain ⟨hm, hmv⟩ := defined_mergePowers ht.factors
    rw [foldProduct, ← htv]
    split_ifs with hz
    · refine ⟨.int 0, ?_⟩
      rw [Term.value, hc, Option.getD_some, (Number.isZero_iff hc).mp hz, zero_mul]
      exact Expr.value_int 0
    · obtain ⟨hd, hv⟩ := Term.Defined.toExpr (t := ⟨(Term.ofExpr (.product es)).coefficient,
          mergePowers (Term.ofExpr (.product es)).factors⟩) ⟨⟨c, hc⟩, hm⟩
      exact ⟨hd, by rw [hv, Term.value_mk hc, hmv, Term.value, hc, Option.getD_some]⟩
  | _ => exact .refl _

/-! ## Powers -/

/-- Whether folding the node takes the absolute value of the least word of 64 bits, which has none
among the words. -/
def overflows : Expr → Bool
  | .power (.number m) (.number (.int k)) =>
    isExact m && !m.isOne && k == -9223372036854775808
  | _ => false

/-- The least word is the only exponent at which the bound on exponents is no bound. -/
theorem ne_least_of_overflows_eq_false {m : Number} {p : ℚ} {k : ℤ} (hm : m.toRat? = some p)
    (hone : m.isOne = false) (ho : overflows (.power (.number m) (.int k)) = false) :
    k ≠ -9223372036854775808 := by
  rintro rfl
  simp [overflows, Expr.int, isExact, hm, hone] at ho

/-- A word takes the integers in its range, unchanged. -/
theorem toSignedWord?_eq_some_iff {bits : ℕ} {k l : ℤ} :
    toSignedWord? bits k = some l ↔ (-2 ^ (bits - 1) ≤ k ∧ k < 2 ^ (bits - 1)) ∧ k = l := by
  simp [toSignedWord?]

/-- Any word but the least has its absolute value among the words. -/
theorem wordAbs_eq_abs {k : ℤ} (h : toSignedWord? 64 k = some k) (hk : k ≠ -9223372036854775808) :
    wordAbs k = |k| := by
  obtain ⟨⟨hlo, hhi⟩, -⟩ := toSignedWord?_eq_some_iff.mp h
  norm_num at hlo hhi
  have habs : (k.natAbs : ℤ) = |k| := Int.natCast_natAbs k
  have hword : Int.bmod k.natAbs 18446744073709551616 = k.natAbs :=
    Int.bmod_eq_of_le (by omega) (by omega)
  exact hword.trans habs

/-- Exponents up to the largest folded one fit into half a word. -/
theorem toSignedWord?_of_abs_le {k : ℤ} (h : |k| ≤ maxFoldedExponent) :
    toSignedWord? 32 k = some k := by
  obtain ⟨hlo, hhi⟩ := abs_le.mp h
  simp only [maxFoldedExponent] at hlo hhi
  exact toSignedWord?_eq_some_iff.mpr ⟨⟨by norm_num; omega, by norm_num; omega⟩, rfl⟩

/-- A folded power of two exact numbers is exact, unless the exponent is the least word. -/
theorem foldNumericPower?_eq_some {m r : Number} {p : ℚ} {k : ℤ} (hm : m.toRat? = some p)
    (hk : k ≠ -9223372036854775808) (h : foldNumericPower? m (.int k) = some r) :
    (p = 0 → 0 ≤ k) ∧ r = .ofRat (p ^ k) := by
  rw [foldNumericPower?, if_pos (by simp [isExact, hm])] at h
  split at h
  · rename_i l hl
    obtain ⟨hword, habs⟩ := Option.filter_eq_some_iff.mp hl
    obtain rfl : k = l := (toSignedWord?_eq_some_iff.mp hword).2
    rw [decide_eq_true_eq, wordAbs_eq_abs hword hk] at habs
    split_ifs at h with hzero
    have hp : p = 0 → 0 ≤ k := by
      intro hp
      by_contra hneg
      exact hzero (by simpa using ⟨(Number.isZero_iff hm).mpr hp, by omega⟩)
    exact ⟨hp, by rw [← Option.some.inj h, Number.pow_eq hm (toSignedWord?_of_abs_le habs) hp]⟩
  · exact absurd h (by simp)

/-- A power of an exact number with a folded exponent is computed, unless it is a negative power of
zero. -/
theorem foldNumericPower?_of_abs_le {m : Number} {p : ℚ} {k : ℤ} (hm : m.toRat? = some p)
    (hk : |k| ≤ maxFoldedExponent) (hp : p = 0 → 0 ≤ k) :
    foldNumericPower? m (.int k) = some (.ofRat (p ^ k)) := by
  have hk' : -1024 ≤ k ∧ k ≤ 1024 := abs_le.mp hk
  have hword : toSignedWord? 64 k = some k :=
    toSignedWord?_eq_some_iff.mpr ⟨⟨by norm_num; omega, by norm_num; omega⟩, rfl⟩
  have hwordAbs : wordAbs k ≤ maxFoldedExponent := by
    rwa [wordAbs_eq_abs hword (by omega)]
  have hneg : ¬ ((m.isZero && decide (k < 0)) = true) := by
    rw [Bool.and_eq_true, Number.isZero_iff hm, decide_eq_true_eq, not_and, not_lt]
    exact hp
  rw [foldNumericPower?, if_pos (by simp [isExact, hm])]
  simp only [hword, Option.filter_some, hwordAbs, decide_true, if_true]
  rw [if_neg hneg, Number.pow_eq hm (toSignedWord?_of_abs_le hk) hp]

/-- A power of a power with whole exponents has the product of both as exponent. -/
theorem foldNestedPower?_refines {b e : Expr} {k : ℤ} (h : foldNestedPower? b k = some e) :
    e.Refines (.power b (.int k)) := by
  intro ρ hd
  cases hd with
  | power hb hk =>
    cases hb with
    | @power a j ha hj =>
      obtain rfl : Expr.power a (.int (j * k)) = e := Option.some.inj h
      rw [Expr.value_power] at hk
      refine ⟨.power ha ?_, by simp [zpow_mul]⟩
      intro h0
      -- A negative product would need a negative power of zero, inside or outside.
      rcases eq_or_ne j 0 with rfl | hj0
      · simp
      · exact mul_nonneg (hj h0) (hk (by rw [h0, zero_zpow j hj0]))
    | _ => simp [foldNestedPower?] at h

/-- How a power of a number is folded. -/
theorem foldPower_number (m : Number) (k : ℤ) :
    foldPower (.power (.number m) (.int k)) =
      if (Expr.int k).isZero || (Expr.number m).isOne then 1
      else if (Expr.int k).isOne then .number m
      else (foldNumericPower? m (.int k)).elim (.power (.number m) (.int k)) .number := rfl

/-- How a power of anything else is folded. -/
theorem foldPower_of_toNumber?_eq_none {b : Expr} (hb : b.toNumber? = none) (k : ℤ) :
    foldPower (.power b (.int k)) =
      if (Expr.int k).isZero || b.isOne then 1
      else if (Expr.int k).isOne then b
      else (foldNestedPower? b k).getD (.power b (.int k)) := by
  cases b with
  | number m => simp [Expr.toNumber?] at hb
  | _ => rfl

/-- The exponents zero and one, and the base one. -/
theorem foldPower_trivial {b : Expr} {k : ℤ} (hd : Expr.Defined ρ (.power b (.int k))) :
    ((Expr.int k).isZero || b.isOne → (.power b (.int k) : Expr).value ρ = 1) ∧
      ((Expr.int k).isOne → (.power b (.int k) : Expr).value ρ = b.value ρ) := by
  cases hd with
  | power hb hk =>
    have hint : (Expr.int k).value ρ = (k : ℚ) := Expr.value_int k
    refine ⟨fun h => ?_, fun h => ?_⟩
    · rcases (Bool.or_eq_true _ _).mp h with h0 | h1
      · have hk0 : (k : ℚ) = 0 := hint ▸ (Expr.Defined.int k).isZero_iff h0
        rw [Expr.value_power, Int.cast_eq_zero.mp hk0, zpow_zero]
      · rw [Expr.value_power, hb.isOne_iff h1, one_zpow]
    · have hk1 : (k : ℚ) = 1 := hint ▸ (Expr.Defined.int k).isOne_iff h
      rw [Expr.value_power, Int.cast_eq_one.mp hk1, zpow_one]

/-- Folding a power keeps its value, unless the exponent is the least word. -/
theorem foldPower_refines {e : Expr} (ho : overflows e = false) : (foldPower e).Refines e := by
  cases e with
  | power b x =>
    intro ρ hd
    cases hd with
    | @power b k hb hk =>
      have hd : Expr.Defined ρ (.power b (.int k)) := .power hb hk
      obtain ⟨htriv, hone⟩ := foldPower_trivial hd
      cases hnum : b.toNumber? with
      | none =>
        rw [foldPower_of_toNumber?_eq_none hnum]
        split_ifs with h1 h2
        · exact ⟨.int 1, (Expr.value_int 1).trans (by rw [htriv h1, Int.cast_one])⟩
        · exact ⟨hb, (hone h2).symm⟩
        · cases hfold : foldNestedPower? b k with
          | none => exact ⟨hd, rfl⟩
          | some r => exact foldNestedPower?_refines hfold ρ hd
      | some m =>
        obtain rfl := Expr.eq_number_of_toNumber? hnum
        obtain ⟨p, hm⟩ := hb.exists_toRat?
        rw [foldPower_number]
        split_ifs with h1 h2
        · exact ⟨.int 1, (Expr.value_int 1).trans (by rw [htriv h1, Int.cast_one])⟩
        · exact ⟨hb, (hone h2).symm⟩
        · cases hfold : foldNumericPower? m (.int k) with
          | none => exact ⟨hd, rfl⟩
          | some r =>
            simp only [Bool.or_eq_true, not_or, Expr.isOne, Bool.not_eq_true] at h1
            -- The power is exact, since its exponent is not the least word.
            have hne := ne_least_of_overflows_eq_false hm h1.2 ho
            obtain ⟨-, rfl⟩ := foldNumericPower?_eq_some hm hne hfold
            have hr : (Number.ofRat (p ^ k)).toRat? = some (p ^ k) := Number.toRat?_ofRat _
            refine ⟨.number hr, ?_⟩
            rw [Option.elim_some, Expr.value_number hr, Expr.value_power, Expr.value_number hm]
  | _ => exact .refl _

/-! ## Signs and quotients -/

theorem foldNeg_refines (e : Expr) : (foldNeg e).Refines e := by
  cases e with
  | neg a =>
    cases a with
    | neg a =>
      rintro ρ (_ | _ | _ | _ | _ | ⟨_ | _ | _ | _ | _ | ha⟩)
      exact ⟨ha, by simp [foldNeg]⟩
    | _ => exact Term.toExpr_ofExpr_refines _
  | _ => exact .refl _

/-- How a quotient by a number is folded. -/
theorem foldDiv_number (a : Expr) (d : Number) :
    foldDiv (.div a (.number d)) =
      if (Expr.number d).isOne then a
      else if d.isZero then .div a (.number d)
      else Term.toExpr ⟨(Term.ofExpr a).coefficient / d, (Term.ofExpr a).factors⟩ := rfl

/-- How a quotient by anything else is folded. -/
theorem foldDiv_of_toNumber?_eq_none (a : Expr) {b : Expr} (hb : b.toNumber? = none) :
    foldDiv (.div a b) =
      if b.isOne then a else if a.isZero then 0 else if a == b then 1 else .div a b := by
  cases b with
  | number d => simp [Expr.toNumber?] at hb
  | _ => rfl

/-- Folding a quotient keeps its value: the denominator is not zero where it is defined. -/
theorem foldDiv_refines (e : Expr) : (foldDiv e).Refines e := by
  cases e with
  | div a b =>
    intro ρ hd
    cases hd with
    | div ha hb hne =>
      have hd : Expr.Defined ρ (.div a b) := .div ha hb hne
      have hone : b.isOne = true → a.value ρ = (Expr.div a b).value ρ := fun h => by
        rw [Expr.value_div, hb.isOne_iff h, div_one]
      cases hnum : b.toNumber? with
      | none =>
        rw [foldDiv_of_toNumber?_eq_none a hnum]
        split_ifs with h1 hzero hsame
        · exact ⟨ha, hone h1⟩
        · -- Zero over anything is zero, since the denominator is not.
          refine ⟨.int 0, (Expr.value_int 0).trans ?_⟩
          rw [Expr.value_div, ha.isZero_iff hzero, zero_div, Int.cast_zero]
        · obtain rfl : a = b := (ha.setFree.beq_iff b).mp hsame
          refine ⟨.int 1, (Expr.value_int 1).trans ?_⟩
          rw [Expr.value_div, div_self hne, Int.cast_one]
        · exact ⟨hd, rfl⟩
      | some d =>
        obtain rfl := Expr.eq_number_of_toNumber? hnum
        obtain ⟨q, hq⟩ := hb.exists_toRat?
        obtain ⟨ht, htv⟩ := Term.defined_ofExpr ha
        obtain ⟨c, hc⟩ := ht.coefficient
        rw [Expr.value_number hq] at hne
        rw [foldDiv_number]
        split_ifs with h1 hzero
        · exact ⟨ha, hone h1⟩
        · exact ⟨hd, rfl⟩
        · have hquot := Number.toRat?_div hc hq hne
          obtain ⟨hf, hfv⟩ := Term.Defined.toExpr (ρ := ρ)
            (t := ⟨(Term.ofExpr a).coefficient / d, (Term.ofExpr a).factors⟩)
            ⟨⟨_, hquot⟩, ht.factors⟩
          refine ⟨hf, ?_⟩
          rw [hfv, Term.value_mk hquot, Expr.value_div, Expr.value_number hq, ← htv, Term.value, hc,
            Option.getD_some]
          ring
  | _ => exact .refl _

/-! ## Roots and absolute values -/

/-- There are no square roots to fold in a field expression. -/
theorem foldSqrt_eq_self {K : ℤ → Prop} {e : Expr} (he : e.IsField K) : foldSqrt e = e := by
  simp [foldSqrt, he.argOf?_eq_none]

/-- The root of the square of a rational. -/
theorem foldSqrt_square {n : Number} {p : ℚ} (hn : n.toRat? = some (p * p)) :
    foldSqrt (.call .sqrt (.number n)) = .rat |p| := by
  have hroot : foldedRoot? n = some (.rat |p|) := by
    rw [foldedRoot?, Number.sqrt_mul_self hn, if_pos (by simp [isExact])]
    rfl
  change (foldedRoot? n).getD _ = _
  rw [hroot]
  rfl

/-- There are no absolute values to fold in a field expression. -/
theorem foldAbs_eq_self {K : ℤ → Prop} {e : Expr} (he : e.IsField K) : foldAbs e = e := by
  simp [foldAbs, he.argOf?_eq_none]

end Folding

end SymbolicAlgebra
