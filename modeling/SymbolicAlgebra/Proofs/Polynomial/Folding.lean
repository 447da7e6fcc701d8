import SymbolicAlgebra.Proofs.Polynomial.Degree
import SymbolicAlgebra.Proofs.Simplify.Folding

/-!
# Folding settled polynomials

The arithmetic pattern for a kind of node makes a settled polynomial of a node whose operands are
settled, without a higher degree. Exponents only add up and multiply, with bases of a positive
degree, so that they stay below the degree.
-/

namespace SymbolicAlgebra

variable {x : String}

namespace Expr

/-- An expression is settled to another one that refines it and has no higher degree. -/
structure Settles (x : String) (e' e : Expr) : Prop where
  settled : e'.Settled x
  degree_le : e'.degree x ≤ e.degree x
  refines : e'.Refines e

/-- What settles an expression settles those that this one refines without a higher degree. -/
theorem Settles.trans {a b c : Expr} (hab : a.Settles x b) (hd : b.degree x ≤ c.degree x)
    (hr : b.Refines c) : a.Settles x c :=
  ⟨hab.settled, hab.degree_le.trans hd, hab.refines.trans hr⟩

/-- A settled expression is settled to itself. -/
theorem Settled.settles {e : Expr} (h : e.Settled x) : e.Settles x e := ⟨h, le_rfl, .refl e⟩

/-- A settled expression of positive degree. -/
def Active (x : String) (e : Expr) : Prop := e.Settled x ∧ 1 ≤ e.degree x

/-- A settled expression of positive degree is no literal zero. -/
theorem Active.isZero_eq_false {e : Expr} (h : e.Active x) : e.isZero = false := by
  cases e with
  | number n => exact absurd h.2 (by simp)
  | _ => rfl

/-- A written sum is settled if its terms are, and if one of them has a positive degree where there
are two or more. -/
theorem settled_sumOf {es : List Expr} (h : ∀ e ∈ es, e.Settled x)
    (hd : 2 ≤ es.length → ∃ e ∈ es, 1 ≤ e.degree x) : (sumOf es).Settled x := by
  match es, h, hd with
  | [], _, _ => exact .int 0
  | [e], h, _ => exact h e (by simp)
  | a :: b :: es, h, hd =>
    obtain ⟨e, he, hpos⟩ := hd (by simp)
    exact .sum h (hpos.trans (degree_le_degree_sum he))

/-- A written sum has no higher degree than its terms. -/
theorem degree_sumOf_le {es : List Expr} {d : ℕ} (h : ∀ e ∈ es, e.degree x ≤ d) :
    (sumOf es).degree x ≤ d := by
  match es, h with
  | [], _ => exact Nat.zero_le d
  | [e], h => exact h e (by simp)
  | a :: b :: es, h => exact degree_sum_le_iff.mpr h

/-- The degrees of the factors add up in a written product. -/
theorem degree_productOf (es : List Expr) :
    (productOf es).degree x = (es.map (degree x)).sum := by
  match es with
  | [] => rfl
  | [e] => simp [productOf]
  | a :: b :: es => exact degree_product _

/-- A written product is settled if its factors are, none is zero and the degree is positive. -/
theorem settled_productOf {es : List Expr} (h : ∀ e ∈ es, e.Settled x)
    (hz : ∀ e ∈ es, e.isZero = false) (hd : 1 ≤ (productOf es).degree x) :
    (productOf es).Settled x := by
  match es, h, hz, hd with
  | [], _, _, _ => exact .int 1
  | [e], h, _, _ => exact h e (by simp)
  | a :: b :: es, h, hz, hd => exact .product h hz hd

end Expr

/-! ## Terms -/

namespace Term

/-- The coefficient is exact, and the factors are settled and have positive degrees. -/
structure Settled (x : String) (t : Term) : Prop where
  coefficient : ∃ q, t.coefficient.toRat? = some q
  factors : ∀ e ∈ t.factors, e.Active x

/-- The sum of the degrees of the factors. -/
def degree (x : String) (t : Term) : ℕ := (t.factors.map (Expr.degree x)).sum

/-- A further factor adds its degree. -/
theorem Settled.append {t : Term} {e : Expr} (ht : t.Settled x) (he : e.Active x) :
    Settled x ⟨t.coefficient, t.factors ++ [e]⟩ ∧
      degree x ⟨t.coefficient, t.factors ++ [e]⟩ = t.degree x + e.degree x := by
  refine ⟨⟨ht.coefficient, ?_⟩, by simp [degree]⟩
  exact List.forall_mem_append.mpr ⟨ht.factors, List.forall_mem_singleton.mpr he⟩

/-- Where multiplying by each expression of a list adds the degrees, multiplying by all does. -/
theorem Settled.foldl_times {t : Term} {es : List Expr} (ht : t.Settled x)
    (h : ∀ e ∈ es, ∀ {t : Term}, t.Settled x →
      (t.times e).Settled x ∧ (t.times e).degree x = t.degree x + e.degree x) :
    (es.foldl Term.times t).Settled x ∧
      (es.foldl Term.times t).degree x = t.degree x + (es.map (Expr.degree x)).sum := by
  induction es generalizing t with
  | nil => exact ⟨ht, rfl⟩
  | cons e es ih =>
    obtain ⟨he, hrest⟩ := List.forall_mem_cons.mp h
    obtain ⟨hs, hd⟩ := he ht
    obtain ⟨hs', hd'⟩ := ih hs hrest
    exact ⟨hs', by rw [List.foldl_cons, hd', hd, List.map_cons, List.sum_cons, add_assoc]⟩

/-- Multiplying a term by a settled expression adds the degrees. -/
theorem Settled.times {t : Term} {e : Expr} (ht : t.Settled x) (he : e.Settled x) :
    (t.times e).Settled x ∧ (t.times e).degree x = t.degree x + e.degree x := by
  induction he generalizing t with
  | number hq =>
    obtain ⟨c, hc⟩ := ht.coefficient
    exact ⟨⟨⟨_, Number.toRat?_mul hc hq⟩, ht.factors⟩, rfl⟩
  | var => exact ht.append ⟨.var, by rw [Expr.degree_var_self]⟩
  | sum h hd => exact ht.append ⟨.sum h hd, hd⟩
  | @product es h hz hd ih =>
    rw [Term.times, timesAll_eq_foldl, Expr.degree_product]
    exact ht.foldl_times ih
  | neg ha hd ih =>
    obtain ⟨c, hc⟩ := ht.coefficient
    exact ih (t := ⟨-t.coefficient, t.factors⟩) ⟨⟨_, Number.toRat?_neg hc⟩, ht.factors⟩
  | power hb hd hk =>
    have hp : (Expr.power _ (.int _)).Settled x := .power hb hd hk
    exact ht.append ⟨hp, by
      rw [Expr.degree_power]
      exact Nat.mul_pos (by omega) hd⟩

/-- The term of a settled expression is settled, and has the same degree. -/
theorem settled_ofExpr {e : Expr} (he : e.Settled x) :
    (ofExpr e).Settled x ∧ (ofExpr e).degree x = e.degree x := by
  obtain ⟨hs, hd⟩ := Settled.times (t := ⟨1, []⟩) ⟨⟨1, rfl⟩, by simp⟩ he
  exact ⟨hs, hd.trans (zero_add _)⟩

/-- A term that is not zero is written with its degree. -/
theorem degree_toExpr {t : Term} (hz : t.coefficient.isZero = false) :
    t.toExpr.degree x = t.degree x := by
  rw [toExpr, degree]
  split_ifs with hnum
  · rw [hz, Bool.or_false, List.isEmpty_iff] at hnum
    rw [hnum]
    rfl
  · exact Expr.degree_productOf _
  · exact Expr.degree_productOf _
  · rw [Expr.degree_productOf, List.map_cons, List.sum_cons, Expr.degree_number, zero_add]

/-- A term is written without a higher degree, also when it is zero. -/
theorem degree_toExpr_le (t : Term) : t.toExpr.degree x ≤ t.degree x := by
  by_cases hz : t.coefficient.isZero = true
  · rw [toExpr, hz, Bool.or_true, if_pos rfl]
    exact Nat.zero_le _
  · exact (degree_toExpr (by simpa using hz)).le

/-- A settled term is written as a settled expression. -/
theorem Settled.toExpr {t : Term} (ht : t.Settled x) : t.toExpr.Settled x := by
  obtain ⟨q, hq⟩ := ht.coefficient
  rw [Term.toExpr]
  split_ifs with hnum hone hneg
  · exact .number hq
  all_goals
    obtain ⟨hne, hz⟩ := not_or.mp (fun h => hnum ((Bool.or_eq_true _ _).mpr h))
    have hdeg : 1 ≤ (Expr.productOf t.factors).degree x := by
      rw [Expr.degree_productOf]
      obtain ⟨f, hf⟩ := List.exists_mem_of_ne_nil _ (fun h => hne (List.isEmpty_iff.mpr h))
      exact (ht.factors f hf).2.trans
        (List.single_le_sum (fun _ _ => Nat.zero_le _) _ (List.mem_map_of_mem hf))
    have hfs : ∀ f ∈ t.factors, f.Settled x := fun f hf => (ht.factors f hf).1
    have hfz : ∀ f ∈ t.factors, f.isZero = false := fun f hf => (ht.factors f hf).isZero_eq_false
  · exact Expr.settled_productOf hfs hfz hdeg
  · exact .neg (Expr.settled_productOf hfs hfz hdeg) hdeg
  · refine Expr.settled_productOf (List.forall_mem_cons.mpr ⟨.number hq, hfs⟩)
      (List.forall_mem_cons.mpr ⟨by simpa [Expr.isZero] using hz, hfz⟩) ?_
    rwa [Expr.degree_productOf, List.map_cons, List.sum_cons, Expr.degree_number, zero_add,
      ← Expr.degree_productOf]

end Term

namespace Folding

open SymbolicAlgebra.Expr (Active Settles)

/-! ## Sums -/

/-- The terms of a settled expression are settled, and none has a higher degree. -/
theorem settled_of_mem_flattenSum {e t : Expr} (he : e.Settled x) (ht : t ∈ flattenSum e) :
    t.Settled x ∧ t.degree x ≤ e.degree x := by
  have hself : ∀ {e t : Expr}, e.Settled x → t ∈ [e] → t.Settled x ∧ t.degree x ≤ e.degree x := by
    intro e t he ht
    rw [List.mem_singleton.mp ht]
    exact ⟨he, le_rfl⟩
  induction he generalizing t with
  | sum h hd ih =>
    rw [flattenSum, flattenSums_eq_flatMap] at ht
    obtain ⟨a, ha, ht⟩ := List.mem_flatMap.mp ht
    obtain ⟨hs, hle⟩ := ih a ha ht
    exact ⟨hs, hle.trans (Expr.degree_le_degree_sum ha)⟩
  | number h => exact hself (.number h) ht
  | var => exact hself .var ht
  | product h hz hd => exact hself (.product h hz hd) ht
  | neg ha hd => exact hself (.neg ha hd) ht
  | power hb hd hk => exact hself (.power hb hd hk) ht

/-- The constant is exact; the groups are settled, have factors, and none has a degree above `d`. -/
structure Collected.Settled (x : String) (d : ℕ) (c : Collected) : Prop where
  constant : ∃ q, c.constant.toRat? = some q
  groups : ∀ g ∈ c.groups, g.Settled x ∧ g.factors ≠ [] ∧ g.degree x ≤ d

/-- Adding to the like term keeps all terms settled and below a degree. -/
theorem settled_addLike {gs : List Term} {t : Term} {d : ℕ}
    (hgs : ∀ g ∈ gs, g.Settled x ∧ g.factors ≠ [] ∧ g.degree x ≤ d)
    (ht : t.Settled x ∧ t.factors ≠ [] ∧ t.degree x ≤ d) :
    ∀ g ∈ addLike gs t, g.Settled x ∧ g.factors ≠ [] ∧ g.degree x ≤ d := by
  induction gs with
  | nil => exact List.forall_mem_singleton.mpr ht
  | cons g gs ih =>
    obtain ⟨hg, hrest⟩ := List.forall_mem_cons.mp hgs
    rw [addLike]
    split_ifs
    · obtain ⟨p, hp⟩ := hg.1.coefficient
      obtain ⟨q, hq⟩ := ht.1.coefficient
      exact List.forall_mem_cons.mpr ⟨⟨⟨⟨_, Number.toRat?_add hp hq⟩, hg.1.factors⟩, hg.2⟩, hrest⟩
    · exact List.forall_mem_cons.mpr ⟨hg, ih hrest⟩

/-- Adding a term keeps a collection settled and below a degree. -/
theorem Collected.Settled.add {c : Collected} {t : Term} {d : ℕ} (hc : c.Settled x d)
    (ht : t.Settled x) (hd : t.degree x ≤ d) : (c.add t).Settled x d := by
  rw [Collected.add]
  split_ifs with hnil
  · obtain ⟨p, hp⟩ := hc.constant
    obtain ⟨q, hq⟩ := ht.coefficient
    exact ⟨⟨_, Number.toRat?_add hp hq⟩, hc.groups⟩
  · have hne : t.factors ≠ [] := fun h => hnil (List.isEmpty_iff.mpr h)
    exact ⟨hc.constant, settled_addLike hc.groups ⟨ht, hne, hd⟩⟩

/-- Collecting settled terms below a degree keeps the collection so. -/
theorem Collected.Settled.foldl_add {c : Collected} {ts : List Term} {d : ℕ} (hc : c.Settled x d)
    (hts : ∀ t ∈ ts, t.Settled x ∧ t.degree x ≤ d) : (ts.foldl Collected.add c).Settled x d := by
  induction ts generalizing c with
  | nil => exact hc
  | cons t ts ih =>
    obtain ⟨ht, hrest⟩ := List.forall_mem_cons.mp hts
    exact ih (hc.add ht.1 ht.2) hrest

/-- The terms that come of a collection are settled; all but the constant have positive degrees. -/
theorem Collected.Settled.toTerms {c : Collected} {d : ℕ} (hc : c.Settled x d) :
    (∀ e ∈ c.toTerms, e.Settled x ∧ e.degree x ≤ d) ∧
      (2 ≤ c.toTerms.length → ∃ e ∈ c.toTerms, 1 ≤ e.degree x) := by
  obtain ⟨q, hq⟩ := hc.constant
  have hgroups : ∀ e ∈ (c.groups.filter fun t => !t.coefficient.isZero).map Term.toExpr,
      e.Active x ∧ e.degree x ≤ d := by
    intro e he
    obtain ⟨g, hg, rfl⟩ := List.mem_map.mp he
    obtain ⟨hg, hz⟩ := List.mem_filter.mp hg
    obtain ⟨hs, hne, hle⟩ := hc.groups g hg
    have hz : g.coefficient.isZero = false := by simpa using hz
    obtain ⟨f, hf⟩ := List.exists_mem_of_ne_nil _ hne
    have hpos : 1 ≤ g.degree x := (hs.factors f hf).2.trans
      (List.single_le_sum (fun _ _ => Nat.zero_le _) _ (List.mem_map_of_mem hf))
    rw [Active, Term.degree_toExpr hz]
    exact ⟨⟨hs.toExpr, hpos⟩, hle⟩
  rw [Collected.toTerms]
  constructor
  · intro e he
    rcases List.mem_append.mp he with he | he
    · exact ⟨(hgroups e he).1.1, (hgroups e he).2⟩
    · split_ifs at he
      · exact absurd he List.not_mem_nil
      · rw [List.mem_singleton.mp he]
        exact ⟨.number hq, Nat.zero_le d⟩
  · -- The constant is one term at most, so that one of two terms is a group.
    intro hlen
    cases hmap : (c.groups.filter fun t => !t.coefficient.isZero).map Term.toExpr with
    | nil =>
      rw [hmap] at hlen
      split_ifs at hlen <;> simp at hlen
    | cons e es =>
      rw [hmap] at hgroups
      exact ⟨e, by simp, (hgroups e (by simp)).1.2⟩

/-- Folding a sum of settled terms settles it. -/
theorem foldSum_settles {es : List Expr} (h : ∀ e ∈ es, e.Settled x) :
    (foldSum (.sum es)).Settles x (.sum es) := by
  have hterms : ∀ t ∈ (flattenSum (.sum es)).map Term.ofExpr,
      t.Settled x ∧ t.degree x ≤ (Expr.sum es).degree x := by
    intro t ht
    obtain ⟨a, ha, rfl⟩ := List.mem_map.mp ht
    rw [flattenSum, flattenSums_eq_flatMap] at ha
    obtain ⟨e, he, ha⟩ := List.mem_flatMap.mp ha
    obtain ⟨hs, hle⟩ := settled_of_mem_flattenSum (h e he) ha
    obtain ⟨hts, htd⟩ := Term.settled_ofExpr hs
    exact ⟨hts, htd.trans_le (hle.trans (Expr.degree_le_degree_sum he))⟩
  have hempty : Collected.Settled x ((Expr.sum es).degree x) ⟨0, []⟩ := ⟨⟨0, rfl⟩, by simp⟩
  obtain ⟨hs, hpos⟩ := (hempty.foldl_add hterms).toTerms
  exact ⟨Expr.settled_sumOf (fun e he => (hs e he).1) hpos,
    Expr.degree_sumOf_le fun e he => (hs e he).2, foldSum_refines _⟩

/-! ## Products -/

/-- The base is settled and has a positive degree, and the exponents are positive. -/
structure PowerGroup.Settled (x : String) (g : PowerGroup) : Prop where
  base : g.base.Active x
  exponents : ∃ ks : List ℤ, g.exponents = ks.map .int ∧ ks ≠ [] ∧ ∀ k ∈ ks, 1 ≤ k

/-- The degree of the product of all powers of the base. -/
def PowerGroup.degree (x : String) (g : PowerGroup) : ℕ :=
  (g.exponents.map fun k => (k.toInt?.getD 0).toNat).sum * g.base.degree x

/-- The base of a factor is settled, its exponent is positive, and the degree of the power is that
of the factor. -/
theorem settled_baseAndExponent {e : Expr} (he : e.Active x) :
    PowerGroup.Settled x ⟨(baseAndExponent e).1, [(baseAndExponent e).2]⟩ ∧
      PowerGroup.degree x ⟨(baseAndExponent e).1, [(baseAndExponent e).2]⟩ = e.degree x := by
  have hone : ∀ {e : Expr}, e.Active x →
      PowerGroup.Settled x ⟨e, [1]⟩ ∧ PowerGroup.degree x ⟨e, [1]⟩ = e.degree x :=
    fun he => ⟨⟨he, [1], rfl, by simp, by simp⟩, one_mul _⟩
  obtain ⟨hs, hd⟩ := he
  cases hs with
  | @power b k hb hdb hk =>
    exact ⟨⟨⟨hb, hdb⟩, [k], rfl, by simp, by simpa using hk⟩, by
      rw [PowerGroup.degree, Expr.degree_power]
      rfl⟩
  | number h => exact hone ⟨.number h, hd⟩
  | var => exact hone ⟨.var, hd⟩
  | sum h hds => exact hone ⟨.sum h hds, hd⟩
  | product h hz hdp => exact hone ⟨.product h hz hdp, hd⟩
  | neg ha hda => exact hone ⟨.neg ha hda, hd⟩

/-- Adding a power to its group adds the degrees. -/
theorem settled_addPower {gs : List PowerGroup} {b k : Expr} (hgs : ∀ g ∈ gs, g.Settled x)
    (hp : PowerGroup.Settled x ⟨b, [k]⟩) :
    (∀ g ∈ addPower gs (b, k), g.Settled x) ∧
      ((addPower gs (b, k)).map (PowerGroup.degree x)).sum
        = (gs.map (PowerGroup.degree x)).sum + PowerGroup.degree x ⟨b, [k]⟩ := by
  induction gs with
  | nil => exact ⟨List.forall_mem_singleton.mpr hp, by simp [addPower]⟩
  | cons g gs ih =>
    obtain ⟨hg, hrest⟩ := List.forall_mem_cons.mp hgs
    rw [addPower]
    split_ifs with hsame
    · obtain rfl : g.base = b := (hg.base.1.setFree.beq_iff b).mp hsame
      obtain ⟨ks, hks, hne, hpos⟩ := hg.exponents
      obtain ⟨ls, hls, -, hpos'⟩ := hp.exponents
      constructor
      · refine List.forall_mem_cons.mpr ⟨⟨hg.base, ks ++ ls, by simp [hks, ← hls], by simp [hne], ?_⟩,
          hrest⟩
        exact List.forall_mem_append.mpr ⟨hpos, hpos'⟩
      · simp only [List.map_cons, List.sum_cons, PowerGroup.degree, List.map_append,
          List.sum_append, List.map_nil, List.sum_nil]
        ring
    · obtain ⟨hs, hd⟩ := ih hrest
      refine ⟨List.forall_mem_cons.mpr ⟨hg, hs⟩, ?_⟩
      rw [List.map_cons, List.sum_cons, hd, List.map_cons, List.sum_cons, add_assoc]

/-- Grouping powers keeps the groups settled and adds the degrees. -/
theorem settled_foldl_addPower {es : List Expr} {gs : List PowerGroup}
    (hes : ∀ e ∈ es, e.Active x) (hgs : ∀ g ∈ gs, g.Settled x) :
    (∀ g ∈ (es.map baseAndExponent).foldl addPower gs, g.Settled x) ∧
      (((es.map baseAndExponent).foldl addPower gs).map (PowerGroup.degree x)).sum
        = (gs.map (PowerGroup.degree x)).sum + (es.map (Expr.degree x)).sum := by
  induction es generalizing gs with
  | nil => exact ⟨hgs, rfl⟩
  | cons e es ih =>
    obtain ⟨he, hrest⟩ := List.forall_mem_cons.mp hes
    obtain ⟨hp, hpd⟩ := settled_baseAndExponent he
    obtain ⟨hadd, haddd⟩ := settled_addPower hgs hp
    obtain ⟨hs, hd⟩ := ih hrest hadd
    refine ⟨hs, ?_⟩
    rw [List.map_cons, List.foldl_cons, hd, haddd, hpd, List.map_cons, List.sum_cons, add_assoc]

/-- Each group is written as a factor with its degree. -/
theorem PowerGroup.Settled.toFactor? {g : PowerGroup} (hg : g.Settled x) :
    ∃ f, g.toFactor? = some f ∧ f.Active x ∧ f.degree x = g.degree x := by
  obtain ⟨ks, hks, hne, hpos⟩ := hg.exponents
  have hsum : 1 ≤ ks.sum := by
    obtain ⟨k, hk⟩ := List.exists_mem_of_ne_nil _ hne
    exact (hpos k hk).trans
      (List.single_le_sum (fun l hl => le_trans zero_le_one (hpos l hl)) k hk)
  have hnat : (ks.map Int.toNat).sum = ks.sum.toNat := by
    clear hks hne hsum
    induction ks with
    | nil => rfl
    | cons k ks ih =>
      obtain ⟨hk, hrest⟩ := List.forall_mem_cons.mp hpos
      have hnonneg : 0 ≤ ks.sum := List.sum_nonneg fun l hl => le_trans zero_le_one (hrest l hl)
      rw [List.map_cons, List.sum_cons, ih hrest, List.sum_cons]
      omega
  have hdeg : g.degree x = ks.sum.toNat * g.base.degree x := by
    rw [PowerGroup.degree, hks, List.map_map, ← hnat]
    rfl
  have hzero : (Expr.int ks.sum).isZero = false := by
    simpa [Expr.int, Expr.isZero, Number.isZero] using (by omega : ks.sum ≠ 0)
  rw [PowerGroup.toFactor?_eq hks, hzero, hdeg, if_neg Bool.false_ne_true]
  -- The exponent one is not written.
  by_cases hone : (Expr.int ks.sum).isOne = true
  · have h1 : ks.sum = 1 :=
      Int.cast_eq_one.mp ((Number.isOne_iff (Number.toRat?_int ks.sum)).mp hone)
    rw [if_pos hone]
    exact ⟨_, rfl, hg.base, by rw [h1]; exact (one_mul _).symm⟩
  · rw [if_neg hone]
    refine ⟨_, rfl, ⟨.power hg.base.1 hg.base.2 hsum, ?_⟩, Expr.degree_power _ _⟩
    rw [Expr.degree_power]
    exact Nat.mul_pos (by omega) hg.base.2

/-- Merging powers keeps the factors settled and the sum of their degrees. -/
theorem settled_mergePowers {es : List Expr} (hes : ∀ e ∈ es, e.Active x) :
    (∀ e ∈ mergePowers es, e.Active x) ∧
      ((mergePowers es).map (Expr.degree x)).sum = (es.map (Expr.degree x)).sum := by
  have hwrite : ∀ {gs : List PowerGroup}, (∀ g ∈ gs, g.Settled x) →
      (∀ e ∈ gs.filterMap PowerGroup.toFactor?, e.Active x) ∧
        ((gs.filterMap PowerGroup.toFactor?).map (Expr.degree x)).sum
          = (gs.map (PowerGroup.degree x)).sum := by
    intro gs hgs
    induction gs with
    | nil => simp
    | cons g gs ih =>
      obtain ⟨hg, hrest⟩ := List.forall_mem_cons.mp hgs
      obtain ⟨f, hf, hs, hd⟩ := hg.toFactor?
      obtain ⟨hss, hds⟩ := ih hrest
      rw [List.filterMap_cons_some hf]
      refine ⟨List.forall_mem_cons.mpr ⟨hs, hss⟩, ?_⟩
      rw [List.map_cons, List.sum_cons, hds, hd, List.map_cons, List.sum_cons]
  have hnil : ∀ g ∈ ([] : List PowerGroup), g.Settled x := by simp
  obtain ⟨hgs, hgd⟩ := settled_foldl_addPower hes hnil
  obtain ⟨hs, hd⟩ := hwrite hgs
  exact ⟨hs, hd.trans (hgd.trans (zero_add _))⟩

/-- Folding a product of settled factors settles it. -/
theorem foldProduct_settles {es : List Expr} (h : ∀ e ∈ es, e.Settled x) :
    (foldProduct (.product es)).Settles x (.product es) := by
  have hempty : Term.Settled x ⟨1, []⟩ := ⟨⟨1, rfl⟩, by simp⟩
  have hof : Term.ofExpr (.product es) = es.foldl Term.times ⟨1, []⟩ := by
    rw [Term.ofExpr, Term.times, Term.timesAll_eq_foldl]
  -- The product itself may have the degree zero, so that it need not be settled.
  obtain ⟨hs, hd⟩ := hempty.foldl_times fun e he _ ht => ht.times (h e he)
  rw [← hof] at hs hd
  obtain ⟨hm, hmd⟩ := settled_mergePowers hs.factors
  have hfold : (foldProduct (.product es)).Settled x ∧
      (foldProduct (.product es)).degree x ≤ (Expr.product es).degree x := by
    rw [foldProduct]
    split_ifs
    · exact ⟨.int 0, Nat.zero_le _⟩
    · refine ⟨Term.Settled.toExpr ⟨hs.coefficient, hm⟩, (Term.degree_toExpr_le _).trans ?_⟩
      rw [Expr.degree_product, ← zero_add (es.map _).sum]
      exact (hmd.trans hd).le
  exact ⟨hfold.1, hfold.2, foldProduct_refines _⟩

/-! ## Powers -/

/-- A power of an exact number with a small exponent is computed. -/
theorem foldNumericPower?_of_le {m : Number} {p : ℚ} {k : ℤ} (hm : m.toRat? = some p) (h0 : 0 ≤ k)
    (hk : k ≤ maxDegree) : foldNumericPower? m (.int k) = some (.ofRat (p ^ k)) := by
  refine foldNumericPower?_of_abs_le hm ?_ fun _ => h0
  have hk : k ≤ 16 := hk
  rw [abs_of_nonneg h0, maxFoldedExponent]
  omega

/-- Folding a power of a settled base settles it. -/
theorem foldPower_settles {b : Expr} {k : ℤ} (hb : b.Settled x) (h0 : 0 ≤ k) (hk : k ≤ maxDegree) :
    (foldPower (.power b (.int k))).Settles x (.power b (.int k)) := by
  have hk' : k ≤ 16 := hk
  have hzero : (Expr.int k).isZero = true ↔ k = 0 :=
    (Number.isZero_iff (Number.toRat?_int k)).trans Int.cast_eq_zero
  have hone : (Expr.int k).isOne = true ↔ k = 1 :=
    (Number.isOne_iff (Number.toRat?_int k)).trans Int.cast_eq_one
  -- Exponents within the limit on the degree are far from the least word.
  have hover : overflows (.power b (.int k)) = false := by
    cases b with
    | number m => simpa [overflows, Expr.int] using fun _ _ => (by omega : k ≠ -9223372036854775808)
    | _ => rfl
  suffices h : (foldPower (.power b (.int k))).Settled x ∧
      (foldPower (.power b (.int k))).degree x ≤ (Expr.power b (.int k)).degree x from
    ⟨h.1, h.2, foldPower_refines hover⟩
  rw [Expr.degree_power]
  cases hnum : b.toNumber? with
  | some m =>
    obtain rfl := Expr.eq_number_of_toNumber? hnum
    obtain ⟨p, hm⟩ := (hb.defined fun _ => 0).exists_toRat?
    rw [foldPower_number, foldNumericPower?_of_le hm h0 hk]
    split_ifs
    · exact ⟨.int 1, Nat.zero_le _⟩
    · exact ⟨hb, Nat.zero_le _⟩
    · exact ⟨.number (Number.toRat?_ofRat _), Nat.zero_le _⟩
  | none =>
    have hact : b.Active x := by
      refine ⟨hb, ?_⟩
      obtain ⟨n, q, rfl, -⟩ | hpos := hb.eq_number_or_degree_pos
      · simp [Expr.toNumber?] at hnum
      · exact hpos
    rw [foldPower_of_toNumber?_eq_none hnum]
    split_ifs with h1 h2
    · exact ⟨.int 1, Nat.zero_le _⟩
    · rw [hone.mp h2]
      exact ⟨hb, (one_mul _).ge⟩
    · have hk1 : 1 ≤ k := by
        have : k ≠ 0 := fun h => h1 (by rw [hzero.mpr h, Bool.true_or])
        omega
      -- Only in a power are two exponents merged; other bases stay below the one exponent.
      cases hact.1 with
      | @power a j ha hda hj =>
        have hjk : 1 ≤ j * k := by nlinarith
        refine ⟨.power ha hda hjk, ?_⟩
        have hnat : (j * k).toNat = k.toNat * j.toNat := by
          rw [Int.toNat_mul (by omega) (by omega), Nat.mul_comm]
        rw [Expr.degree_power, ← Nat.mul_assoc, ← hnat]
        exact le_rfl
      | number h => simp [Expr.toNumber?] at hnum
      | var => exact ⟨.power .var hact.2 hk1, le_rfl⟩
      | sum h hd => exact ⟨.power (.sum h hd) hact.2 hk1, le_rfl⟩
      | product h hz hd => exact ⟨.power (.product h hz hd) hact.2 hk1, le_rfl⟩
      | neg ha hd => exact ⟨.power (.neg ha hd) hact.2 hk1, le_rfl⟩

/-! ## Signs and quotients -/

/-- Folding a sign of a settled expression settles it. -/
theorem foldNeg_settles {a : Expr} (ha : a.Settled x) :
    (foldNeg (.neg a)).Settles x (.neg a) := by
  have hterm : (Term.ofExpr (.neg a)).toExpr.Settled x ∧
      (Term.ofExpr (.neg a)).toExpr.degree x ≤ a.degree x := by
    have hminus : Term.Settled x ⟨-1, []⟩ := ⟨⟨-1, rfl⟩, by simp⟩
    obtain ⟨hs, hd⟩ := hminus.times ha
    exact ⟨hs.toExpr, (Term.degree_toExpr_le _).trans (hd.trans (zero_add _)).le⟩
  suffices h : (foldNeg (.neg a)).Settled x ∧ (foldNeg (.neg a)).degree x ≤ a.degree x from
    ⟨h.1, h.2, foldNeg_refines _⟩
  cases ha with
  | neg ha hd => exact ⟨ha, le_rfl⟩
  | _ => exact hterm

/-- Folding a quotient of a settled expression by a number other than zero settles it. -/
theorem foldDiv_settles {a : Expr} {n : Number} {q : ℚ} (ha : a.Settled x) (hn : n.toRat? = some q)
    (hq : q ≠ 0) : (foldDiv (.div a (.number n))).Settles x (.div a (.number n)) := by
  suffices h : (foldDiv (.div a (.number n))).Settled x ∧
      (foldDiv (.div a (.number n))).degree x ≤ a.degree x from
    ⟨h.1, h.2, foldDiv_refines _⟩
  obtain ⟨hs, hd⟩ := Term.settled_ofExpr ha
  obtain ⟨c, hc⟩ := hs.coefficient
  rw [foldDiv_number]
  split_ifs with hone hzero
  · exact ⟨ha, le_rfl⟩
  · exact absurd ((Number.isZero_iff hn).mp hzero) hq
  · exact ⟨Term.Settled.toExpr ⟨⟨_, Number.toRat?_div hc hn hq⟩, hs.factors⟩,
      (Term.degree_toExpr_le _).trans hd.le⟩

end Folding

end SymbolicAlgebra
