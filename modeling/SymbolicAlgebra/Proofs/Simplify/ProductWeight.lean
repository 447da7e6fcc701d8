import SymbolicAlgebra.Proofs.Simplify.Folding
import SymbolicAlgebra.Proofs.Simplify.TermWeight

/-!
# Folding products, powers, signs and quotients makes them lighter

Each of these patterns gives a rational node back as it is, or makes it lighter. The factors of a
product are merged by their bases; a power that is in the end left out is counted as a literal one
until then, so that every merge takes some weight away.
-/

namespace SymbolicAlgebra

open SymbolicAlgebra.Expr

namespace Folding

variable {a b e f : Expr} {es fs : List Expr} {g : PowerGroup} {gs : List PowerGroup} {k : ℤ}

/-! ## Merging powers -/

namespace PowerGroup

/-- The base is rational, and the exponents are integer literals. -/
structure IsRational (g : PowerGroup) : Prop where
  base : g.base.IsRational
  exponents : ∃ ks : List ℤ, g.exponents = ks.map .int

/-- What is written for a group, with a literal one where nothing is. -/
def power (g : PowerGroup) : Expr := g.toFactor?.getD 1

theorem power_eq {ks : List ℤ} (hks : g.exponents = ks.map .int) :
    g.power = if ks.sum = 0 then 1 else if ks.sum = 1 then g.base
      else .power g.base (.int ks.sum) := by
  have hzero : (Expr.int ks.sum).isZero = true ↔ ks.sum = 0 := by
    rw [Expr.int, Expr.isZero, Number.isZero_iff (Number.toRat?_int _), Int.cast_eq_zero]
  have hone : (Expr.int ks.sum).isOne = true ↔ ks.sum = 1 := by
    rw [Expr.int, Expr.isOne, Number.isOne_iff (Number.toRat?_int _), Int.cast_eq_one]
  simp only [power, toFactor?_eq hks, hzero, hone]
  split_ifs <;> rfl

theorem IsRational.power (hg : g.IsRational) : g.power.IsRational := by
  obtain ⟨ks, hks⟩ := hg.exponents
  rw [power_eq hks]
  split_ifs
  · exact isRational_one
  · exact hg.base
  · exact .power hg.base trivial

/-- What is written is not heavier than a power of the base. -/
theorem IsRational.factorWeight_power_le (hg : g.IsRational) :
    g.power.factorWeight ≤ 6 + g.base.weight := by
  obtain ⟨ks, hks⟩ := hg.exponents
  rw [power_eq hks]
  split_ifs
  · exact (by decide : factorWeight 1 ≤ 6).trans (Nat.le_add_right _ _)
  · have := g.base.factorWeight_le
    omega
  · exact le_rfl

end PowerGroup

/-- A factor is a power with an integer literal, or it is its own base with the exponent one. -/
theorem exists_baseAndExponent (hf : f.IsFactor) : ∃ b k, baseAndExponent f = (b, .int k) ∧
    b.IsRational ∧ (f = .power b (.int k) ∨ f = b ∧ k = 1) := by
  obtain ⟨hr, hl, hs⟩ := hf
  cases hr with
  | power hb hk => exact ⟨_, _, rfl, hb, .inl rfl⟩
  | number => simp [isLiteral, toNumber?] at hl
  | product => simp [isSigned] at hs
  | neg => simp [isSigned] at hs
  | var v => exact ⟨_, 1, rfl, .var v, .inr ⟨rfl, rfl⟩⟩
  | sum h => exact ⟨_, 1, rfl, .sum h, .inr ⟨rfl, rfl⟩⟩
  | div ha hb => exact ⟨_, 1, rfl, .div ha hb, .inr ⟨rfl, rfl⟩⟩

/-- A merged power is lighter than the power it is merged with and the new one together. -/
theorem factorWeight_power_append_lt (hg : g.IsRational) (hf : f.IsFactor)
    (hform : f = .power g.base (.int k) ∨ f = g.base ∧ k = 1) :
    (PowerGroup.power ⟨g.base, g.exponents ++ [.int k]⟩).factorWeight
      < g.power.factorWeight + f.factorWeight := by
  obtain ⟨ks, hks⟩ := hg.exponents
  have happend : g.exponents ++ [.int k] = (ks ++ [k]).map .int := by
    rw [hks, List.map_append]
    rfl
  have hmerged : PowerGroup.IsRational ⟨g.base, g.exponents ++ [.int k]⟩ :=
    ⟨hg.base, ks ++ [k], happend⟩
  have hle : (PowerGroup.power ⟨g.base, g.exponents ++ [.int k]⟩).factorWeight
      ≤ 6 + g.base.weight := hmerged.factorWeight_power_le
  rcases hform with rfl | ⟨rfl, rfl⟩
  · have hthree := hg.power.three_le_weight
    have hpower : factorWeight (.power g.base (.int k)) = 6 + g.base.weight := rfl
    unfold factorWeight at *
    omega
  · have hnine := hf.nine_le_weight
    have hbase := hf.factorWeight_eq
    by_cases hzero : ks.sum = 0
    · -- The base comes back, but the one that stood for it is gone.
      have hone : (ks ++ [1]).sum = 1 := by rw [List.sum_append, hzero]; rfl
      rw [PowerGroup.power_eq happend, PowerGroup.power_eq hks, hone, if_neg one_ne_zero,
        if_pos rfl, if_pos hzero]
      exact Nat.lt_add_of_pos_left (by decide)
    · have hpower : g.base.weight ≤ g.power.factorWeight := by
        rw [PowerGroup.power_eq hks, if_neg hzero]
        split_ifs
        · exact hbase.ge
        · exact Nat.le_add_left g.base.weight 6
      omega

/-- A power is put at the end, or is merged with one of the same base. -/
theorem addPower_spec (hgs : ∀ g ∈ gs, g.IsRational) (hf : f.IsFactor) :
    (∀ g ∈ addPower gs (baseAndExponent f), g.IsRational) ∧
      EqOrLess (total factorWeight) ((addPower gs (baseAndExponent f)).map PowerGroup.power)
        (gs.map PowerGroup.power ++ [f]) := by
  obtain ⟨b, k, hbase, hb, hform⟩ := exists_baseAndExponent hf
  rw [hbase]
  induction gs with
  | nil =>
    have hexponents : (PowerGroup.mk b [.int k]).exponents = [k].map .int := rfl
    have hg : PowerGroup.IsRational ⟨b, [.int k]⟩ := ⟨hb, [k], hexponents⟩
    refine ⟨List.forall_mem_singleton.mpr hg, EqOrLess.singleton ?_⟩
    rw [PowerGroup.power_eq hexponents, List.sum_singleton, EqOrLess]
    rcases hform with rfl | ⟨rfl, rfl⟩
    · have hpower : factorWeight (.power b (.int k)) = 6 + b.weight := rfl
      split_ifs
      · have hone : factorWeight 1 = 4 := rfl
        exact .inr (by omega)
      · refine .inr (b.factorWeight_le.trans_lt ?_)
        omega
      · exact .inl rfl
    · exact .inl rfl
  | cons g gs ih =>
    obtain ⟨hg, hrest⟩ := List.forall_mem_cons.mp hgs
    rw [addPower]
    split_ifs with hsame
    · obtain rfl : g.base = b := (hg.base.setFree.beq_iff b).mp hsame
      obtain ⟨ks, hks⟩ := hg.exponents
      have hmerged : PowerGroup.IsRational ⟨g.base, g.exponents ++ [.int k]⟩ :=
        ⟨hg.base, ks ++ [k], by rw [hks, List.map_append]; rfl⟩
      refine ⟨List.forall_mem_cons.mpr ⟨hmerged, hrest⟩, .inr ?_⟩
      -- Two powers of one base become one, which saves a base.
      have hlt := factorWeight_power_append_lt hg hf hform
      simp only [List.map_cons, List.cons_append, total_cons, total_append, total_nil]
      omega
    · obtain ⟨hadded, hw⟩ := ih hrest
      exact ⟨List.forall_mem_cons.mpr ⟨hg, hadded⟩, hw.cons g.power⟩

/-- Factors are merged one after the other. -/
theorem foldl_addPower_spec (hgs : ∀ g ∈ gs, g.IsRational) (hfs : ∀ f ∈ fs, f.IsFactor) :
    (∀ g ∈ (fs.map baseAndExponent).foldl addPower gs, g.IsRational) ∧
      EqOrLess (total factorWeight)
        (((fs.map baseAndExponent).foldl addPower gs).map PowerGroup.power)
        (gs.map PowerGroup.power ++ fs) := by
  induction fs generalizing gs with
  | nil =>
    rw [List.append_nil]
    exact ⟨hgs, .refl _⟩
  | cons f fs ih =>
    obtain ⟨hf, hfs⟩ := List.forall_mem_cons.mp hfs
    obtain ⟨hadded, hw⟩ := addPower_spec hgs hf
    obtain ⟨hall, hwall⟩ := ih hadded hfs
    have happend := hw.append (.refl fs)
    rw [List.append_assoc] at happend
    exact ⟨hall, hwall.trans happend⟩

/-- The merged factors are rational, and the same or lighter. -/
theorem mergePowers_spec (hfs : ∀ f ∈ fs, f.IsFactor) :
    (∀ f ∈ mergePowers fs, f.IsRational) ∧
      EqOrLess (total factorWeight) (mergePowers fs) fs := by
  have hnil : ∀ g ∈ ([] : List PowerGroup), g.IsRational := by simp
  obtain ⟨hgs, hw⟩ := foldl_addPower_spec hnil hfs
  rw [mergePowers]
  generalize (fs.map baseAndExponent).foldl addPower [] = gs at *
  refine ⟨fun f hf => ?_, EqOrLess.trans ?_ hw⟩
  · obtain ⟨g, hg, hfactor⟩ := List.mem_filterMap.mp hf
    have hpower := (hgs g hg).power
    rwa [PowerGroup.power, hfactor] at hpower
  · clear hw hgs
    -- Groups with the exponent zero are dropped.
    induction gs with
    | nil => exact .refl _
    | cons g gs ih =>
      cases hfactor : g.toFactor? with
      | none =>
        rw [List.filterMap_cons_none hfactor]
        refine ih.trans (.inr ?_)
        rw [List.map_cons, total_cons, PowerGroup.power, hfactor]
        exact Nat.lt_add_of_pos_left (by decide)
      | some f =>
        rw [List.filterMap_cons_some hfactor, List.map_cons, PowerGroup.power, hfactor]
        exact ih.cons f

/-! ## Products and signs -/

/-- Products and signs are written as terms, which gives them back or makes them lighter. -/
theorem toExpr_ofExpr_eqOrLighter (he : e.IsRational) (hs : e.isSigned = true) :
    (Term.ofExpr e).toExpr.IsRational ∧ EqOrLighter (Term.ofExpr e).toExpr e := by
  obtain ⟨r, fs, hr⟩ := he.exists_readsAs
  have hfive : 5 ≤ e.weight := by
    cases he with
    | product => rw [weight_product]; omega
    | neg ha =>
      have := IsRational.three_le_weight ha
      rw [weight_neg]
      omega
    | _ => simp [isSigned] at hs
  have hw := toExpr_ofExpr he
  rw [hr.ofExpr_eq] at hw ⊢
  refine ⟨isRational_toExpr r fun f hf => (hr.factors f hf).rational, hw.imp_right fun hlt => ?_⟩
  by_cases hnumber : fs = [] ∨ r = 0
  · rw [toExpr_ofRat, if_pos hnumber]
    exact .of_succ_lt (by rw [weight_number, literalWeight_ofRat]; omega)
  · obtain ⟨hne, hzero⟩ := not_or.mp hnumber
    refine ⟨?_, ?_⟩
    · rw [isLiteral_toExpr hzero hr.factors hne]
      exact hlt
    · have := (Term.toExpr ⟨.ofRat r, fs⟩).isSigned.toNat_le
      rw [hs, Bool.toNat_true]
      omega

/-- The folded product is rational, and the same or lighter. -/
theorem foldProduct_eqOrLighter (he : e.IsRational) :
    (foldProduct e).IsRational ∧ EqOrLighter (foldProduct e) e := by
  cases he with
  | @product es hes =>
    obtain ⟨r, fs, hread, hfs, hweight⟩ := exists_ofExpr_product hes
    have hproduct := weight_product es
    simp only [foldProduct, hread, Number.isZero_iff (Number.toRat?_ofRat r)]
    split_ifs
    · have hzero : weight 0 = 3 := rfl
      exact ⟨.number (q := 0) rfl, .inr (.of_succ_lt (by omega))⟩
    obtain ⟨hrational, hmerge⟩ := mergePowers_spec hfs
    refine ⟨isRational_toExpr r hrational, ?_⟩
    -- If no powers are merged, the factors are written as they were read.
    rcases hmerge with hmerge | hmerge
    · rw [hmerge, ← hread]
      exact (toExpr_ofExpr_eqOrLighter (.product hes) rfl).2
    · have hle := weight_toExpr_le r (mergePowers fs)
      have hs := (Term.toExpr ⟨.ofRat r, mergePowers fs⟩).isSigned.toNat_le
      have hsigned : (Expr.product es).isSigned.toNat = 1 := rfl
      rw [total_factorWeight hfs] at hmerge
      exact .inr ⟨by omega, by omega⟩
  | number h => exact ⟨.number h, .refl _⟩
  | var v => exact ⟨.var v, .refl _⟩
  | sum h => exact ⟨.sum h, .refl _⟩
  | power hb hk => exact ⟨.power hb hk, .refl _⟩
  | neg ha => exact ⟨.neg ha, .refl _⟩
  | div ha hb => exact ⟨.div ha hb, .refl _⟩

/-- The folded sign is rational, and the same or lighter. -/
theorem foldNeg_eqOrLighter (he : e.IsRational) :
    (foldNeg e).IsRational ∧ EqOrLighter (foldNeg e) e := by
  have hterm := toExpr_ofExpr_eqOrLighter he
  cases he with
  | neg ha =>
    cases ha with
    | neg ha => exact ⟨ha, .inr (.of_succ_lt (by simp only [foldNeg, weight_neg]; omega))⟩
    | _ => exact hterm rfl
  | number h => exact ⟨.number h, .refl _⟩
  | var v => exact ⟨.var v, .refl _⟩
  | sum h => exact ⟨.sum h, .refl _⟩
  | product h => exact ⟨.product h, .refl _⟩
  | power hb hk => exact ⟨.power hb hk, .refl _⟩
  | div ha hb => exact ⟨.div ha hb, .refl _⟩

/-! ## Quotients and powers -/

/-- The folded quotient is rational, and the same or lighter. -/
theorem foldDiv_eqOrLighter (he : e.IsRational) :
    (foldDiv e).IsRational ∧ EqOrLighter (foldDiv e) e := by
  cases he with
  | @div a b ha hb =>
    have hthree := IsRational.three_le_weight hb
    have hdiv := weight_div a b
    have hself : (Expr.div a b).IsRational := .div ha hb
    have hnumerator : Lighter a (.div a b) := .of_succ_lt (by omega)
    cases hnum : b.toNumber? with
    | none =>
      rw [foldDiv_of_toNumber?_eq_none a hnum]
      split_ifs
      · exact ⟨ha, .inr hnumerator⟩
      · have hzero : weight 0 = 3 := rfl
        exact ⟨.number (q := 0) rfl, .inr (.of_succ_lt (by omega))⟩
      · have hone : weight 1 = 3 := rfl
        exact ⟨isRational_one, .inr (.of_succ_lt (by omega))⟩
      · exact ⟨hself, .refl _⟩
    | some d =>
      obtain rfl := Expr.eq_number_of_toNumber? hnum
      cases hb with
      | @number _ q hq =>
        rw [foldDiv_number]
        split_ifs with _ hzero
        · exact ⟨ha, .inr hnumerator⟩
        · exact ⟨hself, .refl _⟩
        · obtain ⟨r, fs, hr⟩ := IsRational.exists_readsAs ha
          have hne : q ≠ 0 := fun h => hzero ((Number.isZero_iff hq).mpr h)
          rw [hr.ofExpr_eq, Number.div_eq (Number.toRat?_ofRat r) hq hne]
          refine ⟨isRational_toExpr _ fun f hf => (hr.factors f hf).rational, .inr ?_⟩
          -- A quotient is heavy enough for a product with a coefficient in its place.
          have hle := weight_toExpr_le (r / q) fs
          have hcoefficient := signWeight_le (r / q)
          have hfactors := hr.weight_le
          rw [total_factorWeight hr.factors] at hle
          change Lighter (Term.toExpr ⟨.ofRat (r / q), fs⟩) _
          exact .of_succ_lt (by omega)
  | number h => exact ⟨.number h, .refl _⟩
  | var v => exact ⟨.var v, .refl _⟩
  | sum h => exact ⟨.sum h, .refl _⟩
  | product h => exact ⟨.product h, .refl _⟩
  | power hb hk => exact ⟨.power hb hk, .refl _⟩
  | neg ha => exact ⟨.neg ha, .refl _⟩

/-- The folded power is rational, and the same or lighter, unless the exponent is the least word. -/
theorem foldPower_eqOrLighter (he : e.IsRational) (ho : overflows e = false) :
    (foldPower e).IsRational ∧ EqOrLighter (foldPower e) e := by
  cases he with
  | @power b k hb hk =>
    have hthree := IsRational.three_le_weight hb
    have hpower := weight_power b (.int k)
    have hself : (Expr.power b (.int k)).IsRational := .power hb trivial
    have hbase : Lighter b (.power b (.int k)) := .of_succ_lt (by omega)
    have hone : Lighter 1 (.power b (.int k)) := .of_succ_lt (by
      have : weight 1 = 3 := rfl
      omega)
    cases hnum : b.toNumber? with
    | none =>
      rw [foldPower_of_toNumber?_eq_none hnum]
      split_ifs
      · exact ⟨isRational_one, .inr hone⟩
      · exact ⟨hb, .inr hbase⟩
      · cases hfold : foldNestedPower? b k with
        | none => exact ⟨hself, .refl _⟩
        | some r =>
          cases hb with
          | @power a j ha hj =>
            -- Two exponents become one.
            obtain rfl : Expr.power a (.int (j * k)) = r := Option.some.inj hfold
            refine ⟨.power ha trivial, .inr (.of_succ_lt ?_)⟩
            simp only [Option.getD_some, weight_power]
            omega
          | _ => simp [foldNestedPower?] at hfold
    | some m =>
      obtain rfl := Expr.eq_number_of_toNumber? hnum
      cases hb with
      | @number _ p hm =>
        rw [foldPower_number]
        split_ifs with htrivial
        · exact ⟨isRational_one, .inr hone⟩
        · exact ⟨.number hm, .inr hbase⟩
        · cases hfold : foldNumericPower? m (.int k) with
          | none => exact ⟨hself, .refl _⟩
          | some r =>
            simp only [Bool.or_eq_true, not_or, Expr.isOne, Bool.not_eq_true] at htrivial
            -- The power is exact, since its exponent is not the least word.
            have hne := ne_least_of_overflows_eq_false hm htrivial.2 ho
            obtain ⟨-, rfl⟩ := foldNumericPower?_eq_some hm hne hfold
            refine ⟨.number (Number.toRat?_ofRat _), .inr (.of_succ_lt ?_)⟩
            rw [Option.elim_some, weight_number, literalWeight_ofRat]
            omega
  | number h => exact ⟨.number h, .refl _⟩
  | var v => exact ⟨.var v, .refl _⟩
  | sum h => exact ⟨.sum h, .refl _⟩
  | product h => exact ⟨.product h, .refl _⟩
  | neg ha => exact ⟨.neg ha, .refl _⟩
  | div ha hb => exact ⟨.div ha hb, .refl _⟩

end Folding

end SymbolicAlgebra
