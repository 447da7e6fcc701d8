import SymbolicAlgebra.Proofs.Simplify.TermForm
import SymbolicAlgebra.Proofs.Simplify.Weight

/-!
# The weight of a term

`Expr.ReadsAs e r fs` says that `e` is read as a term with the coefficient `r` and the factors `fs`.
Writing this term gives the expression back or a lighter one, `Term.toExpr_ofExpr`: signs and
products inside of products, constants behind the first place and constants that are one all make an
expression heavier.
-/

namespace SymbolicAlgebra

namespace Expr

/-! ## Coefficients -/

/-- A literal on its narrowest level weighs three. -/
@[simp]
theorem literalWeight_ofRat (q : ℚ) : literalWeight (.ofRat q) = 3 := by
  rw [literalWeight, Number.downcast_eq (Number.toRat?_ofRat q), if_pos rfl]

/-- What a coefficient adds to the weight of a product: nothing for one, a sign for minus one. -/
def signWeight (q : ℚ) : ℕ := if q = 1 then 0 else if q = -1 then 2 else 3

/-- The coefficient one is not written. -/
theorem signWeight_one : signWeight 1 = 0 := rfl

/-- No coefficient adds more than a literal does. -/
theorem signWeight_le (q : ℚ) : signWeight q ≤ 3 := by
  unfold signWeight
  split_ifs <;> decide

/-- A product of coefficients adds no more than both do. -/
theorem signWeight_mul_le (p q : ℚ) : signWeight (p * q) ≤ signWeight p + signWeight q := by
  have hle := signWeight_le (p * q)
  rcases eq_or_ne p 1 with rfl | hp
  · rw [one_mul, signWeight_one, zero_add]
  rcases eq_or_ne q 1 with rfl | hq
  · rw [mul_one, signWeight_one, add_zero]
  have hsign : ∀ {q : ℚ}, q ≠ 1 → 2 ≤ signWeight q := by
    intro q hq
    rw [signWeight, if_neg hq]
    split_ifs <;> decide
  have := hsign hp
  have := hsign hq
  omega

/-! ## Factors -/

/-- A rational expression that stands as a factor of a term: no literal, no product, no sign. -/
structure IsFactor (e : Expr) : Prop where
  rational : e.IsRational
  literal : e.isLiteral = false
  signed : e.isSigned = false

variable {a e f : Expr} {es fs : List Expr} {q r : ℚ}

/-- No factor weighs less than a variable. -/
theorem IsFactor.nine_le_weight (h : f.IsFactor) : 9 ≤ f.weight := by
  obtain ⟨hr, hl, hs⟩ := h
  cases hr with
  | number => simp [isLiteral, toNumber?] at hl
  | product => simp [isSigned] at hs
  | neg => simp [isSigned] at hs
  | var => exact le_rfl
  | sum => rw [weight_sum]; omega
  | power hb =>
    have := IsRational.three_le_weight hb
    rw [weight_power]
    omega
  | div ha hb =>
    have := IsRational.three_le_weight ha
    have := IsRational.three_le_weight hb
    rw [weight_div]
    omega

/-- A factor weighs the same among the factors of a product. -/
theorem IsFactor.factorWeight_eq (h : f.IsFactor) : f.factorWeight = f.weight := by
  rw [factorWeight, h.signed, h.literal]
  rfl

/-- A factor is not taken apart when a term is multiplied by it. -/
theorem IsFactor.isTermFactor (h : f.IsFactor) : f.isTermFactor = true := by
  cases f with
  | number n => exact absurd h.literal Bool.noConfusion
  | neg a | product es => exact absurd h.signed Bool.noConfusion
  | _ => rfl

/-! ## Reading a term -/

/-- Multiplying a term by the expression multiplies it by the coefficient `r` and the factors. -/
structure ReadsAs (e : Expr) (r : ℚ) (fs : List Expr) : Prop where
  factors : ∀ f ∈ fs, f.IsFactor
  weight_le : signWeight r + total weight fs ≤ e.weight
  times_eq : ∀ (q : ℚ) (gs : List Expr), Term.times ⟨.ofRat q, gs⟩ e = ⟨.ofRat (q * r), gs ++ fs⟩

/-- A factor is read as itself with the coefficient one. -/
theorem IsFactor.readsAs (h : f.IsFactor) : f.ReadsAs 1 [f] where
  factors := List.forall_mem_singleton.mpr h
  weight_le := by simp [signWeight_one]
  times_eq q gs := by rw [Term.times_of_isTermFactor h.isTermFactor, mul_one]

/-- A number is read as a coefficient without factors. -/
theorem readsAs_number {n : Number} (h : n.toRat? = some q) : (Expr.number n).ReadsAs q [] where
  factors := by simp
  weight_le := by
    have := signWeight_le q
    have := (literalWeight_bounds n).1
    simp only [total_nil, weight_number]
    omega
  times_eq p gs := by
    rw [Term.times, Number.mul_eq (Number.toRat?_ofRat p) h, List.append_nil]

/-- A sign is read into the coefficient. -/
theorem ReadsAs.neg (h : a.ReadsAs r fs) : (Expr.neg a).ReadsAs (-r) fs where
  factors := h.factors
  weight_le := by
    have hle := signWeight_mul_le (-1) r
    have hone : signWeight (-1) = 2 := by decide +kernel
    have := h.weight_le
    rw [neg_one_mul] at hle
    rw [weight_neg]
    omega
  times_eq q gs := by
    rw [Term.times, Number.neg_ofRat, h.times_eq, neg_mul, mul_neg]

/-- The operands of a product are read one after the other. -/
theorem exists_timesAll (h : ∀ e ∈ es, ∃ r fs, e.ReadsAs r fs) : ∃ r fs, (∀ f ∈ fs, f.IsFactor) ∧
    signWeight r + total weight fs ≤ total weight es ∧
    ∀ (q : ℚ) (gs : List Expr), Term.timesAll ⟨.ofRat q, gs⟩ es = ⟨.ofRat (q * r), gs ++ fs⟩ := by
  induction es with
  | nil =>
    refine ⟨1, [], by simp, le_rfl, fun q gs => ?_⟩
    rw [Term.timesAll, mul_one, List.append_nil]
  | cons e es ih =>
    obtain ⟨⟨r, fs, he⟩, hes⟩ := List.forall_mem_cons.mp h
    obtain ⟨s, gs, hgs, hweight, htimes⟩ := ih hes
    refine ⟨r * s, fs ++ gs, List.forall_mem_append.mpr ⟨he.factors, hgs⟩, ?_, fun q hs => ?_⟩
    · have := signWeight_mul_le r s
      have := he.weight_le
      simp only [total_append, total_cons]
      omega
    · rw [Term.timesAll, he.times_eq, htimes, mul_assoc, List.append_assoc]

/-- Every rational expression is read as a term with a rational coefficient. -/
theorem IsRational.exists_readsAs (h : e.IsRational) : ∃ r fs, e.ReadsAs r fs := by
  induction h with
  | number h => exact ⟨_, _, readsAs_number h⟩
  | product _ ih =>
    obtain ⟨r, fs, hfs, hweight, htimes⟩ := exists_timesAll ih
    refine ⟨r, fs, hfs, ?_, fun q gs => by rw [Term.times, htimes]⟩
    rw [weight_product]
    omega
  | neg _ ih =>
    obtain ⟨r, fs, ha⟩ := ih
    exact ⟨_, _, ha.neg⟩
  | var v => exact ⟨_, _, IsFactor.readsAs ⟨.var v, rfl, rfl⟩⟩
  | sum h => exact ⟨_, _, IsFactor.readsAs ⟨.sum h, rfl, rfl⟩⟩
  | power hb hk => exact ⟨_, _, IsFactor.readsAs ⟨.power hb hk, rfl, rfl⟩⟩
  | div ha hb => exact ⟨_, _, IsFactor.readsAs ⟨.div ha hb, rfl, rfl⟩⟩

/-- What an expression is read as is its term. -/
theorem ReadsAs.ofExpr_eq (h : e.ReadsAs r fs) : Term.ofExpr e = ⟨.ofRat r, fs⟩ := by
  rw [Term.ofExpr, Number.one_eq_ofRat, h.times_eq, one_mul, List.nil_append]

/-- A product is read as a term that weighs no more than its operands. -/
theorem exists_ofExpr_product (h : ∀ e ∈ es, e.IsRational) :
    ∃ r fs, Term.ofExpr (.product es) = ⟨.ofRat r, fs⟩ ∧ (∀ f ∈ fs, f.IsFactor) ∧
      signWeight r + total weight fs ≤ total weight es := by
  obtain ⟨r, fs, hfs, hweight, htimes⟩ := exists_timesAll fun e he => (h e he).exists_readsAs
  refine ⟨r, fs, ?_, hfs, hweight⟩
  rw [Term.ofExpr, Term.times, Number.one_eq_ofRat, htimes, one_mul, List.nil_append]

/-! ## Writing a term -/

/-- The literal one is a rational expression. -/
theorem isRational_one : IsRational 1 := .number (q := 1) rfl

/-- A written product of rational expressions is rational. -/
theorem isRational_productOf (h : ∀ f ∈ fs, f.IsRational) : (productOf fs).IsRational := by
  match fs, h with
  | [], _ => exact isRational_one
  | [f], h => exact h f (by simp)
  | _ :: _ :: _, h => exact .product h

/-- A term with rational factors is written as a rational expression. -/
theorem isRational_toExpr (q : ℚ) (h : ∀ f ∈ fs, f.IsRational) :
    (Term.toExpr ⟨.ofRat q, fs⟩).IsRational := by
  have hq : IsRational (.number (.ofRat q)) := .number (Number.toRat?_ofRat q)
  rw [toExpr_ofRat]
  split_ifs
  · exact hq
  · exact isRational_productOf h
  · exact .neg (isRational_productOf h)
  · exact .product (List.forall_mem_cons.mpr ⟨hq, h⟩)

/-- A product is not heavier than a node with all factors. -/
theorem weight_productOf_le (fs : List Expr) : (productOf fs).weight
    + (productOf fs).isLiteral.toNat ≤ 5 + total factorWeight fs := by
  match fs with
  | [] => exact (by decide : 3 + 1 ≤ 5 + 0)
  | [f] =>
    simp only [productOf, total_cons, total_nil, factorWeight]
    omega
  | f :: g :: fs =>
    have hlit : (Expr.product (f :: g :: fs)).isLiteral = false := rfl
    rw [show productOf (f :: g :: fs) = .product (f :: g :: fs) from rfl, weight_product_cons, hlit]
    simp only [total_cons, factorWeight, Bool.toNat_false]
    omega

/-- A written term is not heavier than a node with its coefficient and all factors. -/
theorem weight_toExpr_le (q : ℚ) (fs : List Expr) : (Term.toExpr ⟨.ofRat q, fs⟩).weight
    + (Term.toExpr ⟨.ofRat q, fs⟩).isLiteral.toNat
      ≤ 5 + signWeight q + total factorWeight fs := by
  have hproduct := weight_productOf_le fs
  rw [toExpr_ofRat]
  split_ifs with hnumber hone hneg
  · rw [weight_number, literalWeight_ofRat]
    have : (Expr.number (.ofRat q)).isLiteral.toNat = 1 := rfl
    omega
  · omega
  · have hlit : (Expr.neg (productOf fs)).isLiteral = false := rfl
    rw [hlit, hneg, show signWeight (-1) = 2 by decide +kernel, weight_neg, Bool.toNat_false]
    omega
  · have hlit : (Expr.product (.number (.ofRat q) :: fs)).isLiteral = false := rfl
    have hsign : (Expr.number (.ofRat q)).isSigned = false := rfl
    rw [hlit, weight_product_cons, hsign, weight_number, literalWeight_ofRat, signWeight,
      if_neg hone, if_neg hneg, Bool.toNat_false]
    omega

/-- Factors weigh the same among the factors of a product. -/
theorem total_factorWeight (h : ∀ f ∈ fs, f.IsFactor) :
    total factorWeight fs = total weight fs :=
  congrArg List.sum (List.map_congr_left fun f hf => (h f hf).factorWeight_eq)

/-- A coefficient stays in front of the factors, on its narrowest level. -/
theorem toExpr_number_product {n : Number} (hq : n.toRat? = some q) (hfs : ∀ f ∈ fs, f.IsFactor) :
    EqOrLess weight (Term.toExpr ⟨.ofRat q, fs⟩) (.product (.number n :: fs)) := by
  have hbounds := literalWeight_bounds n
  have hproduct := weight_productOf_le fs
  rw [total_factorWeight hfs] at hproduct
  rw [toExpr_ofRat, EqOrLess, weight_product_cons, total_factorWeight hfs, weight_number]
  split_ifs
  · rw [weight_number, literalWeight_ofRat]
    exact .inr (by omega)
  · exact .inr (by omega)
  · rw [weight_neg]
    exact .inr (by omega)
  · rw [weight_product_cons, total_factorWeight hfs, weight_number, literalWeight_ofRat,
      literalWeight, Number.downcast_eq hq]
    split_ifs with hn
    · exact .inl (by rw [hn])
    · exact .inr (by simp only [isSigned, Bool.toNat_false]; omega)

/-- A product whose operands all stand where they belong is read as it is written. -/
theorem toExpr_ofExpr_product (h : ∀ e ∈ es, e.IsRational)
    (hsigned : ∀ e ∈ es, e.isSigned = false) (hliteral : ∀ e ∈ es.tail, e.isLiteral = false) :
    EqOrLess weight (Term.ofExpr (.product es)).toExpr (.product es) := by
  have hread : Term.ofExpr (.product es) = Term.timesAll ⟨.ofRat 1, []⟩ es := by
    rw [Term.ofExpr, Term.times, Number.one_eq_ofRat]
  rw [hread]
  cases es with
  | nil =>
    rw [Term.timesAll, toExpr_ofRat, if_pos (.inl rfl), EqOrLess, weight_number,
      literalWeight_ofRat, weight_product]
    exact .inr (by omega)
  | cons e es =>
    obtain ⟨he, hes⟩ := List.forall_mem_cons.mp h
    obtain ⟨hse, hsigned⟩ := List.forall_mem_cons.mp hsigned
    have hfactors : ∀ f ∈ es, f.IsFactor := fun f hf => ⟨hes f hf, hliteral f hf, hsigned f hf⟩
    have htimes := Term.timesAll_of_isTermFactor fun f hf => (hfactors f hf).isTermFactor
    cases hle : e.isLiteral with
    | false =>
      -- Without a coefficient in front, only a single factor is written without the product.
      have hf : e.IsFactor := ⟨he, hle, hse⟩
      rw [Term.timesAll, Term.times_of_isTermFactor hf.isTermFactor, htimes, List.nil_append,
        List.singleton_append, toExpr_ofRat, if_neg (by simp), if_pos rfl]
      cases es with
      | nil =>
        rw [productOf, EqOrLess, weight_product_cons]
        exact .inr (by omega)
      | cons f fs => exact .refl _
    | true =>
      cases he with
      | number hq =>
        rw [Term.timesAll, (readsAs_number hq).times_eq, one_mul, List.nil_append,
          htimes, List.nil_append]
        exact toExpr_number_product hq hfactors
      | _ => simp [isLiteral, toNumber?] at hle

/-- A sign goes into the coefficient, or stays in front of factors without one. -/
theorem toExpr_neg (ha : 3 ≤ a.weight) (h : EqOrLess weight (Term.toExpr ⟨.ofRat r, fs⟩) a) :
    EqOrLess weight (Term.toExpr ⟨.ofRat (-r), fs⟩) (.neg a) := by
  have hle := h.le
  rw [toExpr_ofRat] at h hle
  rw [toExpr_ofRat]
  simp only [neg_eq_zero, neg_inj, neg_eq_iff_eq_neg (b := (1 : ℚ))]
  by_cases hnumber : fs = [] ∨ r = 0
  · rw [if_pos hnumber, EqOrLess, weight_number, literalWeight_ofRat, weight_neg]
    exact .inr (by omega)
  rw [if_neg hnumber] at h hle ⊢
  by_cases hone : r = 1
  · rw [if_pos hone] at h
    rw [if_neg (by rw [hone]; decide +kernel), if_pos hone, EqOrLess, weight_neg, weight_neg]
    exact h.imp (congrArg Expr.neg) fun h => by omega
  rw [if_neg hone] at hle
  by_cases hneg : r = -1
  · -- Two signs are none.
    rw [if_pos hneg, weight_neg] at hle
    rw [if_pos hneg, EqOrLess, weight_neg]
    exact .inr (by omega)
  · rw [if_neg hneg, weight_product_cons, weight_number, literalWeight_ofRat] at hle
    rw [if_neg hneg, if_neg hone, EqOrLess, weight_product_cons, weight_neg, weight_number,
      literalWeight_ofRat]
    simp only [isSigned, Bool.toNat_false] at hle ⊢
    exact .inr (by omega)

/-- Writing the term of an expression gives the expression back or a lighter one. -/
theorem toExpr_ofExpr (h : e.IsRational) : EqOrLess weight (Term.ofExpr e).toExpr e := by
  have hfactor : ∀ {f : Expr}, f.IsFactor → EqOrLess weight (Term.ofExpr f).toExpr f := by
    intro f hf
    rw [hf.readsAs.ofExpr_eq, toExpr_ofRat, if_neg (by simp), if_pos rfl]
    exact .refl _
  induction h with
  | @number n q hq =>
    rw [(readsAs_number hq).ofExpr_eq, toExpr_ofRat, if_pos (.inl rfl), EqOrLess, weight_number,
      weight_number, literalWeight_ofRat, literalWeight, Number.downcast_eq hq]
    split_ifs with hn
    · exact .inl (by rw [hn])
    · exact .inr (by omega)
  | @product es h ih =>
    -- Signed factors, and literals behind the first factor, go into the coefficient. Without any,
    -- the product is written as it was; otherwise it gets lighter.
    by_cases hpenalty : total (fun e => e.isSigned.toNat) es
        + total (fun e => e.isLiteral.toNat) es.tail = 0
    · obtain ⟨hsigned, hliteral⟩ := Nat.add_eq_zero_iff.mp hpenalty
      exact toExpr_ofExpr_product h (total_toNat_eq_zero_iff.mp hsigned)
        (total_toNat_eq_zero_iff.mp hliteral)
    · obtain ⟨r, fs, hread, hfs, hweight⟩ := exists_ofExpr_product h
      have hle := weight_toExpr_le r fs
      rw [total_factorWeight hfs] at hle
      rw [hread, EqOrLess, weight_product]
      exact .inr (by omega)
  | neg ha ih =>
    obtain ⟨r, fs, hr⟩ := IsRational.exists_readsAs ha
    rw [hr.ofExpr_eq] at ih
    rw [hr.neg.ofExpr_eq]
    exact toExpr_neg (IsRational.three_le_weight ha) ih
  | var v => exact hfactor ⟨.var v, rfl, rfl⟩
  | sum h => exact hfactor ⟨.sum h, rfl, rfl⟩
  | power hb hk => exact hfactor ⟨.power hb hk, rfl, rfl⟩
  | div ha hb => exact hfactor ⟨.div ha hb, rfl, rfl⟩

/-! ## Terms with factors -/

/-- A term with a factor and a coefficient other than zero is not written as a literal. -/
theorem isLiteral_toExpr (hq : q ≠ 0) (hfs : ∀ f ∈ fs, f.IsFactor) (hne : fs ≠ []) :
    (Term.toExpr ⟨.ofRat q, fs⟩).isLiteral = false := by
  have hproduct : (productOf fs).isLiteral = false := by
    match fs, hfs, hne with
    | [f], hfs, _ => exact (hfs f (by simp)).literal
    | _ :: _ :: _, _, _ => rfl
  rw [toExpr_ofRat, if_neg (by tauto)]
  split_ifs
  · exact hproduct
  · rfl
  · rfl

/-- A term is as heavy as its factors, unless it is zero. -/
theorem le_weight_toExpr (hq : q ≠ 0) (fs : List Expr) :
    total weight fs ≤ (Term.toExpr ⟨.ofRat q, fs⟩).weight := by
  have hproduct : total weight fs ≤ (productOf fs).weight := by
    match fs with
    | [] => exact Nat.zero_le _
    | [f] => simp [productOf]
    | f :: g :: fs =>
      rw [show productOf (f :: g :: fs) = .product (f :: g :: fs) from rfl, weight_product]
      omega
  rw [toExpr_ofRat]
  split_ifs with hnumber
  · rw [hnumber.resolve_right hq]
    exact Nat.zero_le _
  · exact hproduct
  · rw [weight_neg]
    omega
  · rw [weight_product, total_cons]
    omega

/-- Two terms with the same factors are heavier than their sum. -/
theorem weight_toExpr_add_lt (p q : ℚ) (hfs : ∀ f ∈ fs, f.IsFactor) (hne : fs ≠ []) :
    (Term.toExpr ⟨.ofRat (p + q), fs⟩).weight
      < (Term.toExpr ⟨.ofRat p, fs⟩).weight + (Term.toExpr ⟨.ofRat q, fs⟩).weight := by
  have hthree : ∀ q, 3 ≤ (Term.toExpr ⟨.ofRat q, fs⟩).weight := fun q =>
    IsRational.three_le_weight (isRational_toExpr q fun f hf => (hfs f hf).rational)
  rcases eq_or_ne p 0 with rfl | hp
  · have := hthree 0
    rw [zero_add]
    omega
  rcases eq_or_ne q 0 with rfl | hq
  · have := hthree 0
    rw [add_zero]
    omega
  -- The factors weigh nine at least, and a coefficient in front of them eight at most.
  have hnine : 9 ≤ total weight fs := by
    obtain ⟨f, gs, rfl⟩ := List.exists_cons_of_ne_nil hne
    have := (hfs f (by simp)).nine_le_weight
    rw [total_cons]
    omega
  have hle := weight_toExpr_le (p + q) fs
  have := signWeight_le (p + q)
  have := le_weight_toExpr hp fs
  have := le_weight_toExpr hq fs
  rw [total_factorWeight hfs] at hle
  omega

end Expr

end SymbolicAlgebra
