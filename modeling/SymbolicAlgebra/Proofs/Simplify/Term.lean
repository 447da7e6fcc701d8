import SymbolicAlgebra.Proofs.Expr.ExactValue
import SymbolicAlgebra.Simplify.Term

/-!
# The value of a term

A term stands for the product of its coefficient and its factors. Reading an expression as a term
and writing a term as an expression keep this value.
-/

namespace SymbolicAlgebra

variable {ρ : Assignment}

namespace Expr

/-- The sum of a list has the value of the sum of its values. -/
theorem defined_sumOf {es : List Expr} (h : ∀ e ∈ es, e.Defined ρ) :
    (sumOf es).Defined ρ ∧ (sumOf es).value ρ = (es.map (value ρ)).sum := by
  match es, h with
  | [], _ => exact ⟨.int 0, by simp [sumOf]; exact value_int 0⟩
  | [e], h => exact ⟨h e (by simp), by simp [sumOf]⟩
  | a :: b :: es, h => exact ⟨.sum h, value_sum _⟩

/-- The product of a list has the value of the product of its values. -/
theorem defined_productOf {es : List Expr} (h : ∀ e ∈ es, e.Defined ρ) :
    (productOf es).Defined ρ ∧ (productOf es).value ρ = (es.map (value ρ)).prod := by
  match es, h with
  | [], _ => exact ⟨.int 1, by simp [productOf]; exact value_int 1⟩
  | [e], h => exact ⟨h e (by simp), by simp [productOf]⟩
  | a :: b :: es, h => exact ⟨.product h, value_product _⟩

end Expr

namespace Term

/-- The coefficient is exact, and the factors have values. -/
structure Defined (ρ : Assignment) (t : Term) : Prop where
  coefficient : ∃ q, t.coefficient.toRat? = some q
  factors : ∀ e ∈ t.factors, e.Defined ρ

/-- The product of the coefficient and the factors. -/
def value (ρ : Assignment) (t : Term) : ℚ :=
  t.coefficient.toRat?.getD 0 * (t.factors.map (Expr.value ρ)).prod

theorem value_mk {c : Number} {q : ℚ} (h : c.toRat? = some q) (es : List Expr) :
    value ρ ⟨c, es⟩ = q * (es.map (Expr.value ρ)).prod := by
  simp [value, h]

theorem timesAll_eq_foldl (t : Term) (es : List Expr) : t.timesAll es = es.foldl times t := by
  induction es generalizing t with
  | nil => rfl
  | cons e es ih => rw [timesAll, ih, List.foldl_cons]

/-- Another factor at the end multiplies the value. -/
theorem Defined.append {t : Term} {e : Expr} (ht : t.Defined ρ) (he : e.Defined ρ) :
    Defined ρ ⟨t.coefficient, t.factors ++ [e]⟩ ∧
      value ρ ⟨t.coefficient, t.factors ++ [e]⟩ = t.value ρ * e.value ρ := by
  refine ⟨⟨ht.coefficient, ?_⟩, ?_⟩
  · intro f hf
    rcases List.mem_append.mp hf with hf | hf
    · exact ht.factors f hf
    · rwa [List.mem_singleton.mp hf]
  · simp [value, mul_assoc]

/-- Multiplying by an expression multiplies the values. -/
theorem Defined.times {t : Term} {e : Expr} (ht : t.Defined ρ) (he : e.Defined ρ) :
    (t.times e).Defined ρ ∧ (t.times e).value ρ = t.value ρ * e.value ρ := by
  induction he generalizing t with
  | number hq =>
    obtain ⟨c, hc⟩ := ht.coefficient
    have hmul := Number.toRat?_mul hc hq
    refine ⟨⟨⟨_, hmul⟩, ht.factors⟩, ?_⟩
    rw [Term.times, value_mk hmul, value, hc, Expr.value_number hq, Option.getD_some]
    ring
  | var v => exact ht.append (.var v)
  | sum h => exact ht.append (.sum h)
  | @product es h ih =>
    rw [Term.times, timesAll_eq_foldl, Expr.value_product]
    -- The factors of a product are multiplied in one after the other.
    clear h
    induction es generalizing t with
    | nil => exact ⟨ht, by simp⟩
    | cons e es ihes =>
      obtain ⟨hd, hv⟩ := ih e (by simp) ht
      obtain ⟨hd', hv'⟩ := ihes (fun e' he' => ih e' (by simp [he'])) hd
      exact ⟨hd', by rw [List.foldl_cons, hv', hv, List.map_cons, List.prod_cons, mul_assoc]⟩
  | power hb hk => exact ht.append (.power hb hk)
  | neg ha ih =>
    obtain ⟨c, hc⟩ := ht.coefficient
    have hneg := Number.toRat?_neg hc
    obtain ⟨hd, hv⟩ := ih (t := ⟨-t.coefficient, t.factors⟩) ⟨⟨_, hneg⟩, ht.factors⟩
    refine ⟨hd, ?_⟩
    rw [Term.times, hv, value_mk hneg, value, hc, Expr.value_neg, Option.getD_some]
    ring
  | div ha hb h => exact ht.append (.div ha hb h)

/-- An expression and the term that it is read as have the same value. -/
theorem defined_ofExpr {e : Expr} (he : e.Defined ρ) :
    (ofExpr e).Defined ρ ∧ (ofExpr e).value ρ = e.value ρ := by
  obtain ⟨hd, hv⟩ := Defined.times (t := ⟨1, []⟩) ⟨⟨1, rfl⟩, by simp⟩ he
  exact ⟨hd, by rw [ofExpr, hv, value_mk (q := 1) rfl]; simp⟩

/-- A term and the expression that it is written as have the same value. -/
theorem Defined.toExpr {t : Term} (ht : t.Defined ρ) :
    t.toExpr.Defined ρ ∧ t.toExpr.value ρ = t.value ρ := by
  obtain ⟨c, hc⟩ := ht.coefficient
  obtain ⟨hp, hpv⟩ := Expr.defined_productOf ht.factors
  have hval : t.value ρ = c * (t.factors.map (Expr.value ρ)).prod := value_mk hc t.factors
  rw [Term.toExpr, hval]
  split_ifs with hnum hone hneg
  · refine ⟨.number hc, ?_⟩
    rw [Expr.value_number hc]
    rcases (Bool.or_eq_true _ _).mp hnum with hnil | hzero
    · simp [List.isEmpty_iff.mp hnil]
    · simp [(Number.isZero_iff hc).mp hzero]
  · exact ⟨hp, by rw [hpv, (Number.isOne_iff hc).mp hone, one_mul]⟩
  · have hc1 : c = -1 := by linarith [(Number.isOne_iff (Number.toRat?_neg hc)).mp hneg]
    exact ⟨hp.neg, by rw [hc1, neg_one_mul, ← hpv]; rfl⟩
  · have hall : ∀ e ∈ .number t.coefficient :: t.factors, e.Defined ρ :=
      List.forall_mem_cons.mpr ⟨.number hc, ht.factors⟩
    obtain ⟨hd, hv⟩ := Expr.defined_productOf hall
    exact ⟨hd, by rw [hv, List.map_cons, List.prod_cons, Expr.value_number hc]⟩

/-- The two directions together: rewriting an expression through its term refines it. -/
theorem toExpr_ofExpr_refines (e : Expr) : (ofExpr e).toExpr.Refines e := by
  intro ρ he
  obtain ⟨ht, hv⟩ := defined_ofExpr he
  exact ⟨ht.toExpr.1, ht.toExpr.2.trans hv⟩

end Term

end SymbolicAlgebra
