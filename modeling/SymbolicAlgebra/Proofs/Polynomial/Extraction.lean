import Mathlib.Data.List.Permutation
import SymbolicAlgebra.Proofs.Expr.FieldExpression
import SymbolicAlgebra.Proofs.Polynomial.Literals
import SymbolicAlgebra.Proofs.Simplify.Variables

/-!
# Coefficients with parameters

The coefficients of a field expression in one of its variables are expressions in the other ones,
which need not come out as numbers. `Coefficients.ofExpr?_faithful` says what can be relied on: they
do not contain the variable, there are no more of them than the largest degree allows, zeros at the
end are left out, and wherever the expression has a value, the coefficients have values that make up
a polynomial with it.

The first two do not need a value: they hold for a quotient by zero too. The value is the one of
`Coefficients.value_eq_eval`, and passes on to the normal forms where no power overflows.
-/

namespace SymbolicAlgebra

open Polynomial

variable {ρ : Assignment} {x : String}

namespace Coefficients

/-! ## Variables and number of the coefficients -/

/-- Expressions over some variables are closed under the arithmetic of coefficient lists. -/
theorem closed_over {V : String → Prop} : Closed (Expr.Over V) where
  zero := .number 0
  one := .number 1
  add ha hb := .sum (by simpa using ⟨ha, hb⟩)
  mul ha hb := .product (by simpa using ⟨ha, hb⟩)

/-- A sum of coefficient lists is as long as the longest at most. -/
theorem length_foldl_add_le {p : Coefficients} {ps : List Coefficients} {bound : ℕ}
    (hp : p.length ≤ bound) (hps : ∀ q ∈ ps, q.length ≤ bound) :
    (ps.foldl add p).length ≤ bound := by
  induction ps generalizing p with
  | nil => exact hp
  | cons q ps ih =>
    obtain ⟨hq, hps⟩ := List.forall_mem_cons.mp hps
    refine ih ?_ hps
    rw [length_add]
    exact max_le hp hq

/-- A product of coefficient lists keeps the limit on the degree. -/
theorem length_product?_le {r : Coefficients} {ps : List Coefficients}
    (hps : ∀ q ∈ ps, 0 < q.length) (h : product? ps = some r) : r.length ≤ maxDegree + 1 := by
  have hdegrees : List.Forall₂ (fun q d => q.length = d + 1) ps (ps.map fun q => q.length - 1) := by
    rw [List.forall₂_map_right_iff, List.forall₂_same]
    intro q hq
    have hpos := hps q hq
    omega
  obtain ⟨hlen, hdegree⟩ := length_product? hdegrees h
  omega

/-- The collected coefficients are free of the variable, and there is one for each degree that may
occur at most. -/
theorem over_of_collect? {e : Expr} {cs : Coefficients} (he : e.SetFree)
    (h : collect? x e = some cs) : cs.All (Expr.Over (· ≠ x)) ∧ cs.length ≤ maxDegree + 1 := by
  have hc := collected_of_collect? h
  clear h
  induction hc with
  | constant hx => exact ⟨.singleton (he.over_ne hx), by simp⟩
  | var => exact ⟨⟨by simp, by simpa using ⟨closed_over.zero, closed_over.one⟩⟩, by decide⟩
  | sum hlen _ ih =>
    cases he with
    | sum hes =>
      have hps := forall_mem_of_forall₂ (forall₂_of_zip hlen hes ih)
      exact ⟨closed_over.all_foldl_add (.singleton closed_over.zero) fun p hp => (hps p hp).1,
        length_foldl_add_le (by simp) fun p hp => (hps p hp).2⟩
  | product hlen _ hr ih =>
    cases he with
    | product hes =>
      have hps := forall_mem_of_forall₂ (forall₂_of_zip hlen hes ih)
      exact ⟨closed_over.all_product? (fun p hp => (hps p hp).1) hr,
        length_product?_le (fun p hp => (hps p hp).1.length_pos) hr⟩
  | @power _ _ n p _ _ _ hr ih =>
    cases he with
    | power hb _ =>
      have hover : ∀ q ∈ List.replicate n p, All (Expr.Over (· ≠ x)) q :=
        List.forall_mem_replicate.mpr (.inr (ih hb).1)
      exact ⟨closed_over.all_product? hover hr,
        length_product?_le (fun q hq => (hover q hq).length_pos) hr⟩
  | neg _ ih =>
    cases he with
    | neg ha =>
      obtain ⟨hover, hbound⟩ := ih ha
      exact ⟨hover.map .neg, by simpa using hbound⟩
  | div _ hbx ih =>
    cases he with
    | div ha hb =>
      obtain ⟨hover, hbound⟩ := ih ha
      exact ⟨hover.map fun hc => .div hc (hb.over_ne hbx), by simpa using hbound⟩

theorem length_trim_le (cs : Coefficients) : (trim cs).length ≤ cs.length := by
  cases cs with
  | nil => exact le_rfl
  | cons a cs =>
    rw [trim, List.length_cons, List.length_reverse, List.length_cons, ← cs.length_reverse]
    exact Nat.succ_le_succ (List.dropWhile_sublist Expr.isZero).length_le

/-- The last coefficient that is left after trimming is not a literal zero, unless it is the constant
one. -/
theorem exists_trim_eq_append {cs : Coefficients} (h : 0 < cs.length) :
    ∃ lower leading, trim cs = lower ++ [leading] ∧ lower.length + 1 ≤ cs.length ∧
      (leading.isZero = true → lower = []) := by
  have hne : trim cs ≠ [] := by
    obtain ⟨c, cs, rfl⟩ := List.exists_cons_of_length_pos h
    exact List.cons_ne_nil _ _
  obtain ⟨lower, leading, hcs⟩ := (List.eq_nil_or_concat' _).resolve_left hne
  refine ⟨lower, leading, hcs, ?_, fun hz => ?_⟩
  · have hlen := length_trim_le cs
    rwa [hcs, List.length_append, List.length_singleton] at hlen
  · by_contra hlower
    rw [isZero_eq_false_of_trim_eq (List.length_pos_iff.mpr hlower) hcs] at hz
    exact Bool.noConfusion hz

/-! ## Values -/

/-- The polynomial is worked out coefficient by coefficient. -/
theorem eval_toPolynomial (cs : Coefficients) (q : ℚ) :
    (toPolynomial ρ cs).eval q = ∑ i : Fin cs.length, cs[i].value ρ * q ^ (i : ℕ) := by
  induction cs with
  | nil => simp [toPolynomial]
  | cons c cs ih =>
    have hsum := Fin.sum_univ_succ fun i : Fin (cs.length + 1) =>
      (c :: cs)[i].value ρ * q ^ (i : ℕ)
    rw [toPolynomial, eval_add, eval_C, eval_mul, eval_X, ih, Finset.mul_sum]
    refine Eq.trans ?_ hsum.symm
    refine congrArg₂ (· + ·) (by simp) (Finset.sum_congr rfl fun i _ => ?_)
    have hsucc : (c :: cs)[i.succ] = cs[i] := rfl
    rw [hsucc, Fin.val_succ, pow_succ]
    ring

/-- Whether no power overflows while the coefficients of an expression are brought into normal
form. -/
def normalizeExactly (x : String) (e : Expr) : Bool :=
  (collect? x e).all fun cs => cs.all Expr.normalizesExactly

/-- The coefficients of a field expression do not contain the variable, do not end in a literal zero
that could be left out, and have values that make up the value of the expression wherever it has
one. -/
theorem ofExpr?_faithful {e : Expr} {cs : Coefficients} (he : e.IsField fun _ => True)
    (hexact : normalizeExactly x e = true) (h : ofExpr? x e = some cs) :
    (∀ c ∈ cs, c.containsVar x = false) ∧
      (∃ lower leading, cs = lower ++ [leading] ∧ lower.length ≤ maxDegree ∧
        (leading.isZero = true → lower = [])) ∧
      ∀ ρ, e.Defined ρ → (∀ c ∈ cs, c.Defined ρ) ∧
        e.value ρ = ∑ i : Fin cs.length, cs[i].value ρ * ρ x ^ (i : ℕ) := by
  obtain ⟨ps, hps, rfl⟩ := Option.map_eq_some_iff.mp h
  obtain ⟨hover, hbound⟩ := over_of_collect? he.setFree hps
  refine ⟨?_, ?_, fun ρ hd => ?_⟩
  · intro c hc
    obtain ⟨p, hp, rfl⟩ := List.mem_map.mp (mem_of_mem_trim hc)
    exact (hover.forall_mem p hp).normalForm.containsVar_eq_false (· rfl)
  · obtain ⟨lower, leading, hcs, hlen, hz⟩ :=
      exists_trim_eq_append (List.length_map _ ▸ hover.length_pos)
    rw [List.length_map] at hlen
    exact ⟨lower, leading, hcs, by omega, hz⟩
  · have hrefines : ∀ c ∈ ps, c.normalForm.Refines c := by
      rw [normalizeExactly, hps, Option.all_some, List.all_eq_true] at hexact
      exact fun c hc => Expr.normalForm_refines (hexact c hc)
    obtain ⟨hdefined, hvalue⟩ := value_eq_eval_ofExpr? hd hps hrefines h
    exact ⟨hdefined, hvalue.trans (eval_toPolynomial _ _)⟩

/-- The squares cancel and the denominator stays: this is linear in `x`, with the parameter `k`. -/
theorem ofExpr?_faithful_cancelled_square :
    ∃ cs, ofExpr? "x" (.power (.var "x" + .var "k") 2 / .var "k" - .power (.var "x") 2 / .var "k")
        = some cs ∧
      (∀ c ∈ cs, c.containsVar "x" = false) ∧
      (∃ lower leading, cs = lower ++ [leading] ∧ lower.length ≤ maxDegree ∧
        (leading.isZero = true → lower = [])) ∧
      (∀ c ∈ cs, c.Defined fun _ => 2) ∧
      (.power (.var "x" + .var "k") 2 / .var "k" - .power (.var "x") 2 / .var "k" : Expr).value
          (fun _ => 2)
        = ∑ i : Fin cs.length, cs[i].value (fun _ => 2) * 2 ^ (i : ℕ) := by
  have hcs : ofExpr? "x"
      (.power (.var "x" + .var "k") 2 / .var "k" - .power (.var "x") 2 / .var "k")
      = some [.power (.var "k") 2 / .var "k", .product [2, .var "k"] / .var "k"] := by
    cbv
  have hfield : Expr.IsField (fun _ => True)
      (.power (.var "x" + .var "k") 2 / .var "k" - .power (.var "x") 2 / .var "k") := by
    have hquotient : ∀ {e : Expr}, e.IsField (fun _ => True) →
        Expr.IsField (fun _ => True) (.power e 2 / .var "k") :=
      fun he => .div (.power he trivial) (.var "k")
    have hsum : Expr.IsField (fun _ => True) (.var "x" + .var "k") :=
      .sum (by simpa using ⟨.var "x", .var "k"⟩)
    exact .sum (by simpa using ⟨hquotient hsum, .neg (hquotient (.var "x"))⟩)
  have hdefined : Expr.Defined (fun _ => 2)
      (.power (.var "x" + .var "k") 2 / .var "k" - .power (.var "x") 2 / .var "k") := by
    have hquotient : ∀ {e : Expr}, e.Defined (fun _ => 2) →
        Expr.Defined (fun _ => 2) (.power e 2 / .var "k") :=
      fun he => .div (.power he fun _ => by decide) (.var "k") (by simp)
    have hsum : Expr.Defined (fun _ => 2) (.var "x" + .var "k") :=
      .sum (by simpa using ⟨.var "x", .var "k"⟩)
    exact .sum (by simpa using ⟨hquotient hsum, .neg (hquotient (.var "x"))⟩)
  obtain ⟨hfree, htrimmed, hvalue⟩ := ofExpr?_faithful hfield (by decide +kernel) hcs
  exact ⟨_, hcs, hfree, htrimmed, hvalue _ hdefined⟩

end Coefficients

end SymbolicAlgebra
