import SymbolicAlgebra.Proofs.Expr.Children
import SymbolicAlgebra.Proofs.Simplify.Content

/-!
# When pulling out the content has a fault

The greatest common divisor of the numerators is folded from zero. Once it is positive it stays so,
and nothing can go wrong any more: the one fault is the divisor of two zeros, at a first coefficient
that is zero. It makes no difference then that there are other coefficients, or that all of them are
zero and the sum should have no content.

`Expr.factorize_faults` says that a tree has this fault exactly if a sum is met whose first term,
when it has been factored itself, has the coefficient zero, `Expr.meetsLeadingZero`.
-/

namespace SymbolicAlgebra

namespace Content

variable {num : ℤ} {cs : List Number} {fault : ArithmeticFault}

/-! ## Coefficients -/

/-- Whether the first coefficient is exactly zero. -/
def leadsWithZero (cs : List Number) : Bool := cs.head?.any fun c => c.toRat? == some 0

/-- On top of a divisor that is not zero, the divisors never have a fault. -/
theorem exists_divisors_of_ne_zero (hnum : num ≠ 0) (den : ℤ) (cs : List Number) :
    ∃ r, divisors num den cs = .ok r ∧ (r = none ↔ ∃ c ∈ cs, c.toRat? = none) ∧
      ∀ p ∈ r, p.1 ≠ 0 := by
  induction cs generalizing num den with
  | nil => exact ⟨some (num, den), rfl, by simp, by simpa using hnum⟩
  | cons c cs ih =>
    cases hc : c.toRat? with
    | none => exact ⟨none, by rw [divisors, hc], by simp [hc], by simp⟩
    | some q =>
      obtain ⟨hcons, hpos⟩ := divisors_cons hc (.inl hnum) den cs
      obtain ⟨r, hr, hnone, hfst⟩ := ih hpos.ne' (leastCommonMultiple den q.den)
      refine ⟨r, hcons.trans hr, ?_, hfst⟩
      rw [hnone, List.exists_mem_cons_iff, hc, or_iff_right (Option.some_ne_none q)]

/-- A leading zero asks for the greatest common divisor of zeros. -/
theorem ofCoefficients_of_leadsWithZero (h : leadsWithZero cs = true) :
    ofCoefficients cs = .error .gcdOfZeros := by
  cases cs with
  | nil => cases h
  | cons c cs =>
    have hc : c.toRat? = some 0 := beq_iff_eq.mp h
    have hdivisors : divisors 0 1 (c :: cs) = .error .gcdOfZeros := by
      rw [divisors, hc]
      rfl
    rw [ofCoefficients, hdivisors]
    rfl

/-- Without a leading zero the divisors have no fault, and that of the numerators is zero only if
there are none. -/
theorem exists_divisors_of_not_leadsWithZero (h : leadsWithZero cs = false) :
    ∃ r, divisors 0 1 cs = .ok r ∧ (r = none ↔ ∃ c ∈ cs, c.toRat? = none) ∧
      ∀ p ∈ r, p.1 = 0 ↔ cs = [] := by
  cases cs with
  | nil => exact ⟨some (0, 1), rfl, by simp, by simp⟩
  | cons c cs =>
    cases hc : c.toRat? with
    | none => exact ⟨none, by rw [divisors, hc], by simp [hc], by simp⟩
    | some q =>
      have hq : q ≠ 0 := by
        rintro rfl
        simp [leadsWithZero, hc] at h
      obtain ⟨hcons, hpos⟩ := divisors_cons hc (.inr hq) 1 cs
      obtain ⟨r, hr, hnone, hfst⟩ :=
        exists_divisors_of_ne_zero hpos.ne' (leastCommonMultiple 1 q.den) cs
      refine ⟨r, hcons.trans hr, ?_, fun p hp => by simp [hfst p hp]⟩
      rw [hnone, List.exists_mem_cons_iff, hc, or_iff_right (Option.some_ne_none q)]

/-- Without a leading zero there is no fault, and there is a content if all coefficients are
exact. -/
theorem exists_ofCoefficients (h : leadsWithZero cs = false) :
    ∃ r, ofCoefficients cs = .ok r ∧ (r = none ↔ cs = [] ∨ ∃ c ∈ cs, c.toRat? = none) := by
  obtain ⟨r, hr, hnone, hfst⟩ := exists_divisors_of_not_leadsWithZero h
  rw [ofCoefficients, hr, ← hnone]
  cases r with
  | none => exact ⟨none, rfl, by simp⟩
  | some p =>
    obtain ⟨n, d⟩ := p
    rw [← hfst (n, d) rfl]
    change ∃ r, (if n = 0 then _ else pure (some _)) = _ ∧ _
    split_ifs with hn
    · exact ⟨none, rfl, by simp [hn]⟩
    all_goals exact ⟨some _, rfl, by simp [hn]⟩

/-- A leading zero is the only thing that lets the content fail. -/
theorem ofCoefficients_eq_error_iff :
    ofCoefficients cs = .error fault ↔ fault = .gcdOfZeros ∧ leadsWithZero cs = true := by
  cases h : leadsWithZero cs with
  | true => simp [ofCoefficients_of_leadsWithZero h, eq_comm]
  | false =>
    obtain ⟨r, hr, -⟩ := exists_ofCoefficients h
    simp [hr]

/-- There is no content for no coefficients, or where one has no exact value. -/
theorem ofCoefficients_eq_none_iff :
    ofCoefficients cs = .ok none ↔
      leadsWithZero cs = false ∧ (cs = [] ∨ ∃ c ∈ cs, c.toRat? = none) := by
  cases h : leadsWithZero cs with
  | true => simp [ofCoefficients_of_leadsWithZero h]
  | false =>
    obtain ⟨r, hr, hnone⟩ := exists_ofCoefficients h
    rw [hr, Except.ok.injEq, hnone, and_iff_right rfl]

/-! ## Sums -/

/-- The coefficient of the first term decides whether a sum has a fault. -/
theorem factorSum_eq_error_iff {terms : List Expr} :
    factorSum terms = .error fault ↔ fault = .gcdOfZeros ∧
      leadsWithZero (terms.map fun t => (Term.ofExpr t).coefficient) = true := by
  have hcoefficients : (terms.map PowerTerm.ofExpr).map PowerTerm.coefficient
      = terms.map fun t => (Term.ofExpr t).coefficient := by
    rw [List.map_map]
    rfl
  rw [← ofCoefficients_eq_error_iff, ← hcoefficients, factorSum]
  cases terms.map PowerTerm.ofExpr with
  | nil => simp [ofCoefficients_eq_error_iff, leadsWithZero]
  | cons first rest =>
    dsimp only
    cases h : ofCoefficients ((first :: rest).map PowerTerm.coefficient) with
    | error fault' => simp [bind, Except.bind]
    | ok content =>
      simp only [bind, Except.bind, pure, Except.pure, reduceCtorEq, iff_false]
      split_ifs <;> simp

end Content

namespace Expr

variable {e e' : Expr}

/-! ## Trees -/

/-- Whether the node is a sum whose first term has, after factoring, exactly the coefficient
zero. -/
def hasLeadingZero : Expr → Bool
  | .sum (t :: _) =>
    t.factorize.toOption.any fun t' => (Term.ofExpr t').coefficient.toRat? == some 0
  | _ => false

/-- Whether a sum is met whose first term has, after factoring, exactly the coefficient zero. -/
def meetsLeadingZero (e : Expr) : Bool :=
  e.fold fun node below => below.any id || node.hasLeadingZero

/-- A leading zero is met in an operand or in the node itself. -/
theorem meetsLeadingZero_eq (e : Expr) :
    e.meetsLeadingZero = (e.children.any meetsLeadingZero || e.hasLeadingZero) := by
  rw [meetsLeadingZero, fold_eq, List.any_map]
  rfl

/-- When the operands are factored, the node has a fault if it is a sum and the first one is a zero
term. -/
theorem factorNode_eq_error_iff {fault : ArithmeticFault} (h : e.mapChildrenM factorize = .ok e') :
    Content.factorNode e' = .error fault ↔ fault = .gcdOfZeros ∧ e.hasLeadingZero = true := by
  cases e with
  | sum es =>
    obtain ⟨es', hes, h⟩ := bind_eq_ok h
    obtain rfl := Except.ok.inj h
    rw [Content.factorNode, Content.factorSum_eq_error_iff]
    cases es with
    | nil =>
      obtain rfl := Except.ok.inj hes
      rfl
    | cons t ts =>
      rw [List.mapM_cons] at hes
      obtain ⟨t', ht, hes⟩ := bind_eq_ok hes
      obtain ⟨ts', -, hes⟩ := bind_eq_ok hes
      obtain rfl := Except.ok.inj hes
      rw [hasLeadingZero, ht]
      rfl
  | _ =>
    -- Nodes other than sums are not factored.
    have hnode : Content.factorNode e' = .ok e' := by
      rw [← h, ← mapChildrenM_bind_factorNode factorize (fun es => Expr.noConfusion), h]
      rfl
    simp [hasLeadingZero, hnode]

/-- Factoring has one fault, where a sum with a leading zero is met. -/
theorem factorize_eq_error_iff (e : Expr) (fault : ArithmeticFault) :
    e.factorize = .error fault ↔ fault = .gcdOfZeros ∧ e.meetsLeadingZero = true := by
  induction e using induction_children generalizing fault with
  | node e ih =>
    have hchildren := (visits_mapChildrenM (g := factorize) e).eq_error_iff ih
    rw [factorize_eq_bind, meetsLeadingZero_eq]
    cases h : e.mapChildrenM factorize with
    | error fault' =>
      obtain ⟨rfl, hany⟩ := (hchildren fault').mp h
      rw [hany, Bool.true_or, and_iff_left rfl]
      exact ⟨fun h => (Except.error.inj h).symm, fun h => h ▸ rfl⟩
    | ok e' =>
      have hany : e.children.any meetsLeadingZero = false := by
        by_contra htrue
        cases h.symm.trans ((hchildren _).mpr ⟨rfl, by simpa using htrue⟩)
      rw [hany, Bool.false_or]
      exact factorNode_eq_error_iff h

/-- The faults of factoring, and of the content of coefficients: only the divisor of two zeros, and
only at a leading zero. Without one the content is missing for no coefficients and for inexact ones;
its denominator is not zero, and neither is the content that the terms are divided by. -/
theorem factorize_faults (e : Expr) (cs : List Number) :
    (∀ fault, e.factorize = .error fault ↔
        fault = .gcdOfZeros ∧ e.meetsLeadingZero = true) ∧
      (∀ fault, Content.ofCoefficients cs = .error fault ↔
        fault = .gcdOfZeros ∧ Content.leadsWithZero cs = true) ∧
      (Content.ofCoefficients cs = .ok none ↔
        Content.leadsWithZero cs = false ∧ (cs = [] ∨ ∃ c ∈ cs, c.toRat? = none)) ∧
      (∀ num, Content.divisors 0 1 cs ≠ .ok (some (num, 0))) ∧
      Content.ofCoefficients cs ≠ .ok (some 0) :=
  ⟨factorize_eq_error_iff e, fun _ => Content.ofCoefficients_eq_error_iff,
    Content.ofCoefficients_eq_none_iff,
    fun _ h => Content.divisors_den_ne_zero one_ne_zero h rfl,
    fun h => Content.ofCoefficients_ne_zero h rfl⟩

/-- The sum of `0 * x` and `0 * y` should have no content, but it has a fault; so has that of
`0 * x` and `y`, while that of `y` and `0 * x` is left as it is. -/
theorem factorize_leading_zeros :
    factorize (.sum [.product [0, .var "x"], .product [0, .var "y"]]) = .error .gcdOfZeros ∧
      factorize (.sum [.product [0, .var "x"], .var "y"]) = .error .gcdOfZeros ∧
      factorize (.sum [.var "y", .product [0, .var "x"]])
        = .ok (.sum [.var "y", .product [0, .var "x"]]) :=
  ⟨by cbv, by cbv, by cbv⟩

end Expr

end SymbolicAlgebra
