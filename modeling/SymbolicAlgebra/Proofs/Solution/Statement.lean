import Mathlib
import SymbolicAlgebra.Proofs.Solution.PositiveSet
import SymbolicAlgebra.Solution.Statement

/-!
# Solution sets

The solution set of a comparison between polynomial expressions stands for the rationals at which it
holds, as far as the difference of the sides splits over the rationals. There is one exception,
`Comparison.IsLost`: where a comparison that allows equality holds at a double root only, the root is
not in the solution set. Connectives are met by unions and intersections.
-/

namespace SymbolicAlgebra

open Polynomial SetExpr

variable {x : String}

/-! ## Truth at a point -/

/-- A comparison of exact values has the truth that their order gives it. -/
theorem Expr.truth_compare {a b : Expr} {p q : ℚ} (R : Comparison) (ha : a.HasValue p)
    (hb : b.HasValue q) : (Expr.compare R a b).truth = .ok (R.holds (cmp p q)) := by
  obtain ⟨m, hm, hp⟩ := ha
  obtain ⟨n, hn, hq⟩ := hb
  rw [truth, hm, hn]
  simp only [bind, Except.bind, compareNumbers, Number.compare?_eq hp hq]

/-! ## Comparisons -/

/-- No rational is a complex number. -/
theorem SetExpr.Denotes.realPoints {s : SetExpr} {A : Set ℚ} (h : Denotes Expr.IsRat s A)
    (hp : s.IsProper) : Denotes Expr.IsRat (realPoints s) A ∧ (realPoints s).IsProper := by
  cases s with
  | finite es =>
    obtain ⟨hes, -, rfl⟩ := h.finite_inv
    have hreal : es.filter (fun e => RootKind.ofExpr e = .real) = es := by
      refine List.filter_eq_self.mpr fun e he => ?_
      obtain ⟨q, rfl⟩ := hes e he
      rw [PositiveSet.rootKind_rat, decide_eq_true_eq]
    rw [SymbolicAlgebra.realPoints, hreal]
    exact ⟨denotes_ofElements Expr.IsRat.hasValue hes, (isFinite_ofElements es).isProper⟩
  | _ => exact ⟨h, hp⟩

/-- Dropping points leaves a list of points. -/
theorem isFinite_realPoints {s : SetExpr} (h : s.IsFinite) : (realPoints s).IsFinite := by
  cases s with
  | finite es => exact isFinite_ofElements _
  | _ => exact h

namespace Comparison

/-- The rationals at which a polynomial compares in this way with zero. -/
def solutions (R : Comparison) (p : ℚ[X]) : Set ℚ := {q | R.holds (cmp (p.eval q) 0) = true}

variable {R : Comparison} {p : ℚ[X]} {a b : Expr} {s : SetExpr}

/-- A polynomial is equal to zero at its roots. -/
theorem solutions_equal : equal.solutions p = {q | p.IsRoot q} := by
  ext q
  simp [solutions, holds, IsRoot.def, cmp_eq_eq_iff]

/-- Where a polynomial is greater than zero. -/
theorem solutions_greater : greater.solutions p = {q | 0 < p.eval q} := by
  ext q
  simp [solutions, holds, cmp_eq_gt_iff]

/-- A polynomial is less than zero where its opposite is greater. -/
theorem solutions_less : less.solutions p = {q | 0 < (-p).eval q} := by
  ext q
  simp [solutions, holds, cmp_eq_lt_iff]

/-- To be greater or equal is one of the two. -/
theorem solutions_greaterEqual :
    greaterEqual.solutions p = greater.solutions p ∪ equal.solutions p := by
  ext q
  simp only [solutions, holds, Set.mem_union, Set.mem_ofPred_eq]
  cases cmp (p.eval q) 0 <;> decide

/-- To be less or equal is one of the two. -/
theorem solutions_lessEqual : lessEqual.solutions p = less.solutions p ∪ equal.solutions p := by
  ext q
  simp only [solutions, holds, Set.mem_union, Set.mem_ofPred_eq]
  cases cmp (p.eval q) 0 <;> decide

/-- The comparison without equality. -/
def strict : Comparison → Comparison
  | lessEqual => less
  | greaterEqual => greater
  | R => R

/-- A comparison without equality holds at fewer rationals. -/
theorem solutions_strict_subset : R.strict.solutions p ⊆ R.solutions p := by
  cases R with
  | lessEqual => exact solutions_lessEqual ▸ Set.subset_union_left
  | greaterEqual => exact solutions_greaterEqual ▸ Set.subset_union_left
  | _ => exact Set.Subset.rfl

/-- Two sets are found before they are combined. -/
theorem exists_of_combine {u v : Except SolveError SetExpr} {f : SetExpr → SetExpr → SetExpr}
    (h : (do return f (← u) (← v)) = Except.ok s) :
    ∃ s₁ s₂, u = .ok s₁ ∧ v = .ok s₂ ∧ s = f s₁ s₂ := by
  obtain ⟨s₁, h₁, h⟩ := bind_eq_ok h
  obtain ⟨s₂, h₂, h⟩ := bind_eq_ok h
  exact ⟨s₁, s₂, h₁, h₂, (Except.ok.inj h).symm⟩

/-- With one difference of two sides, the one in the other order is small too. -/
theorem isSmall_sub_swap (hab : (a - b).IsSmall x) : (b - a).IsSmall x := by
  have hsides : ∀ e ∈ [a, .neg b], e.IsSmall x := by
    cases hab with
    | sum h => exact h
  have hb : b.IsSmall x := by
    cases hsides (.neg b) (by simp) with
    | neg hb => exact hb
  refine .sum fun e he => ?_
  rcases List.mem_pair.mp he with rfl | rfl
  · exact hb
  · exact .neg (hsides a (by simp))

/-- The value of a difference. -/
theorem value_sub (a b : Expr) (ρ : Assignment) : (a - b).value ρ = a.value ρ - b.value ρ := by
  change Expr.value ρ (.sum [a, .neg b]) = _
  simp [sub_eq_add_neg]

/-- Differences in the two orders represent opposite polynomials. -/
theorem represents_sub_swap (hp : (a - b).Represents x p) : (b - a).Represents x (-p) := by
  intro ρ
  have h := hp ρ
  rw [value_sub] at h
  rw [value_sub, eval_neg, ← h, neg_sub]

/-- The points at which a comparison without equality holds, joined to the zeros. -/
theorem denotes_unite_zeros {s₁ s₂ : SetExpr} {A : Set ℚ} (h₁ : Denotes Expr.IsRat s₁ A)
    (hA : A.Nonempty) (h₂ : ZeroSet.Correct s₂ p) (hsplits : p.Splits) :
    Denotes Expr.IsRat (s₁.unite (realPoints s₂)) (A ∪ equal.solutions p) := by
  obtain ⟨hzero, hproper⟩ := h₂.denotes hsplits
  obtain ⟨hreal, hreal'⟩ := hzero.realPoints hproper
  rw [solutions_equal]
  exact (h₁.unite Expr.IsRat.hasValue hreal (h₁.isProper hA) hreal').1

/-- The solution set of a comparison, which does not hold by equality alone. -/
theorem denotes_solutionSet (hab : (a - b).IsSmall x) (hp : (a - b).Represents x p)
    (hsplits : p.Splits) (h : R.solutionSet x a b = .ok s)
    (hne : R.strict ≠ R → (R.strict.solutions p).Nonempty) :
    Denotes Expr.IsRat s (R.solutions p) := by
  have hba : (b - a).IsSmall x := isSmall_sub_swap hab
  have hneg : (b - a).Represents x (-p) := represents_sub_swap hp
  have hgreater : ∀ {t}, (a - b).positiveSet x = .ok t →
      Denotes Expr.IsRat t (greater.solutions p) := fun ht => by
    rw [solutions_greater]
    exact hab.denotes_positiveSet hp hsplits ht
  have hless : ∀ {t}, (b - a).positiveSet x = .ok t →
      Denotes Expr.IsRat t (less.solutions p) := fun ht => by
    rw [solutions_less]
    exact hba.denotes_positiveSet hneg hsplits.neg ht
  cases R with
  | equal =>
    rw [solutions_equal]
    exact ((hab.zeroSet_correct hp h).denotes hsplits).1
  | greater => exact hgreater h
  | less => exact hless h
  | greaterEqual =>
    obtain ⟨s₁, s₂, h₁, h₂, rfl⟩ := exists_of_combine h
    -- Where equality is allowed, the zeros are joined to the strict solutions.
    rw [solutions_greaterEqual]
    exact denotes_unite_zeros (hgreater h₁) (hne (by decide)) (hab.zeroSet_correct hp h₂) hsplits
  | lessEqual =>
    obtain ⟨s₁, s₂, h₁, h₂, rfl⟩ := exists_of_combine h
    rw [solutions_lessEqual]
    exact denotes_unite_zeros (hless h₁) (hne (by decide)) (hab.zeroSet_correct hp h₂) hsplits

/-- An inequality between sides whose difference is linear holds somewhere without equality. -/
theorem nonempty_of_natDegree_le (hab : (a - b).IsSmall x) (hp : (a - b).Represents x p)
    (hd : p.natDegree ≤ 1) (h : R.solutionSet x a b = .ok s) (hR : R ≠ .equal) :
    (R.strict.solutions p).Nonempty := by
  have hgreater : ∀ {t}, (a - b).positiveSet x = .ok t → (greater.solutions p).Nonempty :=
    fun ht => by
      rw [solutions_greater]
      exact hab.exists_pos_of_positiveSet hp hd ht
  have hless : ∀ {t}, (b - a).positiveSet x = .ok t → (less.solutions p).Nonempty :=
    fun ht => by
      rw [solutions_less]
      exact (isSmall_sub_swap hab).exists_pos_of_positiveSet (represents_sub_swap hp)
        ((natDegree_neg p).trans_le hd) ht
  cases R with
  | equal => exact absurd rfl hR
  | greater => exact hgreater h
  | less => exact hless h
  | greaterEqual =>
    obtain ⟨s₁, s₂, h₁, -, -⟩ := exists_of_combine h
    exact hgreater h₁
  | lessEqual =>
    obtain ⟨s₁, s₂, h₁, -, -⟩ := exists_of_combine h
    exact hless h₁

/-- A list of one point, in the only way in which it is written. -/
theorem eq_singleton {t : ℚ} (h : Denotes Expr.IsRat s {t}) (hf : s.IsFinite) :
    s = .finite [.rat t] := by
  cases s with
  | empty => exact absurd h.empty_inv (Set.singleton_ne_empty t)
  | finite es =>
    obtain ⟨hes, hd, hset⟩ := h.finite_inv
    have hall : ∀ e ∈ es, e = .rat t := by
      intro e he
      obtain ⟨q, rfl⟩ := hes e he
      have hq : q ∈ ({t} : Set ℚ) := hset ▸ ⟨_, he, rfl⟩
      rw [Set.mem_singleton_iff.mp hq]
    match es, hall, hd with
    | [], _, _ => simp at hset
    | [e], hall, _ => rw [hall e (by simp)]
    | e :: e' :: _, hall, hd =>
      rw [hall e (by simp), hall e' (by simp)] at hd
      simp at hd
  | interval l lc r rc => exact hf.elim
  | union a b => exact hf.elim
  | intersection a b => exact hf.elim

/-- An open interval from a point to itself absorbs the point at its left end, and stays without
points. -/
theorem unite_point (t : ℚ) :
    (PositiveSet.openInterval (.rat t) (.rat t)).unite (.finite [.rat t]) =
      .interval (.rat t) true (.rat t) false := by
  have hself : (Expr.rat t == Expr.rat t) = true :=
    ((Expr.hasValue_rat t).setFree.beq_iff _).mpr rfl
  rw [PositiveSet.openInterval, unite_interval_finite _ _ _ _ (by simp)]
  simp only [Interval.unionWithPoints, List.foldl_cons, List.foldl_nil, Interval.absorb, hself,
    Bool.not_false, Bool.and_self, if_true]
  rfl

/-- The empty interval at a double root loses the root when it is joined to it: none of its ends is
closed by one point alone, and the point is dropped. -/
theorem denotes_unite_point {s₂ : SetExpr} {t : ℚ} (h₂ : ZeroSet.Correct s₂ p) (h0 : p ≠ 0)
    (hsplits : p.Splits) (hroot : {q | p.IsRoot q} = {t}) :
    Denotes Expr.IsRat ((PositiveSet.openInterval (.rat t) (.rat t)).unite (realPoints s₂)) ∅ := by
  obtain ⟨hzero, hfin⟩ := h₂.lists h0 hsplits
  obtain ⟨hreal, -⟩ := hzero.realPoints hfin.isProper
  rw [hroot] at hreal
  have hvalue : (Expr.rat t).HasBound (t : Bound) := (Expr.hasValue_rat t).hasBound
  have hempty : Bound.between (t : Bound) true t false = ∅ :=
    Interval.between_eq_empty (by simp [Bound.Proper])
  rw [eq_singleton hreal (isFinite_realPoints hfin), unite_point, ← hempty]
  exact .interval hvalue hvalue

/-- Where a comparison holds by equality at a double root alone, the root is lost. -/
theorem denotes_solutionSet_of_square {c t : ℚ} (hab : (a - b).IsSmall x)
    (hp : (a - b).Represents x (C c * (X - C t) ^ 2)) (h : R.solutionSet x a b = .ok s)
    (hR : R = .greaterEqual ∧ c < 0 ∨ R = .lessEqual ∧ 0 < c) : Denotes Expr.IsRat s ∅ := by
  have hc : c ≠ 0 := by
    rcases hR with ⟨-, hc⟩ | ⟨-, hc⟩
    · exact hc.ne
    · exact hc.ne'
  have hsplits : (C c * (X - C t) ^ 2).Splits := ((Splits.X_sub_C t).pow 2).C_mul c
  have h0 : C c * (X - C t) ^ 2 ≠ 0 :=
    mul_ne_zero (C_ne_zero.mpr hc) (pow_ne_zero 2 (X_sub_C_ne_zero t))
  have hroot : {q | (C c * (X - C t) ^ 2).IsRoot q} = {t} := by
    ext q
    simp [IsRoot.def, hc, sub_eq_zero]
  rcases hR with ⟨rfl, hneg⟩ | ⟨rfl, hpos⟩
  · obtain ⟨s₁, s₂, h₁, h₂, rfl⟩ := exists_of_combine h
    -- The strict solutions are written as `(t, t)`, and the root only closes the left end.
    rw [hab.positiveSet_of_negated_square hneg hp h₁]
    exact denotes_unite_point (hab.zeroSet_correct hp h₂) h0 hsplits hroot
  · obtain ⟨s₁, s₂, h₁, h₂, rfl⟩ := exists_of_combine h
    have hswap : (b - a).Represents x (C (-c) * (X - C t) ^ 2) := by
      rw [C_neg, neg_mul]
      exact represents_sub_swap hp
    rw [(isSmall_sub_swap hab).positiveSet_of_negated_square (neg_lt_zero.mpr hpos) hswap h₁]
    exact denotes_unite_point (hab.zeroSet_correct hp h₂) h0 hsplits hroot

/-- Truth at a point is membership in the solutions of the difference. -/
theorem truth_substitute {n : Number} {q : ℚ} (ha : a.IsPolynomial x) (hb : b.IsPolynomial x)
    (hp : (a - b).Represents x p) (hn : n.toRat? = some q) :
    ∃ t, ((Expr.compare R a b).substitute x (.number n)).truth = .ok t ∧
      (t = true ↔ q ∈ R.solutions p) := by
  have hvalue := hp fun _ => q
  rw [value_sub] at hvalue
  refine ⟨_, ?_, Iff.rfl⟩
  rw [Expr.substitute_compare, Expr.truth_compare R (ha.hasValue_substitute hn)
    (hb.hasValue_substitute hn), ← hvalue, cmp_sub_zero]

end Comparison

/-- The difference of polynomial expressions is one. -/
theorem Expr.IsPolynomial.sub {a b : Expr} (ha : a.IsPolynomial x) (hb : b.IsPolynomial x) :
    (a - b).IsPolynomial x := by
  refine .sum fun e he => ?_
  rcases List.mem_pair.mp he with rfl | rfl
  · exact ha
  · exact .neg hb

/-! ## Linear statements -/

namespace Expr

/-- Conjunctions and disjunctions of truth values and of comparisons between polynomial expressions
whose difference has two coefficients at most. -/
inductive IsLinear (x : String) : Expr → Prop
  | boolean (v : Bool) : IsLinear x (.boolean v)
  | compare (R : Comparison) {a b : Expr} {cs : Coefficients} (ha : a.IsPolynomial x)
      (hb : b.IsPolynomial x) (hc : Coefficients.ofExpr? x (a - b) = some cs)
      (hlen : cs.length ≤ 2) : IsLinear x (.compare R a b)
  | and {a b : Expr} (ha : IsLinear x a) (hb : IsLinear x b) : IsLinear x (.and a b)
  | or {a b : Expr} (ha : IsLinear x a) (hb : IsLinear x b) : IsLinear x (.or a b)

/-- The set stands for the rationals at which a statement holds, and its bounds are in order. -/
structure Solves (x : String) (e : Expr) (s : SetExpr) (A : Set ℚ) : Prop where
  denotes : Denotes IsRat s A
  isProper : s.IsProper
  truth : ∀ {n : Number} {q : ℚ}, n.toRat? = some q →
    ∃ t, (e.substitute x (.number n)).truth = .ok t ∧ (t = true ↔ q ∈ A)

variable {a b e : Expr} {s s₁ s₂ : SetExpr} {A B : Set ℚ}

/-- A true statement holds everywhere, a false one nowhere. -/
theorem solves_boolean (v : Bool) (h : (Expr.boolean v).solutionSet x = .ok s) :
    ∃ A, Solves x (.boolean v) s A := by
  cases v with
  | true =>
    obtain rfl := Except.ok.inj h
    exact ⟨Set.univ, .full (.interval false false), (Full.interval false false).isProper,
      fun _ => ⟨true, rfl, by simp⟩⟩
  | false =>
    obtain rfl := Except.ok.inj h
    exact ⟨∅, .empty, trivial, fun _ => ⟨false, rfl, by simp⟩⟩

/-- A comparison between sides whose difference is linear is solved by its set. -/
theorem solves_compare {R : Comparison} {cs : Coefficients} (ha : a.IsPolynomial x)
    (hb : b.IsPolynomial x) (hc : Coefficients.ofExpr? x (a - b) = some cs) (hlen : cs.length ≤ 2)
    (h : R.solutionSet x a b = .ok s) : ∃ A, Solves x (.compare R a b) s A := by
  have hab : (a - b).IsSmall x := (ha.sub hb).isSmall_of_coefficients hc
  obtain ⟨p, hp, hlength⟩ := hab.exists_represents_of_coefficients hc
  have hd : p.natDegree ≤ 1 := by omega
  have hsplits : p.Splits := .of_natDegree_le_one hd
  refine ⟨R.solutions p, ?_, ?_, Comparison.truth_substitute ha hb hp⟩
  · refine Comparison.denotes_solutionSet hab hp hsplits h fun hR => ?_
    exact Comparison.nonempty_of_natDegree_le hab hp hd h fun heq => hR (by rw [heq]; rfl)
  · by_cases hR : R = .equal
    · subst hR
      exact ((hab.zeroSet_correct hp h).denotes hsplits).2
    · have hstrict := Comparison.nonempty_of_natDegree_le hab hp hd h hR
      have hden := Comparison.denotes_solutionSet hab hp hsplits h fun _ => hstrict
      exact hden.isProper (hstrict.mono Comparison.solutions_strict_subset)

/-- A conjunction is solved by the intersection. -/
theorem Solves.and (ha : Solves x a s₁ A) (hb : Solves x b s₂ B) :
    Solves x (.and a b) (s₁.intersect s₂) (A ∩ B) := by
  obtain ⟨hden, hproper⟩ := ha.denotes.intersect IsRat.hasValue hb.denotes
    fun _ _ _ _ e _ p _ q he hp => he.trans hp.symm
  refine ⟨hden, hproper ha.isProper, fun hn => ?_⟩
  obtain ⟨t, ht, hA⟩ := ha.truth hn
  obtain ⟨u, hu, hB⟩ := hb.truth hn
  refine ⟨t && u, ?_, by rw [Bool.and_eq_true, hA, hB, Set.mem_inter_iff]⟩
  rw [substitute_and, Expr.truth, ht, hu]
  cases t <;> rfl

/-- A disjunction is solved by the union. -/
theorem Solves.or (ha : Solves x a s₁ A) (hb : Solves x b s₂ B) :
    Solves x (.or a b) (s₁.unite s₂) (A ∪ B) := by
  obtain ⟨hden, hproper⟩ := ha.denotes.unite IsRat.hasValue hb.denotes ha.isProper hb.isProper
  refine ⟨hden, hproper, fun hn => ?_⟩
  obtain ⟨t, ht, hA⟩ := ha.truth hn
  obtain ⟨u, hu, hB⟩ := hb.truth hn
  refine ⟨t || u, ?_, by rw [Bool.or_eq_true, hA, hB, Set.mem_union]⟩
  rw [substitute_or, Expr.truth, ht, hu]
  cases t <;> rfl

/-- The solution set of a linear statement solves it. -/
theorem IsLinear.exists_solves (he : e.IsLinear x) (h : e.solutionSet x = .ok s) :
    ∃ A, Solves x e s A := by
  induction he generalizing s with
  | boolean v => exact solves_boolean v h
  | compare R ha hb hc hlen => exact solves_compare ha hb hc hlen h
  | and _ _ iha ihb =>
    obtain ⟨s₁, s₂, h₁, h₂, rfl⟩ := Comparison.exists_of_combine h
    obtain ⟨A, hA⟩ := iha h₁
    obtain ⟨B, hB⟩ := ihb h₂
    exact ⟨A ∩ B, hA.and hB⟩
  | or _ _ iha ihb =>
    obtain ⟨s₁, s₂, h₁, h₂, rfl⟩ := Comparison.exists_of_combine h
    obtain ⟨A, hA⟩ := iha h₁
    obtain ⟨B, hB⟩ := ihb h₂
    exact ⟨A ∪ B, hA.or hB⟩

/-- Whether a rational is in the solution set of a linear statement is decided, and it is the truth
of the statement at the rational. -/
theorem mem_solutionSet_of_isLinear {n : Number} {q : ℚ} (he : e.IsLinear x)
    (h : e.solutionSet x = .ok s) (hn : n.toRat? = some q) :
    ∃ t, (e.substitute x (.number n)).truth = .ok t ∧ s.contains? (.number n) = some t := by
  obtain ⟨A, hA⟩ := he.exists_solves h
  obtain ⟨t, ht, htA⟩ := hA.truth hn
  obtain ⟨u, hu, huA⟩ := hA.denotes.contains? IsRat.hasValue (hasValue_number hn)
  refine ⟨t, ht, ?_⟩
  rw [hu, Option.some.injEq, Bool.eq_iff_iff, huA, htA]

/-- The statement that `x` is 5, or at least 1 and below 3, is solved by the points that say so. -/
theorem mem_solutionSet_of_interval_and_point :
    ∃ t, ((Expr.or (.and (.compare .lessEqual 1 (.var "x")) (.compare .less (.var "x") 3))
        (.compare .equal (.var "x") 5)).substitute "x" 2).truth = .ok t ∧
      (SetExpr.union (.interval 1 true 3 false) (.finite [5])).contains? 2 = some t := by
  have hx : (Expr.var "x").IsPolynomial "x" := .var
  have hnumber : ∀ k : ℕ, (Expr.number (.int k)).IsPolynomial "x" := fun k => .number rfl
  have h1 : Coefficients.ofExpr? "x" (1 - .var "x") = some [1, .int (-1)] := by cbv
  have h3 : Coefficients.ofExpr? "x" (.var "x" - 3) = some [.int (-3), 1] := by cbv
  have h5 : Coefficients.ofExpr? "x" (.var "x" - 5) = some [.int (-5), 1] := by cbv
  refine mem_solutionSet_of_isLinear (x := "x") (n := 2) (q := 2) (.or (.and ?_ ?_) ?_) (by cbv) rfl
  · exact .compare .lessEqual (hnumber 1) hx h1 (by decide)
  · exact .compare .less hx (hnumber 3) h3 (by decide)
  · exact .compare .equal hx (hnumber 5) h5 (by decide)

end Expr

/-! ## Quadratic comparisons -/

namespace Comparison

/-- A comparison that holds at a double root alone, by equality: the leading coefficient is `a`, and
the discriminant is `d`. -/
def LosesDoubleRoot (R : Comparison) (a d : ℚ) : Prop :=
  d = 0 ∧ (R = .greaterEqual ∧ a < 0 ∨ R = .lessEqual ∧ 0 < a)

instance (R : Comparison) (a d : ℚ) : Decidable (R.LosesDoubleRoot a d) :=
  inferInstanceAs (Decidable (_ ∧ _))

variable {R : Comparison} {l r a b c : Expr} {s : SetExpr} {ρ : Assignment}

/-- A quadratic polynomial without a discriminant is a square, up to its leading coefficient. -/
theorem quadratic_eq_square {u v w : ℚ} (hu : u ≠ 0) (hd : v ^ 2 - 4 * u * w = 0) :
    C u * X ^ 2 + C v * X + C w = C u * (X - C (-v / (2 * u))) ^ 2 := by
  refine Polynomial.funext fun t => ?_
  simp only [eval_add, eval_mul, eval_pow, eval_sub, eval_C, eval_X]
  field_simp
  linear_combination -hd

/-- A comparison of a quadratic polynomial with zero holds without equality, unless a double root is
lost. -/
theorem nonempty_of_not_losesDoubleRoot {u v w d : ℚ} (hu : u ≠ 0)
    (hd : v ^ 2 - 4 * u * w = d * d) (hlost : ¬ R.LosesDoubleRoot u (v ^ 2 - 4 * u * w))
    (hR : R.strict ≠ R) : (R.strict.solutions (C u * X ^ 2 + C v * X + C w)).Nonempty := by
  have hroot : d = 0 → v ^ 2 - 4 * u * w = 0 := fun h => by rw [hd, h, mul_zero]
  cases R with
  | greaterEqual =>
    have hpos : 0 < u ∨ d ≠ 0 := by
      by_contra! h
      exact hlost ⟨hroot h.2, .inl ⟨rfl, lt_of_le_of_ne h.1 hu⟩⟩
    obtain ⟨t, ht⟩ := PositiveSet.exists_quadratic_pos hu hd hpos
    refine ⟨t, ?_⟩
    rw [strict, solutions_greater]
    simpa using ht
  | lessEqual =>
    have hpos : 0 < -u ∨ d ≠ 0 := by
      by_contra! h
      exact hlost ⟨hroot h.2, .inr ⟨rfl, lt_of_le_of_ne (neg_nonpos.mp h.1) hu.symm⟩⟩
    have hd' : (-v) ^ 2 - 4 * -u * -w = d * d := by linear_combination hd
    obtain ⟨t, ht⟩ := PositiveSet.exists_quadratic_pos (neg_ne_zero.mpr hu) hd' hpos
    refine ⟨t, ?_⟩
    rw [strict, solutions_less]
    simp only [eval_neg, eval_add, eval_mul, eval_pow, eval_C, eval_X, Set.mem_ofPred_eq]
    linarith
  | _ => exact absurd rfl hR

/-- Whether a rational is in the solution set of a comparison with a quadratic difference is decided,
where the discriminant is the square of a rational. It is the truth of the comparison at the
rational, except for the double root that is lost. -/
theorem mem_solutionSet_of_quadratic {n : Number} {q : ℚ} (hl : l.IsPolynomial x)
    (hr : r.IsPolynomial x) (hc : Coefficients.ofExpr? x (l - r) = some [c, b, a])
    (hd : IsSquare (b.value ρ ^ 2 - 4 * a.value ρ * c.value ρ))
    (h : (Expr.compare R l r).solutionSet x = .ok s) (hn : n.toRat? = some q) :
    ∃ t, ((Expr.compare R l r).substitute x (.number n)).truth = .ok t ∧
      s.contains? (.number n) = some (t &&
        !decide (R.LosesDoubleRoot (a.value ρ) (b.value ρ ^ 2 - 4 * a.value ρ * c.value ρ))) := by
  have hlr : (l - r).IsSmall x := (hl.sub hr).isSmall_of_coefficients hc
  obtain ⟨u, v, w, ha, hb, hc', hu, hp⟩ := hlr.represents_quadratic hc
  obtain ⟨d, hd⟩ := hd
  rw [ha.value_eq, hb.value_eq, hc'.value_eq] at hd ⊢
  obtain ⟨t, ht, htrue⟩ := truth_substitute hl hr hp hn
  refine ⟨t, ht, ?_⟩
  have hpoint : (Expr.number n).HasValue q := Expr.hasValue_number hn
  by_cases hlost : R.LosesDoubleRoot u (v ^ 2 - 4 * u * w)
  · obtain ⟨hzero, hR⟩ := hlost
    rw [quadratic_eq_square hu hzero] at hp
    have hden := denotes_solutionSet_of_square hlr hp h hR
    obtain ⟨answer, hanswer, hiff⟩ := hden.contains? Expr.IsRat.hasValue hpoint
    have hfalse : answer = false := by simpa using hiff
    rw [hanswer, hfalse, decide_eq_true ⟨hzero, hR⟩, Bool.not_true, Bool.and_false]
  · have hden := denotes_solutionSet hlr hp (splits_quadratic hu hd) h
      (nonempty_of_not_losesDoubleRoot hu hd hlost)
    obtain ⟨answer, hanswer, hiff⟩ := hden.contains? Expr.IsRat.hasValue hpoint
    rw [hanswer, decide_eq_false hlost, Bool.not_false, Bool.and_true, Option.some.injEq,
      Bool.eq_iff_iff, hiff, htrue]

/-- An evaluated condition on a set that is found. -/
theorem exists_of_any {u : Except SolveError SetExpr} {f : SetExpr → Bool}
    (h : u.toOption.any f = true) : ∃ s, u = .ok s ∧ f s = true := by
  cases u with
  | error fault => cases h
  | ok s => exact ⟨s, rfl, h⟩

/-- The square of `x` is at least 4 at 2, and 2 is in the solution set. -/
theorem mem_solutionSet_of_square_ge_four :
    ∃ s, (Expr.compare .greaterEqual (.power (.var "x") (.int 2)) 4).solutionSet "x" = .ok s ∧
      ∃ t, ((Expr.compare .greaterEqual (.power (.var "x") (.int 2)) 4).substitute "x" 2).truth
          = .ok t ∧
        s.contains? 2 = some (t && !decide (greaterEqual.LosesDoubleRoot 1 16)) := by
  obtain ⟨s, hs, -⟩ := exists_of_any (f := fun _ => true)
    (u := (Expr.compare .greaterEqual (.power (.var "x") (.int 2)) 4).solutionSet "x")
    (by decide +kernel)
  have hl : (Expr.power (.var "x") (.int 2)).IsPolynomial "x" :=
    .power .var (by decide) (by decide)
  have hr : (4 : Expr).IsPolynomial "x" := .number rfl
  have hc : Coefficients.ofExpr? "x" (.power (.var "x") (.int 2) - 4) = some [.int (-4), 0, 1] := by
    cbv
  have hzero : (0 : Expr).value (fun _ => 0) = 0 := Expr.value_ofNat 0
  have hone : (1 : Expr).value (fun _ => 0) = 1 := Expr.value_ofNat 1
  have hd : (0 : Expr).value (fun _ => 0) ^ 2
      - 4 * (1 : Expr).value (fun _ => 0) * (Expr.int (-4)).value (fun _ => 0) = 16 := by
    rw [hzero, hone, Expr.value_int]
    norm_num
  have hsquare : IsSquare ((0 : Expr).value (fun _ => 0) ^ 2
      - 4 * (1 : Expr).value (fun _ => 0) * (Expr.int (-4)).value (fun _ => 0)) := by
    rw [hd]
    exact ⟨4, by norm_num⟩
  have hmem := mem_solutionSet_of_quadratic (n := 2) (q := 2) hl hr hc hsquare hs rfl
  rw [hd, hone] at hmem
  exact ⟨s, hs, hmem⟩

/-- The square of `x - 1` is at most zero at 1, which the solution set `[1, 1)` leaves out. -/
theorem not_mem_solutionSet_of_square_le_zero :
    Coefficients.ofExpr? "x" (.power (.var "x" - 1) (.int 2) - 0) = some [1, .int (-2), 1] ∧
      ((Expr.compare .lessEqual (.power (.var "x" - 1) (.int 2)) 0).substitute "x" 1).truth
        = .ok true ∧
      ∃ s, (Expr.compare .lessEqual (.power (.var "x" - 1) (.int 2)) 0).solutionSet "x" = .ok s ∧
        s.contains? 1 = some false := by
  refine ⟨by cbv, by with_unfolding_all rfl, ?_⟩
  obtain ⟨s, hs, hcontains⟩ := exists_of_any (f := fun s => s.contains? 1 == some false)
    (u := (Expr.compare .lessEqual (.power (.var "x" - 1) (.int 2)) 0).solutionSet "x")
    (by decide +kernel)
  exact ⟨s, hs, by simpa using hcontains⟩

end Comparison

end SymbolicAlgebra
