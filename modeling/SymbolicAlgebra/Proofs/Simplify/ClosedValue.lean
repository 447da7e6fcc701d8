import SymbolicAlgebra.Proofs.Arithmetic.Tower
import SymbolicAlgebra.Proofs.Expr.Evaluation
import SymbolicAlgebra.Proofs.Polynomial.NormalForm

/-!
# Values of closed expressions

Two ways lead from an expression of numbers to its value. The patterns fold each node after its
operands, by splitting terms into coefficients and factors, collecting these and writing them again;
evaluation combines the values of the operands. `Expr.IsArithmetic.run_eq_eval` says that both give
the same literal, after any number of passes: each of them gives the exact value on its narrowest
level at every node, so that the literals agree as data.
-/

namespace SymbolicAlgebra

namespace Pattern

variable {p q : ℚ}

/-! ## Nodes with numbers as operands -/

theorem pass_number (n : Number) : pass library (.number n) = .number n := visit_number n

/-- An expression of which a pass makes a number becomes this number, by one pass or more. -/
theorem normalize_eq_of_pass {e : Expr} {n : Number} (h : pass library e = .number n)
    (limit : ℕ) : (normalize library limit e).expr = .number n := by
  have hfree : (Expr.number n).SetFree := .number n
  have hnumber : ∀ k, (normalizeWithin library k (.number n)).expr = .number n := fun k =>
    normalizeWithin_induction (P := (· = .number n)) (fun _ he => he ▸ pass_number n) k rfl
  obtain ⟨k, hk⟩ : ∃ k, max limit 1 = k + 1 := ⟨max limit 1 - 1, by omega⟩
  rw [normalize, hk, normalizeWithin]
  simp only [h]
  split_ifs with hsame
  · exact ((hfree.beq_iff e).mp hsame).symm
  · exact hnumber k

/-- One pass that ends in a number is enough for the normal form. -/
theorem normalForm_eq_of_pass {e : Expr} {n : Number} (h : pass library e = .number n) :
    e.normalForm = .number n := normalize_eq_of_pass h 30

/-- The first pattern about arithmetic that changes a node to a number has the last word. -/
theorem visit_eq_of_arithmetic {node : Expr} {n : Number} (before : List Pattern) {p : Pattern}
    {after : List Pattern} (hlib : library = (numberTheory ++ before) ++ p :: after)
    (hnode : node.argOf? .phi = none) (hbefore : ∀ q ∈ before, q.apply node = node)
    (hp : p.apply node = .number n) : visit node = .number n :=
  visit_eq_number _ hlib (List.forall_mem_append.mpr
    ⟨fun _ hq => apply_eq_self_of_mem_numberTheory hq hnode, hbefore⟩) hp

/-- A sum of exact numbers becomes their narrowest sum. -/
theorem visit_sum_numbers {ns : List Number} {qs : List ℚ}
    (h : List.Forall₂ (fun n q => n.toRat? = some q) ns qs) :
    visit (.sum (ns.map .number)) = .rat qs.sum :=
  visit_eq_of_arithmetic [] rfl rfl (by simp) (Folding.foldSum_numbers h)

/-- Two exact numbers are added. -/
theorem visit_sum_pair {m n : Number} (hm : m.toRat? = some p) (hn : n.toRat? = some q) :
    visit (.sum [.number m, .number n]) = .rat (p + q) :=
  (@visit_sum_numbers [m, n] [p, q] (.cons hm (.cons hn .nil))).trans
    (congrArg Expr.rat List.sum_pair)

/-- A product of exact numbers becomes their narrowest product. -/
theorem visit_product_numbers {ns : List Number} {qs : List ℚ}
    (h : List.Forall₂ (fun n q => n.toRat? = some q) ns qs) :
    visit (.product (ns.map .number)) = .rat qs.prod :=
  visit_eq_of_arithmetic [⟨"fold-sum", Folding.foldSum⟩] rfl rfl (by simp [Folding.foldSum])
    (Folding.foldProduct_numbers h)

/-- Two exact numbers are multiplied. -/
theorem visit_product_pair {m n : Number} (hm : m.toRat? = some p) (hn : n.toRat? = some q) :
    visit (.product [.number m, .number n]) = .rat (p * q) :=
  (@visit_product_numbers [m, n] [p, q] (.cons hm (.cons hn .nil))).trans
    (congrArg Expr.rat List.prod_pair)

/-- A power of an exact number is worked out while its exponent is in the limit. -/
theorem visit_power_number {k : ℤ} (hk : |k| ≤ Folding.maxFoldedExponent) (hp : p = 0 → 0 ≤ k) :
    visit (.power (.rat p) (.int k)) = .rat (p ^ k) := by
  have hm : (Number.ofRat p).toRat? = some p := Number.toRat?_ofRat p
  refine visit_eq_of_arithmetic [⟨"fold-sum", Folding.foldSum⟩,
    ⟨"fold-product", Folding.foldProduct⟩] rfl rfl
    (by simp [Folding.foldSum, Folding.foldProduct]) ?_
  change Folding.foldPower (.power (.number (.ofRat p)) (.int k)) = _
  rw [Folding.foldPower_number, Folding.foldNumericPower?_of_abs_le hm hk hp]
  split_ifs with htrivial hone
  · have hpow : p ^ k = 1 := by
      rcases Bool.or_eq_true_iff.mp htrivial with h0 | h1
      · rw [Int.cast_eq_zero.mp ((Number.isZero_iff (Number.toRat?_int k)).mp h0), zpow_zero]
      · rw [(Number.isOne_iff hm).mp h1, one_zpow]
    rw [hpow]
    rfl
  · rw [Int.cast_eq_one.mp ((Number.isOne_iff (Number.toRat?_int k)).mp hone), zpow_one]
  · rfl

/-- The sign of an exact number is worked out. -/
theorem visit_neg_number {n : Number} (hn : n.toRat? = some q) :
    visit (.neg (.number n)) = .rat (-q) := by
  have hminus : (-1 : Number).toRat? = some (-1) := rfl
  refine visit_eq_of_arithmetic [⟨"fold-sum", Folding.foldSum⟩,
    ⟨"fold-product", Folding.foldProduct⟩, ⟨"fold-power", Folding.foldPower⟩] rfl rfl
    (by simp [Folding.foldSum, Folding.foldProduct, Folding.foldPower]) ?_
  change Expr.number (-1 * n) = _
  rw [Number.mul_eq hminus hn, neg_one_mul]

/-- A quotient of exact numbers is worked out, unless its denominator is zero. -/
theorem visit_div_numbers {n : Number} (hn : n.toRat? = some q) (hq : q ≠ 0) :
    visit (.div (.rat p) (.number n)) = .rat (p / q) := by
  have hone : (1 : Number).toRat? = some 1 := rfl
  refine visit_eq_of_arithmetic [⟨"fold-sum", Folding.foldSum⟩,
    ⟨"fold-product", Folding.foldProduct⟩, ⟨"fold-power", Folding.foldPower⟩,
    ⟨"fold-neg", Folding.foldNeg⟩] rfl rfl
    (by simp [Folding.foldSum, Folding.foldProduct, Folding.foldPower, Folding.foldNeg]) ?_
  change Folding.foldDiv (.div (.rat p) (.number n)) = _
  rw [Folding.foldDiv_number]
  split_ifs with h1 hz
  · rw [(Number.isOne_iff hn).mp h1, div_one]
    rfl
  · exact absurd ((Number.isZero_iff hn).mp hz) hq
  · change Expr.number (1 * .ofRat p / n) = _
    rw [Number.div_eq (Number.toRat?_mul hone (Number.toRat?_ofRat p)) hn hq, one_mul]

end Pattern

namespace Expr

variable {e : Expr} {ρ : Assignment}

/-- Expressions of integers and fractions, each literal on the narrowest level of its value. The
exponents of powers are integers that powers are computed for. -/
inductive IsArithmetic : Expr → Prop
  | int (n : ℤ) : IsArithmetic (.int n)
  | fraction {r : ℚ} (h : r.den ≠ 1) : IsArithmetic (.number (.rat r))
  | sum {es : List Expr} (h : ∀ e ∈ es, IsArithmetic e) : IsArithmetic (.sum es)
  | product {es : List Expr} (h : ∀ e ∈ es, IsArithmetic e) : IsArithmetic (.product es)
  | power {b : Expr} {k : ℤ} (hb : IsArithmetic b) (hk : |k| ≤ 1024) :
      IsArithmetic (.power b (.int k))
  | neg {a : Expr} (ha : IsArithmetic a) : IsArithmetic (.neg a)
  | div {a b : Expr} (ha : IsArithmetic a) (hb : IsArithmetic b) : IsArithmetic (.div a b)

/-- A fraction is on its narrowest level. -/
theorem rat_of_den_ne_one {r : ℚ} (h : r.den ≠ 1) : Expr.rat r = .number (.rat r) := by
  rw [Expr.rat, Number.ofRat, wholePart?, if_neg h]

/-- The literals for the values of a list of expressions. -/
theorem forall₂_toRat?_ofRat (v : Expr → ℚ) (es : List Expr) :
    List.Forall₂ (fun n q => n.toRat? = some q) (es.map fun e => Number.ofRat (v e))
      (es.map v) := by
  simp [List.forall₂_map_left_iff, List.forall₂_map_right_iff]

/-- Operands with values on the narrowest level are combined to such a value. -/
theorem evalFold_eq_ofRat {f : Number → Number → Number} {g : ℚ → ℚ → ℚ} {v : Expr → ℚ}
    {es : List Expr} (hg : ∀ p q, f (.ofRat p) (.ofRat q) = .ofRat (g p q))
    (hes : ∀ e ∈ es, e.eval = .ok (.ofRat (v e))) (p : ℚ) :
    evalFold f (.ofRat p) es = .ok (.ofRat ((es.map v).foldl g p)) := by
  obtain ⟨n, hn, rfl⟩ := exists_evalFold (R := fun n q => n = .ofRat q) (f := id) (g := g)
    (by rintro m n p q rfl rfl; exact hg p q) (fun e he => ⟨_, hes e he, rfl⟩) rfl
  rw [← hn, List.map_id]

namespace IsArithmetic

/-- One pass of the patterns makes an expression of numbers the literal of its value. -/
theorem pass_eq (h : e.IsArithmetic) (hd : e.Defined ρ) :
    Pattern.pass Pattern.library e = .rat (e.value ρ) := by
  -- When a node is visited, its operands are literals.
  have hoperands : ∀ {es : List Expr}, (∀ e ∈ es, e.Defined ρ) →
      (∀ e ∈ es, e.Defined ρ → Pattern.pass Pattern.library e = .rat (e.value ρ)) →
      es.map (Pattern.pass Pattern.library) =
        (es.map fun e => Number.ofRat (e.value ρ)).map .number := by
    intro es hdes ih
    rw [List.map_map]
    exact List.map_congr_left fun e he => ih e he (hdes e he)
  induction h with
  | int n =>
    rw [value_int, Expr.rat, Number.ofRat_intCast]
    exact Pattern.pass_number _
  | fraction h =>
    rw [value_number rfl, rat_of_den_ne_one h]
    exact Pattern.pass_number _
  | sum _ ih =>
    rw [Pattern.pass, mapBottomUp_sum]
    change Pattern.visit (.sum (List.map (Pattern.pass Pattern.library) _)) = _
    rw [hoperands hd.of_mem_sum ih, Pattern.visit_sum_numbers (forall₂_toRat?_ofRat _ _),
      value_sum]
  | product _ ih =>
    rw [Pattern.pass, mapBottomUp_product]
    change Pattern.visit (.product (List.map (Pattern.pass Pattern.library) _)) = _
    rw [hoperands hd.of_mem_product ih, Pattern.visit_product_numbers (forall₂_toRat?_ofRat _ _),
      value_product]
  | @power b k _ hk ih =>
    cases hd with
    | power hb h0 =>
      change Pattern.visit (.power (Pattern.pass Pattern.library b) (Pattern.visit (.int k))) = _
      rw [ih hb, Expr.int, Pattern.visit_number]
      exact Pattern.visit_power_number hk h0
  | @neg a _ ih =>
    cases hd with
    | neg ha =>
      change Pattern.visit (.neg (Pattern.pass Pattern.library a)) = _
      rw [ih ha]
      exact Pattern.visit_neg_number (Number.toRat?_ofRat _)
  | @div a b _ _ iha ihb =>
    cases hd with
    | div ha hb h0 =>
      change Pattern.visit (.div (Pattern.pass Pattern.library a)
        (Pattern.pass Pattern.library b)) = _
      rw [iha ha, ihb hb]
      exact Pattern.visit_div_numbers (Number.toRat?_ofRat _) h0

/-- Evaluation makes of an expression of numbers its value on the narrowest level. -/
theorem eval_eq (h : e.IsArithmetic) (hd : e.Defined ρ) : e.eval = .ok (.ofRat (e.value ρ)) := by
  induction h with
  | int n =>
    rw [value_int, Number.ofRat_intCast]
    rfl
  | fraction h =>
    rw [value_number rfl, ← Expr.number.inj (rat_of_den_ne_one h)]
    rfl
  | sum _ ih =>
    have hadd : ∀ p q, Number.add (.ofRat p) (.ofRat q) = .ofRat (p + q) := fun p q =>
      Number.add_eq (Number.toRat?_ofRat p) (Number.toRat?_ofRat q)
    rw [eval, Number.zero_eq_ofRat,
      evalFold_eq_ofRat hadd fun e he => ih e he (hd.of_mem_sum e he), value_sum,
      List.sum_eq_foldl]
  | product _ ih =>
    have hmul : ∀ p q, Number.mul (.ofRat p) (.ofRat q) = .ofRat (p * q) := fun p q =>
      Number.mul_eq (Number.toRat?_ofRat p) (Number.toRat?_ofRat q)
    rw [eval, Number.one_eq_ofRat,
      evalFold_eq_ofRat hmul fun e he => ih e he (hd.of_mem_product e he), value_product,
      List.prod_eq_foldl]
  | @power b k _ hk ih =>
    cases hd with
    | power hb h0 =>
      rw [eval, ih hb]
      change Except.ok ((Number.ofRat (b.value ρ)).pow (.int k)) = _
      rw [Number.pow_eq (Number.toRat?_ofRat _) (Folding.toSignedWord?_of_abs_le hk) h0,
        value_power]
  | @neg a _ ih =>
    cases hd with
    | neg ha =>
      rw [eval, ih ha]
      change Except.ok (-Number.ofRat (a.value ρ)) = _
      rw [Number.neg_ofRat, value_neg]
  | @div a b _ _ iha ihb =>
    cases hd with
    | div ha hb h0 =>
      rw [eval, iha ha, ihb hb]
      change Except.ok (Number.ofRat (a.value ρ) / .ofRat (b.value ρ)) = _
      rw [Number.div_eq (Number.toRat?_ofRat _) (Number.toRat?_ofRat _) h0, value_div]

/-- The patterns, in any number of passes, and evaluation give the same literal for an expression of
numbers in which no division by zero and no negative power of zero occurs: its value on the
narrowest level. -/
theorem run_eq_eval (h : e.IsArithmetic) (hd : e.Defined ρ) {s : Simplifier}
    (hs : s.saturates = false) (hp : s.patterns = Pattern.library) :
    ∃ n, (s.run e).expr = .number n ∧ e.eval = .ok n ∧ n.IsNarrowest (e.value ρ) := by
  refine ⟨.ofRat (e.value ρ), ?_, h.eval_eq hd, Number.isNarrowest_iff.mpr rfl⟩
  rw [Simplifier.run, hs, Bool.false_and, if_neg Bool.false_ne_true, Simplifier.normalize, hp]
  exact Pattern.normalize_eq_of_pass (h.pass_eq hd) s.iterations

/-- One pass and evaluation of `0 ^ 0 - 1 / 2`, where the zero is a sum without operands and the one
is a product without operands. -/
theorem run_eq_eval_empty_operands :
    ∃ n, (Simplifier.run { Simplifier.patternsOnly with iterations := 1 }
        (.sum [.power (.sum []) (.int 0), .neg (.div (.product []) (.int 2))])).expr = .number n ∧
      (Expr.sum [.power (.sum []) (.int 0), .neg (.div (.product []) (.int 2))]).eval = .ok n ∧
      n.IsNarrowest (1 / 2) := by
  have hsum : (Expr.sum []).IsArithmetic := .sum nofun
  have hproduct : (Expr.product []).IsArithmetic := .product nofun
  have hd : (Expr.sum [.power (.sum []) (.int 0), .neg (.div (.product []) (.int 2))]).Defined
      fun _ => 0 := by
    refine .sum (List.forall_mem_cons.mpr ⟨?_, List.forall_mem_singleton.mpr ?_⟩)
    · exact .power (.sum nofun) fun _ => le_rfl
    · exact .neg (.div (.product nofun) (.int 2) (by norm_num))
  have hvalue : (Expr.sum [.power (.sum []) (.int 0), .neg (.div (.product []) (.int 2))]).value
      (fun _ => 0) = 1 / 2 := by
    norm_num
  rw [← hvalue]
  refine run_eq_eval (.sum ?_) hd rfl rfl
  refine List.forall_mem_cons.mpr ⟨?_, List.forall_mem_singleton.mpr ?_⟩
  · exact .power hsum (by decide)
  · exact .neg (.div hproduct (.int 2))

end IsArithmetic

end Expr

end SymbolicAlgebra
