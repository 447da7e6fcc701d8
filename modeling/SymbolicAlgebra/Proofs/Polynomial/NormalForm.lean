import SymbolicAlgebra.Proofs.Polynomial.Folding
import SymbolicAlgebra.Proofs.Simplify.Normalization

/-!
# Normal forms of polynomials

`Expr.IsSmall.normalForm_settles`: the normal form of a small polynomial is settled, has no higher
degree and the same values. So the normal form of a constant polynomial is a number.

A pass visits each node after its operands, which are settled by then. The patterns before the one for
the kind of the node leave it alone, this one settles it, and the patterns after it keep it settled.
-/

namespace SymbolicAlgebra

variable {x : String}

namespace Pattern

/-! ## Visiting a node -/

/-- The patterns of the library applied to one node, one after the other. -/
def visit (node : Expr) : Expr := library.foldl step node

/-- A pattern that gives back the node leaves it, so that a step is the pattern where there are no
sets. -/
theorem step_eq {p : Pattern} {node : Expr} (h : (p.apply node).SetFree) :
    step node p = p.apply node := by
  rw [step]
  split_ifs with hsame
  · exact ((h.beq_iff node).mp hsame).symm
  · rfl

/-- A settled node of small degree stays settled under each pattern. -/
theorem apply_settles {p : Pattern} (hp : p ∈ library) {e : Expr} (he : e.Settled x)
    (hd : e.degree x ≤ maxDegree) : (p.apply e).Settles x e := by
  have hdef : e.Defined fun _ => 0 := he.defined _
  by_cases ha : p ∈ arithmetic
  · simp only [arithmetic, List.mem_cons, List.not_mem_nil, or_false] at ha
    -- In their order: sums, products, powers, signs, quotients, square roots, absolute values.
    rcases ha with rfl | rfl | rfl | rfl | rfl | rfl | rfl
    · cases e with
      | sum es =>
        cases he with
        | sum h _ => exact Folding.foldSum_settles h
      | _ => exact he.settles
    · cases e with
      | product es =>
        cases he with
        | product h _ _ => exact Folding.foldProduct_settles h
      | _ => exact he.settles
    · cases e with
      | power b k =>
        cases he.isSmall hd with
        | power _ h0 hk _ =>
          cases he with
          | power hb _ _ => exact Folding.foldPower_settles hb h0 hk
      | _ => exact he.settles
    · cases e with
      | neg a =>
        cases he with
        | neg ha _ => exact Folding.foldNeg_settles ha
      | _ => exact he.settles
    · cases e with
      | div a b => cases he
      | _ => exact he.settles
    · change (Folding.foldSqrt e).Settles x e
      rw [Folding.foldSqrt_eq_self hdef.isField]
      exact he.settles
    · change (Folding.foldAbs e).Settles x e
      rw [Folding.foldAbs_eq_self hdef.isField]
      exact he.settles
  -- All other patterns are about calls, and there are none in a field expression.
  · have hfunction : p ∈ numberTheory ++ expLog ++ trigonometry := by
      simp only [library, List.mem_append] at hp ⊢
      tauto
    rw [apply_eq_self hfunction hdef.isField]
    exact he.settles

/-- Patterns of the library keep a settled node of small degree settled. -/
theorem foldl_step_settles {ps : List Pattern} (hps : ∀ p ∈ ps, p ∈ library) {e : Expr}
    (he : e.Settled x) (hd : e.degree x ≤ maxDegree) : (ps.foldl step e).Settles x e := by
  induction ps generalizing e with
  | nil => exact he.settles
  | cons p ps ih =>
    obtain ⟨hp, hrest⟩ := List.forall_mem_cons.mp hps
    have hs : (p.apply e).Settles x e := apply_settles hp he hd
    rw [List.foldl_cons, step_eq hs.settled.setFree]
    exact (ih hrest hs.settled (hs.degree_le.trans hd)).trans hs.degree_le hs.refines

/-- Patterns of the library leave numbers alone. -/
theorem foldl_step_number {ps : List Pattern} (hps : ∀ p ∈ ps, p ∈ library) (n : Number) :
    ps.foldl step (.number n) = .number n :=
  foldl_step_induction (P := (· = .number n)) (fun p hp _ he => he ▸ apply_number (hps p hp) n) rfl

/-- Visiting leaves numbers alone. -/
theorem visit_number (n : Number) : visit (.number n) = .number n := foldl_step_number (fun _ => id) n

/-- Patterns that do nothing to a node leave it as it is. -/
theorem foldl_step_eq_self {ps : List Pattern} {node : Expr} (h : ∀ p ∈ ps, p.apply node = node) :
    ps.foldl step node = node := by
  induction ps with
  | nil => rfl
  | cons p ps ih =>
    obtain ⟨hp, hrest⟩ := List.forall_mem_cons.mp h
    rw [List.foldl_cons, step, hp, ite_self, ih hrest]

/-- Patterns that do nothing to a node may be left out before the first one that changes it. -/
theorem visit_eq {node : Expr} (before : List Pattern) {p : Pattern} {after : List Pattern}
    (hlib : library = before ++ p :: after) (hbefore : ∀ q ∈ before, q.apply node = node)
    (hp : (p.apply node).SetFree) : visit node = after.foldl step (p.apply node) := by
  rw [visit, hlib, List.foldl_append, foldl_step_eq_self hbefore, List.foldl_cons, step_eq hp]

/-- A pattern that makes a number of a node has the last word. -/
theorem visit_eq_number {node : Expr} (before : List Pattern) {p : Pattern} {after : List Pattern}
    {n : Number} (hlib : library = before ++ p :: after)
    (hbefore : ∀ q ∈ before, q.apply node = node) (hp : p.apply node = .number n) :
    visit node = .number n := by
  have hafter : ∀ q ∈ after, q ∈ library := fun q hq => by rw [hlib]; simp [hq]
  rw [visit_eq before hlib hbefore (hp ▸ .number n), hp, foldl_step_number hafter]

/-- The patterns about the totient need one. -/
theorem apply_eq_self_of_mem_numberTheory {p : Pattern} (hp : p ∈ numberTheory) {node : Expr}
    (h : node.argOf? .phi = none) : p.apply node = node := by
  simp only [numberTheory, List.mem_cons, List.not_mem_nil, or_false] at hp
  rcases hp with rfl | rfl | rfl
  · simp [Totient.ofPrimePower, h]
  · simp [Totient.ofPrime, h]
  · simp [Totient.ofInteger, h]

/-! ## Nodes with settled operands -/

/-- A node is settled by the visit when one arithmetic pattern settles it and the arithmetic patterns
before it do nothing. -/
theorem visit_settles {node : Expr} (before : List Pattern) {p : Pattern} {after : List Pattern}
    (hlib : library = (numberTheory ++ before) ++ p :: after)
    (hbefore : ∀ q ∈ before, q.apply node = node) (hdef : ∀ ρ, node.Defined ρ)
    (hp : (p.apply node).Settles x node) (hd : node.degree x ≤ maxDegree) :
    (visit node).Settles x node := by
  have hfirst : ∀ q ∈ numberTheory ++ before, q.apply node = node := by
    intro q hq
    rcases List.mem_append.mp hq with hq | hq
    · exact apply_eq_self (by simp [hq]) (hdef fun _ => 0).isField
    · exact hbefore q hq
  have hafter : ∀ q ∈ after, q ∈ library := fun q hq => by rw [hlib]; simp [hq]
  rw [visit_eq _ hlib hfirst hp.settled.setFree]
  exact (foldl_step_settles hafter hp.settled (hp.degree_le.trans hd)).trans hp.degree_le hp.refines

/-- A sum of settled terms is settled by the pattern for sums. -/
theorem visit_sum_settles {es : List Expr} (h : ∀ e ∈ es, e.Settled x)
    (hd : (Expr.sum es).degree x ≤ maxDegree) : (visit (.sum es)).Settles x (.sum es) :=
  visit_settles [] rfl (by simp) (fun ρ => .sum fun e he => (h e he).defined ρ)
    (Folding.foldSum_settles h) hd

/-- A product of settled factors is settled by the pattern for products, the second of the
arithmetic ones. -/
theorem visit_product_settles {es : List Expr} (h : ∀ e ∈ es, e.Settled x)
    (hd : (Expr.product es).degree x ≤ maxDegree) : (visit (.product es)).Settles x (.product es) :=
  visit_settles [⟨"fold-sum", Folding.foldSum⟩] rfl (by simp [Folding.foldSum])
    (fun ρ => .product fun e he => (h e he).defined ρ) (Folding.foldProduct_settles h) hd

/-- A power of a settled base is settled by the pattern for powers. -/
theorem visit_power_settles {b : Expr} {k : ℤ} (hb : b.Settled x) (h0 : 0 ≤ k) (hk : k ≤ maxDegree)
    (hd : (Expr.power b (.int k)).degree x ≤ maxDegree) :
    (visit (.power b (.int k))).Settles x (.power b (.int k)) :=
  visit_settles [⟨"fold-sum", Folding.foldSum⟩, ⟨"fold-product", Folding.foldProduct⟩] rfl
    (by simp [Folding.foldSum, Folding.foldProduct]) (fun ρ => .power (hb.defined ρ) fun _ => h0)
    (Folding.foldPower_settles hb h0 hk) hd

/-- A sign before a settled operand is settled by the pattern for signs. -/
theorem visit_neg_settles {a : Expr} (ha : a.Settled x) (hd : a.degree x ≤ maxDegree) :
    (visit (.neg a)).Settles x (.neg a) :=
  visit_settles [⟨"fold-sum", Folding.foldSum⟩, ⟨"fold-product", Folding.foldProduct⟩,
      ⟨"fold-power", Folding.foldPower⟩] rfl
    (by simp [Folding.foldSum, Folding.foldProduct, Folding.foldPower])
    (fun ρ => .neg (ha.defined ρ)) (Folding.foldNeg_settles ha) hd

/-- A quotient of a settled numerator by a number is settled by the pattern for quotients. -/
theorem visit_div_settles {a : Expr} {n : Number} {q : ℚ} (ha : a.Settled x)
    (hn : n.toRat? = some q) (hq : q ≠ 0) (hd : a.degree x ≤ maxDegree) :
    (visit (.div a (.number n))).Settles x (.div a (.number n)) :=
  visit_settles [⟨"fold-sum", Folding.foldSum⟩, ⟨"fold-product", Folding.foldProduct⟩,
      ⟨"fold-power", Folding.foldPower⟩, ⟨"fold-neg", Folding.foldNeg⟩] rfl
    (by simp [Folding.foldSum, Folding.foldProduct, Folding.foldPower, Folding.foldNeg])
    (fun ρ => .div (ha.defined ρ) (.number hn) (by rwa [Expr.value_number hn]))
    (Folding.foldDiv_settles ha hn hq) hd

end Pattern

/-! ## Passes -/

namespace Expr

/-- Terms without a higher degree make up a sum without a higher degree. -/
theorem degree_sum_map_le {f : Expr → Expr} {es : List Expr}
    (h : ∀ e ∈ es, (f e).degree x ≤ e.degree x) :
    (Expr.sum (es.map f)).degree x ≤ (Expr.sum es).degree x := by
  refine degree_sum_le_iff.mpr fun e' he' => ?_
  obtain ⟨e, he, rfl⟩ := List.mem_map.mp he'
  exact (h e he).trans (degree_le_degree_sum he)

/-- Factors without a higher degree make up a product without a higher degree. -/
theorem degree_product_map_le {f : Expr → Expr} {es : List Expr}
    (h : ∀ e ∈ es, (f e).degree x ≤ e.degree x) :
    (Expr.product (es.map f)).degree x ≤ (Expr.product es).degree x := by
  rw [degree_product, degree_product, List.map_map]
  exact List.sum_le_sum h

/-- A pass settles a small polynomial. -/
theorem IsSmall.pass_settles {e : Expr} (h : e.IsSmall x) :
    (Pattern.pass Pattern.library e).Settles x e := by
  change (e.mapBottomUp Pattern.visit).Settles x e
  induction h with
  | number h =>
    rw [mapBottomUp_number, Pattern.visit_number]
    exact Settled.settles (.number h)
  | var =>
    rw [mapBottomUp_var]
    exact Pattern.foldl_step_settles (fun _ => id) .var (by rw [degree_var_self]; decide)
  | @sum es h ih =>
    have hd := (IsSmall.sum h).degree_le
    have hle := degree_sum_map_le fun e he => (ih e he).degree_le
    have hs : ∀ e' ∈ es.map (mapBottomUp Pattern.visit), e'.Settled x :=
      List.forall_mem_map.mpr fun e he => (ih e he).settled
    rw [mapBottomUp_sum]
    exact (Pattern.visit_sum_settles hs (hle.trans hd)).trans hle
      (.sum fun e he => (ih e he).refines)
  | @product es h hd ih =>
    have hle := degree_product_map_le fun e he => (ih e he).degree_le
    have hs : ∀ e' ∈ es.map (mapBottomUp Pattern.visit), e'.Settled x :=
      List.forall_mem_map.mpr fun e he => (ih e he).settled
    rw [mapBottomUp_product]
    exact (Pattern.visit_product_settles hs (hle.trans hd)).trans hle
      (.product fun e he => (ih e he).refines)
  | neg ha ih =>
    rw [mapBottomUp_neg]
    exact (Pattern.visit_neg_settles ih.settled (ih.degree_le.trans ha.degree_le)).trans
      ih.degree_le ih.refines.neg
  | div ha hb hdb hne iha ihb =>
    -- A denominator of degree zero has become a literal, and it is still not zero.
    obtain ⟨n, q, hn, hq⟩ := ihb.settled.eq_number (by have := ihb.degree_le; omega)
    have hvalue := (ihb.refines (fun _ => 0) (hb.defined _)).2
    rw [hn, value_number hq] at hvalue
    have hq0 : q ≠ 0 := hvalue ▸ hne fun _ => 0
    rw [mapBottomUp_div]
    have hs := Pattern.visit_div_settles iha.settled hq hq0 (iha.degree_le.trans ha.degree_le)
    rw [← hn] at hs
    exact hs.trans iha.degree_le (iha.refines.div ihb.refines)
  | @power b k hb h0 hk hd ih =>
    have hle : k.toNat * (mapBottomUp Pattern.visit b).degree x ≤ k.toNat * b.degree x :=
      Nat.mul_le_mul_left _ ih.degree_le
    have hint : mapBottomUp Pattern.visit (.int k) = .int k := Pattern.visit_number _
    rw [mapBottomUp_power, hint]
    exact (Pattern.visit_power_settles ih.settled h0 hk (hle.trans hd)).trans hle ih.refines.power

/-- What settles a small polynomial is small, since the degree is not higher. -/
theorem Settles.isSmall {e' e : Expr} (h : e'.Settles x e) (he : e.IsSmall x) : e'.IsSmall x :=
  h.settled.isSmall (h.degree_le.trans he.degree_le)

/-- Repeated passes, one at least, settle a small polynomial. -/
theorem IsSmall.normalizeWithin_settles {e : Expr} (h : e.IsSmall x) (limit : ℕ) :
    (Pattern.normalizeWithin Pattern.library (limit + 1) e).expr.Settles x e := by
  induction limit generalizing e with
  | zero =>
    have hpass := h.pass_settles
    rw [Pattern.normalizeWithin]
    split_ifs with hsame
    · rwa [(hpass.settled.setFree.beq_iff e).mp hsame] at hpass
    · exact hpass
  | succ limit ih =>
    have hpass := h.pass_settles
    rw [Pattern.normalizeWithin]
    split_ifs with hsame
    · rwa [(hpass.settled.setFree.beq_iff e).mp hsame] at hpass
    · exact (ih (hpass.isSmall h)).trans hpass.degree_le hpass.refines

/-- The normal form of a small polynomial is settled, with the same values. -/
theorem IsSmall.normalForm_settles {e : Expr} (h : e.IsSmall x) : e.normalForm.Settles x e :=
  h.normalizeWithin_settles 29

/-- The normal form of a small polynomial is small. -/
theorem IsSmall.isSmall_normalForm {e : Expr} (h : e.IsSmall x) : e.normalForm.IsSmall x :=
  h.normalForm_settles.isSmall h

/-- The normal form of a small polynomial has the same values everywhere. -/
theorem IsSmall.value_normalForm {e : Expr} (h : e.IsSmall x) (ρ : Assignment) :
    e.normalForm.value ρ = e.value ρ :=
  (h.normalForm_settles.refines ρ (h.defined ρ)).2

/-- The normal form of a constant polynomial is a number. -/
theorem IsSmall.normalForm_eq_number {e : Expr} (h : e.IsSmall x) (hd : e.degree x = 0) :
    ∃ n q, e.normalForm = .number n ∧ n.toRat? = some q ∧ ∀ ρ, e.value ρ = q := by
  have hs := h.normalForm_settles
  obtain ⟨n, q, hn, hq⟩ := hs.settled.eq_number (by have := hs.degree_le; omega)
  exact ⟨n, q, hn, hq, fun ρ => by rw [← h.value_normalForm ρ, hn, value_number hq]⟩

end Expr

end SymbolicAlgebra
