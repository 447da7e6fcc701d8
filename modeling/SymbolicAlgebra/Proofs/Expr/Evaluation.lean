import Mathlib.Algebra.BigOperators.Group.List.Basic
import Mathlib.Order.WithBotTop
import SymbolicAlgebra.Expr.Evaluation
import SymbolicAlgebra.Proofs.Arithmetic.ExactNumber
import SymbolicAlgebra.Proofs.Expr.Variables

/-!
# Exact evaluation

`Expr.HasValue e q` says that evaluation gives an exact number with the value `q`. An expression that
evaluates has no set in it, so that structural equality decides whether two such expressions are
equal, and no variable but the constants, so that nothing can be put into it.
-/

namespace SymbolicAlgebra

namespace Expr

/-! ## Evaluated expressions -/

mutual

/-- An expression with a value has no set in it, and no variable but the constants. -/
theorem over_of_eval : ∀ {e : Expr} {n : Number}, e.eval = .ok n → e.Over (· ∈ constants)
  -- Sets, comparisons and connectives fail at once; each other node passes on a failed operand.
  | .number _, _, _ => .number _
  | .var v, _, h => by
    rw [eval] at h
    split_ifs at h with hpi he
    · exact .var (by simp [constants, hpi])
    · exact .var (by simp [constants, he])
  | .boolean b, _, _ => .boolean b
  | .sum es, _, h => .sum (over_of_evalFold h)
  | .product es, _, h => .product (over_of_evalFold h)
  | .power b x, n, h => by
    rw [eval] at h
    obtain ⟨p, hb, h⟩ := bind_eq_ok h
    obtain ⟨q, hx, -⟩ := bind_eq_ok h
    exact .power (over_of_eval hb) (over_of_eval hx)
  | .neg a, n, h => by
    rw [eval] at h
    obtain ⟨p, ha, -⟩ := bind_eq_ok h
    exact .neg (over_of_eval ha)
  | .div a b, n, h => by
    rw [eval] at h
    obtain ⟨p, ha, h⟩ := bind_eq_ok h
    obtain ⟨q, hb, -⟩ := bind_eq_ok h
    exact .div (over_of_eval ha) (over_of_eval hb)
  | .apply f es, n, h => by
    rw [eval] at h
    obtain ⟨ns, hes, -⟩ := bind_eq_ok h
    exact .apply f (over_of_evalAll hes)
  | .set s, _, h => by simp [eval] at h
  | .not a, _, h => by simp [eval] at h
  | .and a b, _, h => by simp [eval] at h
  | .or a b, _, h => by simp [eval] at h
  | .compare r a b, _, h => by simp [eval] at h
  | .mem a s, _, h => by simp [eval] at h

/-- The operands of what evaluates have constants as their only variables. -/
theorem over_of_evalFold {f : Number → Number → Number} : ∀ {es : List Expr} {c n : Number},
    evalFold f c es = .ok n → ∀ e ∈ es, e.Over (· ∈ constants)
  | [], _, _, _ => by simp
  | e :: es, c, n, h => by
    rw [evalFold] at h
    obtain ⟨m, he, h⟩ := bind_eq_ok h
    exact List.forall_mem_cons.mpr ⟨over_of_eval he, over_of_evalFold h⟩

/-- All expressions of a list that evaluates have constants as their only variables. -/
theorem over_of_evalAll : ∀ {es : List Expr} {ns : List Number},
    evalAll es = .ok ns → ∀ e ∈ es, e.Over (· ∈ constants)
  | [], _, _ => by simp
  | e :: es, ns, h => by
    rw [evalAll] at h
    obtain ⟨m, he, h⟩ := bind_eq_ok h
    obtain ⟨ms, hes, -⟩ := bind_eq_ok h
    exact List.forall_mem_cons.mpr ⟨over_of_eval he, over_of_evalAll hes⟩

end

/-- Evaluation without errors has a result where evaluation has one. -/
theorem eval?_eq_some_iff {e : Expr} {n : Number} : e.eval? = some n ↔ e.eval = .ok n := by
  rw [eval?]
  cases e.eval with
  | error fault => exact iff_of_false nofun nofun
  | ok m => simp [Except.toOption]

/-- What evaluates to a number has no sets. -/
theorem setFree_of_eval {e : Expr} {n : Number} (h : e.eval = .ok n) : e.SetFree :=
  (over_of_eval h).setFree

/-- Nothing is put into an expression with a value. -/
theorem substitute_of_eval {e : Expr} {n : Number} {x : String} (h : e.eval = .ok n)
    (hx : x ∉ constants) (t : Expr) : e.substitute x t = e :=
  substitute_of_not_containsVar x t ((over_of_eval h).containsVar_eq_false hx)

/-- What the values of all operands have, and what the operation preserves, the result has: that it
stands for a rational, computed in the same way from those that the operands stand for. -/
theorem exists_evalFold {R : Number → ℚ → Prop} {combine : Number → Number → Number}
    {g : ℚ → ℚ → ℚ} {f : Expr → Expr} {v : Expr → ℚ} {es : List Expr} {c : Number} {r : ℚ}
    (hg : ∀ {m n : Number} {p q : ℚ}, R m p → R n q → R (combine m n) (g p q))
    (hes : ∀ e ∈ es, ∃ n, (f e).eval = .ok n ∧ R n (v e)) (hc : R c r) :
    ∃ n, evalFold combine c (es.map f) = .ok n ∧ R n ((es.map v).foldl g r) := by
  induction es generalizing c r with
  | nil => exact ⟨c, rfl, hc⟩
  | cons e es ih =>
    obtain ⟨⟨m, hm, hq⟩, hes⟩ := List.forall_mem_cons.mp hes
    obtain ⟨n, hn, hv⟩ := ih hes (hg hc hq)
    refine ⟨n, ?_, hv⟩
    rw [List.map_cons, evalFold, hm]
    exact hn

/-! ## Exact values -/

/-- The expression evaluates to an exact number with this value. -/
def HasValue (e : Expr) (q : ℚ) : Prop := ∃ n, e.eval = .ok n ∧ n.toRat? = some q

variable {a b e : Expr} {p q : ℚ}

/-- The literal of an exact number evaluates to it. -/
theorem hasValue_number {n : Number} (h : n.toRat? = some q) : (Expr.number n).HasValue q :=
  ⟨n, rfl, h⟩

theorem hasValue_rat (q : ℚ) : (Expr.rat q).HasValue q := hasValue_number (Number.toRat?_ofRat q)

namespace HasValue

/-- An expression with an exact value has no sets. -/
theorem setFree (h : e.HasValue q) : e.SetFree := by
  obtain ⟨n, hn, -⟩ := h
  exact setFree_of_eval hn

/-- There is one exact value at most. -/
theorem unique (hp : e.HasValue p) (hq : e.HasValue q) : p = q := by
  obtain ⟨m, hm, hp⟩ := hp
  obtain ⟨n, hn, hq⟩ := hq
  obtain rfl : m = n := Except.ok.inj (hm.symm.trans hn)
  exact Option.some.inj (hp.symm.trans hq)

/-- The exact value is that of the number to which an expression evaluates. -/
theorem eval? (h : e.HasValue q) : ∃ n, e.eval? = some n ∧ n.toRat? = some q := by
  obtain ⟨n, hn, hq⟩ := h
  exact ⟨n, by rw [Expr.eval?, hn]; rfl, hq⟩

/-- A sum evaluates to the sum of the values. -/
theorem sum {f : Expr → Expr} {v : Expr → ℚ} {es : List Expr}
    (h : ∀ e ∈ es, (f e).HasValue (v e)) : (Expr.sum (es.map f)).HasValue (es.map v).sum := by
  obtain ⟨n, hn, hq⟩ := exists_evalFold (R := fun n q => n.toRat? = some q) Number.toRat?_add h
    (c := 0) (r := 0) rfl
  exact ⟨n, hn, by rw [hq, List.sum_eq_foldl]⟩

/-- A product evaluates to the product of the values. -/
theorem product {f : Expr → Expr} {v : Expr → ℚ} {es : List Expr}
    (h : ∀ e ∈ es, (f e).HasValue (v e)) : (Expr.product (es.map f)).HasValue (es.map v).prod := by
  obtain ⟨n, hn, hq⟩ := exists_evalFold (R := fun n q => n.toRat? = some q) Number.toRat?_mul h
    (c := 1) (r := 1) rfl
  exact ⟨n, hn, by rw [hq, List.prod_eq_foldl]⟩

/-- An expression with a sign evaluates to the negated value. -/
theorem neg (h : a.HasValue p) : (Expr.neg a).HasValue (-p) := by
  obtain ⟨m, hm, hp⟩ := h
  exact ⟨-m, by rw [eval, hm]; rfl, Number.toRat?_neg hp⟩

/-- A quotient evaluates unless the denominator is zero. -/
theorem div (ha : a.HasValue p) (hb : b.HasValue q) (hq : q ≠ 0) :
    (Expr.div a b).HasValue (p / q) := by
  obtain ⟨m, hm, hmp⟩ := ha
  obtain ⟨n, hn, hnq⟩ := hb
  exact ⟨m / n, by rw [eval, hm, hn]; rfl, Number.toRat?_div hmp hnq hq⟩

/-- A power evaluates if the exponent fits into a word of 32 bits, and if it is not negative where
the base is zero. -/
theorem power {k : ℤ} (h : b.HasValue p) (hk : toSignedWord? 32 k = some k) (hp : p = 0 → 0 ≤ k) :
    (Expr.power b (.int k)).HasValue (p ^ k) := by
  obtain ⟨m, hm, hmp⟩ := h
  refine ⟨m.pow (.int k), by rw [eval, hm]; rfl, ?_⟩
  rw [Number.pow_eq hmp hk hp, Number.toRat?_ofRat]

end HasValue

end Expr

/-! ## Bounds -/

/-- A rational or an infinity. -/
abbrev Bound := WithBotTop ℚ

/-- Every rational is below the upper end. -/
theorem Bound.coe_lt_top (q : ℚ) : (q : Bound) < ⊤ := WithBot.coe_lt_coe.mpr (WithTop.coe_lt_top q)

/-- Every rational is above the lower end. -/
theorem Bound.bot_lt_coe (q : ℚ) : (⊥ : Bound) < q := WithBot.bot_lt_coe _

/-- The value of an exact number or an infinity. -/
def Number.toBound? : Number → Option Bound
  | .int n => some ((n : ℚ) : Bound)
  | .rat r => some (r : Bound)
  | .real .posInf => some ⊤
  | .real .negInf => some ⊥
  | _ => none

/-- An exact number is a bound. -/
theorem Number.toBound?_eq_coe {n : Number} {q : ℚ} (h : n.toRat? = some q) :
    n.toBound? = some (q : Bound) := by
  obtain ⟨k, rfl, rfl⟩ | rfl := eq_int_or_eq_rat h
  · rfl
  · rfl

/-- Bounds are exact numbers and the two infinities. -/
theorem Number.toBound?_cases {n : Number} {α : Bound} (h : n.toBound? = some α) :
    (∃ q, n.toRat? = some q ∧ α = (q : Bound)) ∨ (n = .real .posInf ∧ α = ⊤) ∨
      (n = .real .negInf ∧ α = ⊥) := by
  cases n with
  | int k => exact .inl ⟨k, rfl, (Option.some.inj h).symm⟩
  | rat r => exact .inl ⟨r, rfl, (Option.some.inj h).symm⟩
  | complex z => simp [toBound?] at h
  | real y =>
    cases y with
    | posInf => exact .inr (.inl ⟨rfl, (Option.some.inj h).symm⟩)
    | negInf => exact .inr (.inr ⟨rfl, (Option.some.inj h).symm⟩)
    | finite d => simp [toBound?] at h
    | nan => simp [toBound?] at h

/-- The numeric order of exact numbers and infinities is that of their values. -/
theorem Number.compare?_eq_cmp {m n : Number} {α β : Bound} (hm : m.toBound? = some α)
    (hn : n.toBound? = some β) : m.compare? n = some (cmp α β) := by
  have hlt : ∀ q : ℚ, cmp (q : Bound) ⊤ = .lt := fun q =>
    (cmp_eq_lt_iff _ _).mpr (Bound.coe_lt_top q)
  have hgt : ∀ q : ℚ, cmp (q : Bound) ⊥ = .gt := fun q =>
    (cmp_eq_gt_iff _ _).mpr (Bound.bot_lt_coe q)
  have hinf : cmp (⊥ : Bound) ⊤ = .lt := (cmp_eq_lt_iff _ _).mpr bot_lt_top
  -- Against an infinity only its sign counts, but integers and rationals get there separately.
  rcases toBound?_cases hm with ⟨p, hp, rfl⟩ | ⟨rfl, rfl⟩ | ⟨rfl, rfl⟩
  · rcases toBound?_cases hn with ⟨q, hq, rfl⟩ | ⟨rfl, rfl⟩ | ⟨rfl, rfl⟩
    · rw [compare?_eq hp hq, WithBotTop.coe_strictMono.cmp_map_eq]
    · rw [hlt]
      obtain ⟨k, rfl, rfl⟩ | rfl := eq_int_or_eq_rat hp <;> rfl
    · rw [hgt]
      obtain ⟨k, rfl, rfl⟩ | rfl := eq_int_or_eq_rat hp <;> rfl
  · rcases toBound?_cases hn with ⟨q, hq, rfl⟩ | ⟨rfl, rfl⟩ | ⟨rfl, rfl⟩
    · rw [← cmp_swap, hlt]
      obtain ⟨k, rfl, rfl⟩ | rfl := eq_int_or_eq_rat hq <;> rfl
    · rw [cmp_self_eq_eq]
      rfl
    · rw [← cmp_swap, hinf]
      rfl
  · rcases toBound?_cases hn with ⟨q, hq, rfl⟩ | ⟨rfl, rfl⟩ | ⟨rfl, rfl⟩
    · rw [← cmp_swap, hgt]
      obtain ⟨k, rfl, rfl⟩ | rfl := eq_int_or_eq_rat hq <;> rfl
    · rw [hinf]
      rfl
    · rw [cmp_self_eq_eq]
      rfl

namespace Expr

/-- The expression evaluates to an exact number or an infinity. -/
def HasBound (e : Expr) (α : Bound) : Prop := ∃ n, e.eval = .ok n ∧ n.toBound? = some α

/-- An exact value is a bound. -/
theorem HasValue.hasBound {e : Expr} {q : ℚ} (h : e.HasValue q) : e.HasBound (q : Bound) := by
  obtain ⟨n, hn, hq⟩ := h
  exact ⟨n, hn, Number.toBound?_eq_coe hq⟩

theorem hasBound_posInf : posInf.HasBound ⊤ := ⟨_, rfl, rfl⟩

theorem hasBound_negInf : negInf.HasBound ⊥ := ⟨_, rfl, rfl⟩

/-- An expression that is a bound has no sets. -/
theorem HasBound.setFree {e : Expr} {α : Bound} (h : e.HasBound α) : e.SetFree := by
  obtain ⟨n, hn, -⟩ := h
  exact setFree_of_eval hn

/-- An expression is one bound at most. -/
theorem HasBound.unique {e : Expr} {α β : Bound} (hα : e.HasBound α) (hβ : e.HasBound β) :
    α = β := by
  obtain ⟨m, hm, hα⟩ := hα
  obtain ⟨n, hn, hβ⟩ := hβ
  obtain rfl : m = n := Except.ok.inj (hm.symm.trans hn)
  exact Option.some.inj (hα.symm.trans hβ)

/-- The bound is that of the number to which an expression evaluates. -/
theorem HasBound.eval? {e : Expr} {α : Bound} (h : e.HasBound α) :
    ∃ n, e.eval? = some n ∧ n.toBound? = some α := by
  obtain ⟨n, hn, hα⟩ := h
  exact ⟨n, by rw [Expr.eval?, hn]; rfl, hα⟩

end Expr

end SymbolicAlgebra
