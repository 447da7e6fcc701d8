import Mathlib.Algebra.BigOperators.Group.List.Basic
import SymbolicAlgebra.Proofs.Arithmetic.ExactNumber
import SymbolicAlgebra.Proofs.Expr.Equality
import SymbolicAlgebra.Proofs.Expr.Traversal

/-!
# Exact values

The exact field expressions are built from exact numbers and variables by sums, products, signs,
quotients and powers with an integer literal as exponent. At an assignment of rationals to the
variables such an expression has a value in the rationals, unless a division by zero or a negative
power of zero occurs in it. The value is split into a total function and its domain:

* `Expr.value ρ e` is the value at the assignment `ρ`;
* `Expr.Defined ρ e` says that `e` is an exact field expression that has a value there.

A rewriting is sound when it never takes a value away: `e'.Refines e` says that `e'` is defined, with
the same value, at every assignment at which `e` is. The main statements here are that refinement is
a congruence, and that a bottom-up transformation refines when it does at every node.
-/

namespace SymbolicAlgebra

/-- Values for the variables. -/
abbrev Assignment := String → ℚ

/-- What is left out of a sum makes no difference to it when it is zero. -/
theorem sum_map_filter {α : Type} {keep : α → Bool} {f : α → ℚ} {as : List α}
    (h : ∀ a ∈ as, keep a = false → f a = 0) : ((as.filter keep).map f).sum = (as.map f).sum := by
  induction as with
  | nil => rfl
  | cons a as ih =>
    obtain ⟨ha, has⟩ := List.forall_mem_cons.mp h
    rw [List.filter_cons, List.map_cons, List.sum_cons]
    cases hkeep : keep a with
    | true => rw [if_pos rfl, List.map_cons, List.sum_cons, ih has]
    | false => rw [if_neg Bool.false_ne_true, ih has, ha hkeep, zero_add]

namespace Expr

/-- The value in exact arithmetic. It means nothing where the expression is not `Defined`. -/
def value (ρ : Assignment) (e : Expr) : ℚ :=
  e.fold fun node below =>
    match node, below with
    | .number n, _ => n.toRat?.getD 0
    | .var v, _ => ρ v
    | .sum _, vs => vs.sum
    | .product _, vs => vs.prod
    | .power _ x, [b, _] => b ^ x.toInt?.getD 0
    | .neg _, [a] => -a
    | .div _ _, [a, b] => a / b
    | _, _ => 0

variable {ρ : Assignment} {e e' : Expr}

/-- The literal of an exact number has this number as value. -/
theorem value_number {n : Number} {q : ℚ} (h : n.toRat? = some q) :
    (Expr.number n).value ρ = q := by
  simp [value, fold, h]

@[simp]
theorem value_int (k : ℤ) : (Expr.int k).value ρ = k := value_number rfl

/-- The numerals of the source have their values. -/
theorem value_ofNat (n : ℕ) : (OfNat.ofNat n : Expr).value ρ = n := value_int n

@[simp]
theorem value_rat (r : ℚ) : (Expr.rat r).value ρ = r := value_number (Number.toRat?_ofRat r)

@[simp]
theorem value_var (v : String) : (Expr.var v).value ρ = ρ v := rfl

/-- The value of a sum is the sum of the values, and so for every other operation. -/
@[simp]
theorem value_sum (es : List Expr) : (Expr.sum es).value ρ = (es.map (value ρ)).sum := by
  rw [value, fold, foldAll_eq_map]
  rfl

@[simp]
theorem value_product (es : List Expr) : (Expr.product es).value ρ = (es.map (value ρ)).prod := by
  rw [value, fold, foldAll_eq_map]
  rfl

@[simp]
theorem value_power (b : Expr) (k : ℤ) : (Expr.power b (.int k)).value ρ = b.value ρ ^ k := rfl

@[simp]
theorem value_neg (a : Expr) : (Expr.neg a).value ρ = -a.value ρ := rfl

@[simp]
theorem value_div (a b : Expr) : (Expr.div a b).value ρ = a.value ρ / b.value ρ := rfl

/-- The expression is an exact field expression, and no division by zero and no negative power of
zero occurs in it at the assignment. -/
inductive Defined (ρ : Assignment) : Expr → Prop
  | number {n : Number} {q : ℚ} (h : n.toRat? = some q) : Defined ρ (.number n)
  | var (v : String) : Defined ρ (.var v)
  | sum {es : List Expr} (h : ∀ e ∈ es, Defined ρ e) : Defined ρ (.sum es)
  | product {es : List Expr} (h : ∀ e ∈ es, Defined ρ e) : Defined ρ (.product es)
  | power {b : Expr} {k : ℤ} (hb : Defined ρ b) (hk : b.value ρ = 0 → 0 ≤ k) :
      Defined ρ (.power b (.int k))
  | neg {a : Expr} (ha : Defined ρ a) : Defined ρ (.neg a)
  | div {a b : Expr} (ha : Defined ρ a) (hb : Defined ρ b) (h : b.value ρ ≠ 0) :
      Defined ρ (.div a b)

namespace Defined

/-- Literals are defined. -/
theorem int (k : ℤ) : Defined ρ (.int k) := .number rfl

theorem ofNat (n : ℕ) : Defined ρ (OfNat.ofNat n) := .int n

theorem rat (r : ℚ) : Defined ρ (.rat r) := .number (Number.toRat?_ofRat r)

/-- A literal is defined only if the number is exact. -/
theorem exists_toRat? {n : Number} (h : Defined ρ (.number n)) : ∃ q, n.toRat? = some q := by
  cases h with
  | number h => exact ⟨_, h⟩

/-- The terms of a defined sum are defined. -/
theorem of_mem_sum {es : List Expr} (h : Defined ρ (.sum es)) : ∀ e ∈ es, Defined ρ e := by
  cases h with
  | sum h => exact h

/-- The factors of a defined product are defined. -/
theorem of_mem_product {es : List Expr} (h : Defined ρ (.product es)) : ∀ e ∈ es, Defined ρ e := by
  cases h with
  | product h => exact h

/-- There are no sets in an exact field expression. -/
theorem setFree (h : Defined ρ e) : e.SetFree := by
  induction h with
  | number h => exact .number _
  | var v => exact .var v
  | sum _ ih => exact .sum ih
  | product _ ih => exact .product ih
  | power _ _ ih => exact .power ih (.number _)
  | neg _ ih => exact .neg ih
  | div _ _ _ iha ihb => exact .div iha ihb

/-- What is known to be zero has the value zero. -/
theorem isZero_iff (h : Defined ρ e) (hz : e.isZero = true) : e.value ρ = 0 := by
  cases h with
  | number h => rw [value_number h]; exact (Number.isZero_iff h).mp hz
  | _ => simp [Expr.isZero] at hz

/-- What is known to be one has the value one. -/
theorem isOne_iff (h : Defined ρ e) (hone : e.isOne = true) : e.value ρ = 1 := by
  cases h with
  | number h => rw [value_number h]; exact (Number.isOne_iff h).mp hone
  | _ => simp [Expr.isOne] at hone

end Defined

/-! ## Refinement -/

/-- The first expression is defined wherever the second is, with the same value. -/
def Refines (e' e : Expr) : Prop :=
  ∀ ρ, e.Defined ρ → e'.Defined ρ ∧ e'.value ρ = e.value ρ

/-- Every expression refines itself. -/
theorem Refines.refl (e : Expr) : e.Refines e := fun _ h => ⟨h, rfl⟩

/-- A change to expressions without values only is a refinement. -/
theorem Refines.of_eq (h : ∀ ρ, e.Defined ρ → e' = e) : e'.Refines e := by
  intro ρ hd
  rw [h ρ hd]
  exact ⟨hd, rfl⟩

/-- Refinement is transitive. -/
theorem Refines.trans {a b c : Expr} (hab : a.Refines b) (hbc : b.Refines c) : a.Refines c := by
  intro ρ hc
  obtain ⟨hb, hbv⟩ := hbc ρ hc
  obtain ⟨ha, hav⟩ := hab ρ hb
  exact ⟨ha, hav.trans hbv⟩

/-! ### Congruence -/

/-- Operands that keep their values under a change keep them together. -/
theorem values_of_map {ρ' : Assignment} {f : Expr → Expr} {es : List Expr}
    (h : ∀ e ∈ es, (f e).Defined ρ' ∧ (f e).value ρ' = e.value ρ) :
    (∀ e ∈ es.map f, e.Defined ρ') ∧ (es.map f).map (value ρ') = es.map (value ρ) := by
  refine ⟨List.forall_mem_map.mpr fun e he => (h e he).1, ?_⟩
  rw [List.map_map]
  exact List.map_congr_left fun e he => (h e he).2

/-- Operands that are refined one by one keep their values. -/
theorem values_of_refines {f : Expr → Expr} {es : List Expr} (h : ∀ e ∈ es, (f e).Refines e)
    (hes : ∀ e ∈ es, e.Defined ρ) :
    (∀ e ∈ es.map f, e.Defined ρ) ∧ (es.map f).map (value ρ) = es.map (value ρ) :=
  values_of_map fun e he => h e he ρ (hes e he)

/-- Refining the terms refines a sum. -/
theorem Refines.sum {f : Expr → Expr} {es : List Expr} (h : ∀ e ∈ es, (f e).Refines e) :
    (Expr.sum (es.map f)).Refines (.sum es) := by
  intro ρ hd
  obtain ⟨hds, hvs⟩ := values_of_refines h hd.of_mem_sum
  exact ⟨.sum hds, by rw [value_sum, value_sum, hvs]⟩

/-- Refining the factors refines a product. -/
theorem Refines.product {f : Expr → Expr} {es : List Expr} (h : ∀ e ∈ es, (f e).Refines e) :
    (Expr.product (es.map f)).Refines (.product es) := by
  intro ρ hd
  obtain ⟨hds, hvs⟩ := values_of_refines h hd.of_mem_product
  exact ⟨.product hds, by rw [value_product, value_product, hvs]⟩

/-- Refining the operand refines an expression with a sign. -/
theorem Refines.neg {a a' : Expr} (h : a'.Refines a) : (Expr.neg a').Refines (.neg a) := by
  rintro ρ (_ | _ | _ | _ | _ | ha)
  obtain ⟨hd, hv⟩ := h ρ ha
  exact ⟨.neg hd, by rw [value_neg, value_neg, hv]⟩

/-- Refining numerator and denominator refines a quotient. -/
theorem Refines.div {a a' b b' : Expr} (ha : a'.Refines a) (hb : b'.Refines b) :
    (Expr.div a' b').Refines (.div a b) := by
  intro ρ hd
  cases hd with
  | div hda hdb hne =>
    obtain ⟨hda', hva⟩ := ha ρ hda
    obtain ⟨hdb', hvb⟩ := hb ρ hdb
    exact ⟨.div hda' hdb' (by rwa [hvb]), by rw [value_div, value_div, hva, hvb]⟩

/-- Refining the base refines a power. -/
theorem Refines.power {b b' : Expr} {k : ℤ} (h : b'.Refines b) :
    (Expr.power b' (.int k)).Refines (.power b (.int k)) := by
  intro ρ hd
  cases hd with
  | power hdb hk =>
    obtain ⟨hdb', hvb⟩ := h ρ hdb
    exact ⟨.power hdb' (by rwa [hvb]), by rw [value_power, value_power, hvb]⟩

/-! ### Bottom-up transformations -/

/-- Where every operand keeps its value, all transformed operands have the same values. -/
theorem values_of_mapBottomUpAllM {f : Expr → Option Expr} {es es' : List Expr}
    (hes : ∀ e ∈ es, ∀ e', mapBottomUpM f e = some e' → e'.Defined ρ ∧ e'.value ρ = e.value ρ)
    (h : mapBottomUpAllM f es = some es') :
    (∀ e' ∈ es', e'.Defined ρ) ∧ es'.map (value ρ) = es.map (value ρ) := by
  induction mapBottomUpAllM_eq_some_iff.mp h with
  | nil => simp
  | cons he hrest ih =>
    obtain ⟨hd, hv⟩ := hes _ (by simp) _ he
    obtain ⟨hds, hvs⟩ := ih (fun e hmem => hes e (by simp [hmem]))
      (mapBottomUpAllM_eq_some_iff.mpr hrest)
    exact ⟨by simpa using ⟨hd, hds⟩, by simp [hv, hvs]⟩

/-- A bottom-up transformation refines when it does at every node and leaves numbers alone. -/
theorem refines_of_mapBottomUpM {f : Expr → Option Expr}
    (hf : ∀ node node', f node = some node' → node'.Refines node)
    (hn : ∀ n e', f (.number n) = some e' → e' = .number n) (h : mapBottomUpM f e = some e') :
    e'.Refines e := by
  intro ρ hd
  -- Transformed operands have the values of the old ones by induction, so that the node over them is
  -- defined where the old node is. Only then does the step at the node itself apply.
  induction hd generalizing e' with
  | number hq => exact hf _ _ h ρ (.number hq)
  | var v => exact hf _ _ h ρ (.var v)
  | sum hes ih =>
    obtain ⟨es', hall, h⟩ := Option.bind_eq_some_iff.mp h
    obtain ⟨hds, hvs⟩ := values_of_mapBottomUpAllM (fun e he _ => ih e he) hall
    obtain ⟨hd', hv⟩ := hf _ _ h ρ (.sum hds)
    exact ⟨hd', by rw [hv, value_sum, value_sum, hvs]⟩
  | product hes ih =>
    obtain ⟨es', hall, h⟩ := Option.bind_eq_some_iff.mp h
    obtain ⟨hds, hvs⟩ := values_of_mapBottomUpAllM (fun e he _ => ih e he) hall
    obtain ⟨hd', hv⟩ := hf _ _ h ρ (.product hds)
    exact ⟨hd', by rw [hv, value_product, value_product, hvs]⟩
  | @power b k hb hk ih =>
    obtain ⟨b', hb', h⟩ := Option.bind_eq_some_iff.mp h
    obtain ⟨x', hx', h⟩ := Option.bind_eq_some_iff.mp h
    -- An exponent has to stay a literal for the power to mean anything.
    obtain rfl : x' = .int k := hn _ _ hx'
    obtain ⟨hbd, hbv⟩ := ih hb'
    obtain ⟨hd', hv⟩ := hf _ _ h ρ (.power hbd (by rwa [hbv]))
    exact ⟨hd', by rw [hv, value_power, value_power, hbv]⟩
  | neg ha ih =>
    obtain ⟨a', ha', h⟩ := Option.bind_eq_some_iff.mp h
    obtain ⟨had, hav⟩ := ih ha'
    obtain ⟨hd', hv⟩ := hf _ _ h ρ (.neg had)
    exact ⟨hd', by rw [hv, value_neg, value_neg, hav]⟩
  | div ha hb hne iha ihb =>
    obtain ⟨a', ha', h⟩ := Option.bind_eq_some_iff.mp h
    obtain ⟨b', hb', h⟩ := Option.bind_eq_some_iff.mp h
    obtain ⟨had, hav⟩ := iha ha'
    obtain ⟨hbd, hbv⟩ := ihb hb'
    obtain ⟨hd', hv⟩ := hf _ _ h ρ (.div had hbd (by rwa [hbv]))
    exact ⟨hd', by rw [hv, value_div, value_div, hav, hbv]⟩

end Expr

end SymbolicAlgebra
