import SymbolicAlgebra.Proofs.Expr.Derivative
import SymbolicAlgebra.Proofs.Expr.FreeVariables

/-!
# Expressions without a derivative

A formula, `Expr.IsFormula`, is built from numbers, variables, arithmetic and calls. Of its parts
only a call can be without a derivative: one with the variable in it, of a function that has none or
with a number of arguments other than one, `Expr.IsUndifferentiable`. Such a call may lie anywhere
in the formula, and `Expr.derive_eq_error_iff` says that then, and only then, the formula has no
derivative either.

Differentiation does not go through all operands: an exponent without the variable is left out, and
so is a base. `Expr.derivedOperands` are those that it goes through, and what is left out has no
call with the variable in it.
-/

namespace SymbolicAlgebra

open Differentiation

namespace Expr

variable {b c d e k : Expr} {x : String}

/-! ## Variables and formulas -/

/-- A variable in an operand is one of the expression. -/
theorem containsVar_of_mem_children (hd : d ∈ e.children) (hx : d.containsVar x = true) :
    e.containsVar x = true := by
  have hany : e.children.any (containsVar x) = true := List.any_eq_true.mpr ⟨d, hd, hx⟩
  rw [containsVar_eq]
  cases e with
  | var v => simp [children] at hd
  | _ => exact hany

/-- A variable of a part is a variable of the whole. -/
theorem Occurs.containsVar (h : c.Occurs e) (hx : c.containsVar x = true) :
    e.containsVar x = true := by
  induction h with
  | self => exact hx
  | operand hd _ ih => exact containsVar_of_mem_children hd ih

/-- The expression is built without statements and sets. -/
inductive IsFormula : Expr → Prop
  | number (n : Number) : IsFormula (.number n)
  | var (v : String) : IsFormula (.var v)
  | sum {es : List Expr} (h : ∀ e ∈ es, IsFormula e) : IsFormula (.sum es)
  | product {es : List Expr} (h : ∀ e ∈ es, IsFormula e) : IsFormula (.product es)
  | neg {a : Expr} (ha : IsFormula a) : IsFormula (.neg a)
  | div {a b : Expr} (ha : IsFormula a) (hb : IsFormula b) : IsFormula (.div a b)
  | power {b k : Expr} (hb : IsFormula b) (hk : IsFormula k) : IsFormula (.power b k)
  | apply (f : Func) {es : List Expr} (h : ∀ e ∈ es, IsFormula e) : IsFormula (.apply f es)

/-- Operands of a formula are formulas. -/
theorem IsFormula.of_mem_children (h : e.IsFormula) (hd : d ∈ e.children) : d.IsFormula := by
  cases h with
  | number n | var v => simp [children] at hd
  | sum h | product h | apply f h => exact h d hd
  | neg ha => exact List.mem_singleton.mp hd ▸ ha
  | div ha hb | power ha hb =>
    rcases List.mem_pair.mp hd with rfl | rfl
    · exact ha
    · exact hb

/-! ## Calls without a derivative -/

/-- A call with the variable in it that has no derivative: of the totient, of a function without a
meaning of its own, or with a number of arguments other than one. -/
def IsUndifferentiable (x : String) (c : Expr) : Prop :=
  c.containsVar x = true ∧
    ∃ f args, c = .apply f args ∧ (f = .phi ∨ (∃ name, f = .named name) ∨ args.length ≠ 1)

/-- The derivatives of the totient and of named functions are not known. -/
theorem ofFunc?_eq_none_iff {f : Func} {u : Expr} :
    ofFunc? f u = none ↔ f = .phi ∨ ∃ name, f = .named name := by
  cases f <;> simp [ofFunc?]

/-- A call without a derivative is reported itself. -/
theorem IsUndifferentiable.derive_eq (h : c.IsUndifferentiable x) : c.derive x = .error ⟨c⟩ := by
  obtain ⟨hx, f, args, rfl, hf⟩ := h
  rw [derive.eq_def, hx]
  cases args with
  | nil => rfl
  | cons u rest =>
    cases rest with
    | nil =>
      have hnone : ofFunc? f u = none := by
        rw [ofFunc?_eq_none_iff]
        simpa using hf
      simp only [hnone]
      rfl
    | cons _ _ => rfl

/-- Without the variable the derivative is zero. -/
theorem IsFormula.derive_eq_zero (h : e.IsFormula) (hx : e.containsVar x = false) :
    e.derive x = .ok 0 := by
  rw [derive.eq_def, hx]
  cases h <;> rfl

/-! ## The operands that are differentiated -/

/-- The operands whose derivatives the derivative is made of, in their order. -/
def derivedOperands (x : String) : Expr → List Expr
  | .power b k =>
    if !k.containsVar x then [b] else if !b.containsVar x then [k] else [k, b]
  | e => e.children

/-- Only operands are derived. -/
theorem mem_children_of_mem_derivedOperands (hd : d ∈ e.derivedOperands x) : d ∈ e.children := by
  cases e with
  | power b k =>
    rw [children, List.mem_pair]
    simp only [derivedOperands] at hd
    split_ifs at hd
    · exact .inl (List.mem_singleton.mp hd)
    · exact .inr (List.mem_singleton.mp hd)
    · exact (List.mem_pair.mp hd).symm
  | _ => exact hd

/-- An operand with the variable in it is never left out. -/
theorem mem_derivedOperands (hd : d ∈ e.children) (hx : d.containsVar x = true) :
    d ∈ e.derivedOperands x := by
  cases e with
  | power b k =>
    simp only [derivedOperands]
    rcases List.mem_pair.mp hd with rfl | rfl
    · by_cases hk : k.containsVar x = true <;> simp [hk, hx]
    · by_cases hb : b.containsVar x = true <;> simp [hb, hx]
  | _ => exact hd

/-- The derivatives of a list fail as soon as one does. -/
theorem deriveAll_eq_mapM (x : String) (es : List Expr) : deriveAll x es = es.mapM (derive x) := by
  induction es with
  | nil => rfl
  | cons e es ih => rw [deriveAll, List.mapM_cons, ih]

/-- Deriving a list visits all of it. -/
theorem visits_deriveAll (es : List Expr) : Visits (derive x) es (deriveAll x es) :=
  deriveAll_eq_mapM x es ▸ visits_mapM es

/-- Deriving a power visits what the rule for its exponent asks for. -/
theorem visits_derive_power (hx : (Expr.power b k).containsVar x = true) :
    Visits (derive x) ((Expr.power b k).derivedOperands x) ((Expr.power b k).derive x) := by
  rw [derive.eq_def, hx, derivedOperands]
  by_cases hk : k.containsVar x = true
  · by_cases hb : b.containsVar x = true
    · simp only [hk, hb]
      exact (visits_self k).bind fun k' => (visits_self b).map _
    · simp only [hk, hb]
      exact (visits_self k).map _
  · simp only [hk]
    exact (visits_self b).map _

/-- The derivative of a formula with the variable in it is made of the derivatives of its operands,
unless the formula is a call without one. -/
theorem visits_derive (h : e.IsFormula) (hx : e.containsVar x = true)
    (hcall : ¬ e.IsUndifferentiable x) :
    Visits (derive x) (e.derivedOperands x) (e.derive x) := by
  cases h with
  | number n => simp at hx
  | var v =>
    obtain rfl : v = x := by simpa using hx
    rw [derive_var_self]
    exact visits_pure 1
  | sum h =>
    rw [derive_sum hx]
    exact (visits_deriveAll _).map _
  | product h =>
    rw [derive_product hx]
    exact (visits_deriveAll _).map _
  | neg ha =>
    rw [derive_neg hx]
    exact (visits_self _).map _
  | div ha hb =>
    rw [derive_div hx]
    exact (visits_self _).bind fun a' => (visits_self _).map _
  | power hb hk => exact visits_derive_power hx
  | @apply f es h =>
    -- The call has one argument, and its function has a derivative.
    have hbuiltin : ¬ (f = .phi ∨ (∃ name, f = .named name) ∨ es.length ≠ 1) := fun hf =>
      hcall ⟨hx, f, es, rfl, hf⟩
    rw [← or_assoc, not_or, ne_eq, not_not, List.length_eq_one_iff] at hbuiltin
    obtain ⟨hf, u, rfl⟩ := hbuiltin
    obtain ⟨outer, houter⟩ : ∃ outer, ofFunc? f u = some outer := by
      rw [← Option.isSome_iff_exists, ← Option.ne_none_iff_isSome, ne_eq, ofFunc?_eq_none_iff]
      exact hf
    rw [derive.eq_def, hx]
    simp only [houter]
    exact (visits_self u).map _

/-! ## Errors -/

/-- The expression that is reported is a call without a derivative, and it occurs in the formula. -/
theorem IsFormula.isUndifferentiable_of_derive (h : e.IsFormula) {fault : NotDifferentiable}
    (hfault : e.derive x = .error fault) :
    fault.expr.Occurs e ∧ fault.expr.IsUndifferentiable x := by
  induction e using induction_children with
  | node e ih =>
    cases hx : e.containsVar x with
    | false => cases (h.derive_eq_zero hx).symm.trans hfault
    | true =>
      by_cases hcall : e.IsUndifferentiable x
      · obtain rfl : ⟨e⟩ = fault := Except.error.inj (hcall.derive_eq.symm.trans hfault)
        exact ⟨.self, hcall⟩
      · obtain ⟨d, hd, hd'⟩ := (visits_derive h hx hcall).error fault hfault
        have hmem : d ∈ e.children := mem_children_of_mem_derivedOperands hd
        obtain ⟨hoccurs, hundiff⟩ := ih d hmem (h.of_mem_children hmem) hd'
        exact ⟨.operand hmem hoccurs, hundiff⟩

/-- A call without a derivative is met wherever it occurs. -/
theorem IsFormula.exists_error_of_occurs (h : e.IsFormula) (hc : c.Occurs e)
    (hundiff : c.IsUndifferentiable x) : ∃ fault, e.derive x = .error fault := by
  induction hc with
  | self => exact ⟨_, hundiff.derive_eq⟩
  | @operand d e hd hcd ih =>
    -- Everything on the way down to the call has the variable in it, so that nothing is left out.
    have hdx : d.containsVar x = true := hcd.containsVar hundiff.1
    have hx : e.containsVar x = true := containsVar_of_mem_children hd hdx
    obtain ⟨fault, hfault⟩ := ih (h.of_mem_children hd)
    by_cases hcall : e.IsUndifferentiable x
    · exact ⟨_, hcall.derive_eq⟩
    · cases hderive : e.derive x with
      | error fault' => exact ⟨fault', rfl⟩
      | ok r =>
        obtain ⟨r', hr'⟩ := (visits_derive h hx hcall).ok r hderive d (mem_derivedOperands hd hdx)
        cases hr'.symm.trans hfault

/-- A formula has no derivative if and only if a call without one occurs in it, and such a call is
what is reported. -/
theorem derive_eq_error_iff (h : e.IsFormula) (x : String) :
    ((∃ fault, e.derive x = .error fault) ↔ ∃ c : Expr, c.Occurs e ∧ c.IsUndifferentiable x) ∧
      ∀ fault, e.derive x = .error fault →
        fault.expr.Occurs e ∧ fault.expr.IsUndifferentiable x := by
  have hreported : ∀ fault, e.derive x = .error fault →
      fault.expr.Occurs e ∧ fault.expr.IsUndifferentiable x := fun fault hfault =>
    h.isUndifferentiable_of_derive hfault
  refine ⟨⟨?_, ?_⟩, hreported⟩
  · rintro ⟨fault, hfault⟩
    exact ⟨fault.expr, hreported fault hfault⟩
  · rintro ⟨c, hc, hundiff⟩
    exact h.exists_error_of_occurs hc hundiff

/-- The product `x ^ phi(y) * sin(f(x))`. -/
def powerTimesSine : Expr :=
  .product [.power (.var "x") (.call .phi (.var "y")),
    .call .sin (.call (.named "f") (.var "x"))]

/-- The totient is constant in `x`, but the call of `f` below the sine is not. -/
theorem derive_eq_error_iff_powerTimesSine :
    powerTimesSine.IsFormula ∧ ∃ fault, powerTimesSine.derive "x" = .error fault ∧
      fault.expr.Occurs powerTimesSine ∧ fault.expr.IsUndifferentiable "x" := by
  have hcall : (Expr.call (.named "f") (.var "x")).IsFormula :=
    .apply _ (List.forall_mem_singleton.mpr (.var "x"))
  have hpower : (Expr.power (.var "x") (.call .phi (.var "y"))).IsFormula :=
    .power (.var "x") (.apply _ (List.forall_mem_singleton.mpr (.var "y")))
  have hsin : (Expr.call .sin (.call (.named "f") (.var "x"))).IsFormula :=
    .apply _ (List.forall_mem_singleton.mpr hcall)
  have he : powerTimesSine.IsFormula :=
    .product (List.forall_mem_cons.mpr ⟨hpower, List.forall_mem_singleton.mpr hsin⟩)
  have hoccurs : (Expr.call (.named "f") (.var "x")).Occurs powerTimesSine :=
    .operand (List.mem_cons_of_mem _ List.mem_cons_self) (.operand List.mem_cons_self .self)
  have hundiff : (Expr.call (.named "f") (.var "x")).IsUndifferentiable "x" :=
    ⟨rfl, .named "f", [.var "x"], rfl, .inr (.inl ⟨"f", rfl⟩)⟩
  obtain ⟨hiff, hreported⟩ := derive_eq_error_iff he "x"
  obtain ⟨fault, hfault⟩ := hiff.mpr ⟨_, hoccurs, hundiff⟩
  exact ⟨he, fault, hfault, hreported fault hfault⟩

end Expr

end SymbolicAlgebra
