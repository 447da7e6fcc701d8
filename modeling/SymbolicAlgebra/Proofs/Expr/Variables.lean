import SymbolicAlgebra.Proofs.Expr.Equality
import SymbolicAlgebra.Proofs.Expr.Traversal

/-!
# Expressions over given variables

`Expr.Over V e` says that no set occurs in `e`, and no variable but those in `V`. For all variables
this is `Expr.SetFree`, and for all but one it says that this one does not occur. A traversal that
keeps it for every `V` brings in neither sets nor variables.
-/

namespace SymbolicAlgebra

namespace Expr

/-- No set occurs in the expression, and all its variables satisfy `V`. -/
inductive Over (V : String → Prop) : Expr → Prop
  | number (n : Number) : Over V (.number n)
  | var {v : String} (hv : V v) : Over V (.var v)
  | boolean (b : Bool) : Over V (.boolean b)
  | sum {es : List Expr} (h : ∀ e ∈ es, Over V e) : Over V (.sum es)
  | product {es : List Expr} (h : ∀ e ∈ es, Over V e) : Over V (.product es)
  | apply (f : Func) {es : List Expr} (h : ∀ e ∈ es, Over V e) : Over V (.apply f es)
  | neg {a : Expr} (ha : Over V a) : Over V (.neg a)
  | not {a : Expr} (ha : Over V a) : Over V (.not a)
  | power {a b : Expr} (ha : Over V a) (hb : Over V b) : Over V (.power a b)
  | div {a b : Expr} (ha : Over V a) (hb : Over V b) : Over V (.div a b)
  | and {a b : Expr} (ha : Over V a) (hb : Over V b) : Over V (.and a b)
  | or {a b : Expr} (ha : Over V a) (hb : Over V b) : Over V (.or a b)
  | compare (r : Comparison) {a b : Expr} (ha : Over V a) (hb : Over V b) :
      Over V (.compare r a b)

variable {V : String → Prop} {e : Expr} {x : String}

theorem Over.setFree (h : e.Over V) : e.SetFree := by
  induction h with
  | number n => exact .number n
  | @var v => exact .var v
  | boolean b => exact .boolean b
  | sum _ ih => exact .sum ih
  | product _ ih => exact .product ih
  | apply f _ ih => exact .apply f ih
  | neg _ ih => exact .neg ih
  | not _ ih => exact .not ih
  | power _ _ iha ihb => exact .power iha ihb
  | div _ _ iha ihb => exact .div iha ihb
  | and _ _ iha ihb => exact .and iha ihb
  | or _ _ iha ihb => exact .or iha ihb
  | compare r _ _ iha ihb => exact .compare r iha ihb

/-- Only variables in `V` occur. -/
theorem Over.of_containsVar (h : e.Over V) (hx : e.containsVar x = true) : V x := by
  have hany : ∀ {es : List Expr}, (∀ e ∈ es, e.containsVar x = true → V x) →
      es.any (containsVar x) = true → V x := by
    intro es ih hes
    obtain ⟨e, he, hex⟩ := List.any_eq_true.mp hes
    exact ih e he hex
  have hor : ∀ {a b : Expr}, (a.containsVar x = true → V x) → (b.containsVar x = true → V x) →
      (a.containsVar x || b.containsVar x) = true → V x := by
    intro a b iha ihb hab
    exact ((Bool.or_eq_true _ _).mp hab).elim iha ihb
  induction h with
  | number n => simp at hx
  | boolean b => simp at hx
  | var hv =>
    rw [containsVar_var, beq_iff_eq] at hx
    exact hx ▸ hv
  | sum _ ih => exact hany ih (containsVar_sum x _ ▸ hx)
  | product _ ih => exact hany ih (containsVar_product x _ ▸ hx)
  | apply f _ ih => exact hany ih (containsVar_apply x f _ ▸ hx)
  | neg _ ih => exact ih (containsVar_neg x _ ▸ hx)
  | not _ ih => exact ih (containsVar_not x _ ▸ hx)
  | power _ _ iha ihb => exact hor iha ihb (containsVar_power x _ _ ▸ hx)
  | div _ _ iha ihb => exact hor iha ihb (containsVar_div x _ _ ▸ hx)
  | and _ _ iha ihb => exact hor iha ihb (containsVar_and x _ _ ▸ hx)
  | or _ _ iha ihb => exact hor iha ihb (containsVar_or x _ _ ▸ hx)
  | compare r _ _ iha ihb => exact hor iha ihb (containsVar_compare x r _ _ ▸ hx)

theorem Over.containsVar_eq_false (h : e.Over V) (hx : ¬ V x) : e.containsVar x = false := by
  rw [← Bool.not_eq_true]
  exact fun hc => hx (h.of_containsVar hc)

/-- An expression without sets is one over the variables that occur in it. -/
theorem SetFree.over (h : e.SetFree) (hV : ∀ v, e.containsVar v = true → V v) : e.Over V := by
  induction h with
  | number n => exact .number n
  | var v => exact .var (hV v (by simp))
  | boolean b => exact .boolean b
  | sum _ ih =>
    exact .sum fun e he => ih e he fun v hv => hV v (by simpa using ⟨e, he, hv⟩)
  | product _ ih =>
    exact .product fun e he => ih e he fun v hv => hV v (by simpa using ⟨e, he, hv⟩)
  | apply f _ ih =>
    exact .apply f fun e he => ih e he fun v hv => hV v (by simpa using ⟨e, he, hv⟩)
  | neg _ ih => exact .neg (ih fun v hv => hV v (by simpa using hv))
  | not _ ih => exact .not (ih fun v hv => hV v (by simpa using hv))
  | power _ _ iha ihb =>
    exact .power (iha fun v hv => hV v (by simp [hv])) (ihb fun v hv => hV v (by simp [hv]))
  | div _ _ iha ihb =>
    exact .div (iha fun v hv => hV v (by simp [hv])) (ihb fun v hv => hV v (by simp [hv]))
  | and _ _ iha ihb =>
    exact .and (iha fun v hv => hV v (by simp [hv])) (ihb fun v hv => hV v (by simp [hv]))
  | or _ _ iha ihb =>
    exact .or (iha fun v hv => hV v (by simp [hv])) (ihb fun v hv => hV v (by simp [hv]))
  | compare r _ _ iha ihb =>
    exact .compare r (iha fun v hv => hV v (by simp [hv])) (ihb fun v hv => hV v (by simp [hv]))

/-- A variable that does not occur may be left out. -/
theorem SetFree.over_ne (h : e.SetFree) (hx : e.containsVar x = false) : e.Over (· ≠ x) := by
  refine h.over ?_
  rintro v hv rfl
  rw [hx] at hv
  exact Bool.noConfusion hv

end Expr

end SymbolicAlgebra
