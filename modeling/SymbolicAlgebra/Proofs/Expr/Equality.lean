import SymbolicAlgebra.Expr.Equality

/-!
# Structural equality and equality of trees

Structural equality is reflexive. It departs from equality of trees only where sets are compared: on
expressions without sets the two agree, so that a comparison there decides equality.
-/

namespace SymbolicAlgebra

/-! ## Reflexivity -/

mutual

/-- Every expression is equal to itself. -/
theorem Expr.same_refl : ∀ e : Expr, Expr.same e e = true
  | .number _ | .var _ | .boolean _ => by simp [Expr.same]
  | .sum es | .product es | .apply _ es => by simp [Expr.same, sameAll_refl es]
  | .neg a | .not a => by simp [Expr.same, Expr.same_refl a]
  | .power a b | .div a b | .and a b | .or a b | .compare _ a b => by
    simp [Expr.same, Expr.same_refl a, Expr.same_refl b]
  | .set s => by simp [Expr.same, SetExpr.same_refl s]
  | .mem a s => by simp [Expr.same, Expr.same_refl a, SetExpr.same_refl s]

/-- Every list is equal to itself element by element. -/
theorem sameAll_refl : ∀ es : List Expr, sameAll es es = true
  | [] => by rw [sameAll]
  | e :: es => by rw [sameAll, Expr.same_refl e, sameAll_refl es, Bool.and_self]

/-- The elements of a list are among those of any list that has them. -/
theorem allAmong_of_subset : ∀ as bs : List Expr, as ⊆ bs → allAmong as bs = true
  | [], _, _ => by rw [allAmong]
  | a :: as, bs, h => by
    obtain ⟨ha, has⟩ := List.cons_subset.mp h
    rw [allAmong, allAmong_of_subset as bs has, Bool.and_true]
    exact List.any_eq_true.mpr ⟨a, ha, Expr.same_refl a⟩

/-- Every set is equal to itself. -/
theorem SetExpr.same_refl : ∀ s : SetExpr, SetExpr.same s s = true
  | .empty => by rw [SetExpr.same]
  | .finite es => by
    rw [SetExpr.same, allAmong_of_subset es es (List.Subset.refl es), Bool.and_true]
    exact beq_self_eq_true _
  | .interval l _ r _ => by simp [SetExpr.same, Expr.same_refl l, Expr.same_refl r]
  | .union s t | .intersection s t => by
    rw [SetExpr.same, SetExpr.same_refl s, SetExpr.same_refl t, Bool.and_self]

end

/-! ## Expressions without sets -/

/-- No set occurs in the expression. -/
inductive Expr.SetFree : Expr → Prop
  | number (n : Number) : SetFree (.number n)
  | var (v : String) : SetFree (.var v)
  | boolean (b : Bool) : SetFree (.boolean b)
  | sum {es : List Expr} (h : ∀ e ∈ es, SetFree e) : SetFree (.sum es)
  | product {es : List Expr} (h : ∀ e ∈ es, SetFree e) : SetFree (.product es)
  | apply (f : Func) {es : List Expr} (h : ∀ e ∈ es, SetFree e) : SetFree (.apply f es)
  | neg {a : Expr} (ha : SetFree a) : SetFree (.neg a)
  | not {a : Expr} (ha : SetFree a) : SetFree (.not a)
  | power {a b : Expr} (ha : SetFree a) (hb : SetFree b) : SetFree (.power a b)
  | div {a b : Expr} (ha : SetFree a) (hb : SetFree b) : SetFree (.div a b)
  | and {a b : Expr} (ha : SetFree a) (hb : SetFree b) : SetFree (.and a b)
  | or {a b : Expr} (ha : SetFree a) (hb : SetFree b) : SetFree (.or a b)
  | compare (r : Comparison) {a b : Expr} (ha : SetFree a) (hb : SetFree b) :
      SetFree (.compare r a b)

/-- Lists are compared element by element. -/
theorem sameAll_iff_of_forall {as bs : List Expr}
    (h : ∀ a ∈ as, ∀ b, Expr.same a b = true ↔ a = b) : sameAll as bs = true ↔ as = bs := by
  induction as generalizing bs with
  | nil => cases bs <;> simp [sameAll]
  | cons a as ih =>
    cases bs with
    | nil => simp [sameAll]
    | cons b bs =>
      have ha : Expr.same a b = true ↔ a = b := h a (by simp) b
      have has : sameAll as bs = true ↔ as = bs := ih fun e he => h e (by simp [he])
      simp [sameAll, ha, has]

namespace Expr

/-- Equality decides sameness, when the left side has no set. -/
theorem SetFree.same_iff {a : Expr} (h : a.SetFree) (b : Expr) : same a b = true ↔ a = b := by
  induction h generalizing b with
  | number n => cases b <;> simp [same]
  | var v => cases b <;> simp [same]
  | boolean v => cases b <;> simp [same]
  | sum _ ih => cases b <;> simp [same, sameAll_iff_of_forall ih]
  | product _ ih => cases b <;> simp [same, sameAll_iff_of_forall ih]
  | apply f _ ih => cases b <;> simp [same, sameAll_iff_of_forall ih]
  | neg _ ih => cases b <;> simp [same, ih]
  | not _ ih => cases b <;> simp [same, ih]
  | power _ _ ih₁ ih₂ => cases b <;> simp [same, ih₁, ih₂]
  | div _ _ ih₁ ih₂ => cases b <;> simp [same, ih₁, ih₂]
  | and _ _ ih₁ ih₂ => cases b <;> simp [same, ih₁, ih₂]
  | or _ _ ih₁ ih₂ => cases b <;> simp [same, ih₁, ih₂]
  | compare r _ _ ih₁ ih₂ => cases b <;> simp [same, ih₁, ih₂, and_assoc]

theorem SetFree.beq_iff {a : Expr} (h : a.SetFree) (b : Expr) : (a == b) = true ↔ a = b :=
  h.same_iff b

/-- Lists of expressions without sets are the same when they are equal. -/
theorem sameAll_iff {as : List Expr} (h : ∀ a ∈ as, a.SetFree) (bs : List Expr) :
    sameAll as bs = true ↔ as = bs :=
  sameAll_iff_of_forall fun a ha => (h a ha).same_iff

end Expr

end SymbolicAlgebra
