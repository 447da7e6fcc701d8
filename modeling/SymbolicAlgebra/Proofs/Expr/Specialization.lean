import Mathlib.Data.Set.Finite.Lattice
import Mathlib.Data.Fintype.EquivFin
import SymbolicAlgebra.Proofs.Expr.ExactValue

/-!
# Values for a variable

Putting an expression in the place of a variable has the effect of giving the variable the value of
the expression, `Expr.Defined.substitute_update`. Which expression it is makes no difference to a
transformation from the bottom up that makes the same of it, `Expr.Defined.mapBottomUpM_substitute`.

A variable that does not occur may have any value. There is always such a variable, which makes room
for a new part in an expression.
-/

namespace SymbolicAlgebra

namespace Expr

variable {ρ : Assignment} {w : String} {s : ℚ} {e t : Expr} {es : List Expr}

/-- An expression in the place of a variable counts as the value of the variable. -/
theorem Defined.substitute_update (ht : t.Defined ρ) (hs : t.value ρ = s)
    (h : e.Defined (Function.update ρ w s)) :
    (e.substitute w t).Defined ρ ∧ (e.substitute w t).value ρ = e.value (Function.update ρ w s) := by
  induction h with
  | number hq => exact ⟨.number hq, by rw [substitute_number, value_number hq, value_number hq]⟩
  | var v =>
    obtain rfl | hne := eq_or_ne v w
    · rw [substitute_var_self, value_var, Function.update_self]
      exact ⟨ht, hs⟩
    · rw [substitute_of_not_containsVar w t (by simpa using hne), value_var, value_var,
        Function.update_of_ne hne]
      exact ⟨.var v, rfl⟩
  | sum _ ih =>
    obtain ⟨hds, hvs⟩ := values_of_map ih
    rw [substitute_sum]
    exact ⟨.sum hds, by rw [value_sum, value_sum, hvs]⟩
  | product _ ih =>
    obtain ⟨hds, hvs⟩ := values_of_map ih
    rw [substitute_product]
    exact ⟨.product hds, by rw [value_product, value_product, hvs]⟩
  | @power b k _ hk ih =>
    rw [substitute_power, show (Expr.int k).substitute w t = .int k from rfl]
    exact ⟨.power ih.1 (by rwa [ih.2]), by rw [value_power, value_power, ih.2]⟩
  | neg _ ih =>
    rw [substitute_neg]
    exact ⟨.neg ih.1, by rw [value_neg, value_neg, ih.2]⟩
  | div _ _ hne iha ihb =>
    rw [substitute_div]
    exact ⟨.div iha.1 ihb.1 (by rwa [ihb.2]), by rw [value_div, value_div, iha.2, ihb.2]⟩

/-- Putting a number in the place of a variable with its value changes no value. -/
theorem Defined.substitute {n : Number} (h : e.Defined ρ) (hn : n.toRat? = some (ρ w)) :
    (e.substitute w (.number n)).Defined ρ ∧ (e.substitute w (.number n)).value ρ = e.value ρ := by
  have hself : Function.update ρ w (ρ w) = ρ := Function.update_eq_self w ρ
  have hsub := Defined.substitute_update (e := e) (w := w) (.number hn) (value_number hn)
    (by rwa [hself])
  rwa [hself] at hsub

/-! ## Transformations from the bottom up -/

section Transformation

variable {m : Type → Type} [Monad m] {f : Expr → m Expr}

theorem mapBottomUpAllM_congr {g g' : Expr → Expr}
    (h : ∀ e ∈ es, mapBottomUpM f (g e) = mapBottomUpM f (g' e)) :
    mapBottomUpAllM f (es.map g) = mapBottomUpAllM f (es.map g') := by
  induction es with
  | nil => rfl
  | cons e es ih =>
    obtain ⟨he, hes⟩ := List.forall_mem_cons.mp h
    rw [List.map_cons, List.map_cons, mapBottomUpAllM, mapBottomUpAllM, he, ih hes]

/-- Expressions that are transformed to the same may stand for each other in the place of a variable. -/
theorem Defined.mapBottomUpM_substitute {t t' : Expr} (h : e.Defined ρ)
    (ht : mapBottomUpM f t = mapBottomUpM f t') :
    mapBottomUpM f (e.substitute w t) = mapBottomUpM f (e.substitute w t') := by
  induction h with
  | number => rfl
  | var v =>
    obtain rfl | hne := eq_or_ne v w
    · rwa [substitute_var_self, substitute_var_self]
    · have hv : (Expr.var v).containsVar w = false := by simpa using hne
      rw [substitute_of_not_containsVar w t hv, substitute_of_not_containsVar w t' hv]
  | sum _ ih =>
    rw [substitute_sum, substitute_sum, mapBottomUpM, mapBottomUpM, mapBottomUpAllM_congr ih]
  | product _ ih =>
    rw [substitute_product, substitute_product, mapBottomUpM, mapBottomUpM, mapBottomUpAllM_congr ih]
  | power _ _ ih =>
    rw [substitute_power, substitute_power, mapBottomUpM, mapBottomUpM, ih]
    rfl
  | neg _ ih => rw [substitute_neg, substitute_neg, mapBottomUpM, mapBottomUpM, ih]
  | div _ _ _ iha ihb =>
    rw [substitute_div, substitute_div, mapBottomUpM, mapBottomUpM, iha, ihb]

end Transformation

/-- A transformation that leaves alone what is defined leaves a defined expression as it is. -/
theorem Defined.mapBottomUp_eq_self {f : Expr → Expr} (hf : ∀ e, e.Defined ρ → f e = e)
    (h : e.Defined ρ) : e.mapBottomUp f = e := by
  have hmap : ∀ {es : List Expr}, (∀ e ∈ es, e.mapBottomUp f = e) → es.map (mapBottomUp f) = es :=
    fun hes => (List.map_congr_left hes).trans (List.map_id _)
  induction h with
  | number hq => exact hf _ (.number hq)
  | var v => exact hf _ (.var v)
  | sum h ih => rw [mapBottomUp_sum, hmap ih, hf _ (.sum h)]
  | product h ih => rw [mapBottomUp_product, hmap ih, hf _ (.product h)]
  | @power b k hb hk ih =>
    have hexponent : (Expr.int k).mapBottomUp f = .int k := hf _ (.int k)
    rw [mapBottomUp_power, ih, hexponent, hf _ (.power hb hk)]
  | neg ha ih => rw [mapBottomUp_neg, ih, hf _ (.neg ha)]
  | div ha hb hne iha ihb => rw [mapBottomUp_div, iha, ihb, hf _ (.div ha hb hne)]

/-! ## Variables that do not occur -/

/-- A variable that does not occur may have any value. -/
theorem Defined.update (h : e.Defined ρ) (hw : e.containsVar w = false) (s : ℚ) :
    e.Defined (Function.update ρ w s) ∧ e.value (Function.update ρ w s) = e.value ρ := by
  have hback : Function.update (Function.update ρ w s) w (ρ w) = ρ := by
    rw [Function.update_idem, Function.update_eq_self]
  have hsub := Defined.substitute_update (e := e) (w := w) (.rat (ρ w)) (value_rat (ρ w))
    (ρ := Function.update ρ w s) (by rwa [hback])
  rwa [substitute_of_not_containsVar w _ hw, hback] at hsub

/-- Finitely many variables occur. -/
theorem Defined.finite_variables (h : e.Defined ρ) : {v | e.containsVar v = true}.Finite := by
  have hlist : ∀ {es : List Expr}, (∀ e ∈ es, {v | e.containsVar v = true}.Finite) →
      {v | es.any (containsVar v) = true}.Finite := by
    intro es hes
    refine ((List.finite_toSet es).biUnion hes).subset fun v hv => ?_
    obtain ⟨e, he, hev⟩ := List.any_eq_true.mp hv
    exact Set.mem_biUnion he hev
  induction h with
  | number => simp
  | var v => exact (Set.finite_singleton v).subset fun w hw => (beq_iff_eq.mp hw).symm
  | sum _ ih => simpa only [containsVar_sum] using hlist ih
  | product _ ih => simpa only [containsVar_product] using hlist ih
  | power _ _ ih => simpa [Expr.int] using ih
  | neg _ ih => simpa using ih
  | div _ _ _ iha ihb =>
    refine (iha.union ihb).subset fun v hv => ?_
    simpa using hv

/-- Some variable occurs in none of two expressions. -/
theorem exists_not_containsVar {a b : Expr} (ha : a.Defined ρ) (hb : b.Defined ρ) :
    ∃ w, a.containsVar w = false ∧ b.containsVar w = false := by
  obtain ⟨w, hw⟩ := (ha.finite_variables.union hb.finite_variables).infinite_compl.nonempty
  exact ⟨w, by simpa using hw⟩

end Expr

end SymbolicAlgebra
