import SymbolicAlgebra.Proofs.Expr.Traversal
import SymbolicAlgebra.Proofs.Expr.WellFormed

/-!
# Substitution in well-formed expressions

A list of points is rebuilt without repetitions after a substitution, as different points may become
equal. The result is well-formed again, `WellFormed.substitute`, and expressions that are equal
before are equal afterwards, `WellFormed.same_substitute`: the lists of two equal sets may lose
different points, but each list keeps one of those that become equal.
-/

namespace SymbolicAlgebra

namespace Expr

/-! ## The points and bounds of a set -/

/-- Folding over a set folds over its entities. -/
theorem foldSet_eq_map {α : Type} (f : Expr → List α → α) (s : SetExpr) :
    foldSet f s = s.entities.map (fold f) := by
  induction s using SetExpr.entities.induct with
  | case1 => rw [foldSet, SetExpr.entities, List.map_nil]
  | case2 es => rw [foldSet, foldAll_eq_map, SetExpr.entities]
  | case3 l lc r rc => rw [foldSet, SetExpr.entities, List.map_cons, List.map_singleton]
  | case4 a b iha ihb => rw [foldSet, iha, ihb, SetExpr.entities, List.map_append]
  | case5 a b iha ihb => rw [foldSet, iha, ihb, SetExpr.entities, List.map_append]

@[simp]
theorem containsVar_set (x : String) (s : SetExpr) :
    containsVar x (.set s) = s.entities.any (containsVar x) := by
  rw [containsVar, fold, foldSet_eq_map, List.any_map]
  rfl

@[simp]
theorem containsVar_mem (x : String) (a : Expr) (s : SetExpr) :
    containsVar x (.mem a s) = (a.containsVar x || (Expr.set s).containsVar x) := by
  rw [containsVar_set, containsVar, fold, foldSet_eq_map, List.any_cons, List.any_map]
  rfl

/-- A well-formed set stays as it is when its points and bounds do. -/
theorem WellFormed.mapEntities_eq_self {f : Expr → Expr} : ∀ {s : SetExpr},
    (Expr.set s).WellFormed → (∀ e ∈ s.entities, f e = e) → s.mapEntities f = s
  | .empty, _, _ => rfl
  | .finite es, h, hf => by
    rw [SetExpr.entities] at hf
    rw [SetExpr.mapEntities_finite, List.map_congr_left hf, List.map_id',
      distinct_eq_self h.finite_inv.2]
  | .interval l lc r rc, _, hf => by
    rw [SetExpr.mapEntities_interval, hf l (by simp [SetExpr.entities]),
      hf r (by simp [SetExpr.entities])]
  | .union a b, h, hf => by
    obtain ⟨ha, hb⟩ := h.union_inv
    rw [SetExpr.entities, List.forall_mem_append] at hf
    rw [SetExpr.mapEntities_union, ha.mapEntities_eq_self hf.1, hb.mapEntities_eq_self hf.2]
  | .intersection a b, h, hf => by
    obtain ⟨ha, hb⟩ := h.intersection_inv
    rw [SetExpr.entities, List.forall_mem_append] at hf
    rw [SetExpr.mapEntities_intersection, ha.mapEntities_eq_self hf.1,
      hb.mapEntities_eq_self hf.2]

/-! ## Substitution -/

section Substitute

variable {x : String} {t : Expr} {s : SetExpr} {a b e : Expr}

/-- Replacing goes on in the points and bounds of a set. Where none of them has the variable, the
list of points is not rebuilt, but a well-formed one would not change. -/
theorem WellFormed.substitute_set (h : (Expr.set s).WellFormed) :
    (Expr.set s).substitute x t = .set (s.mapEntities fun e => e.substitute x t) := by
  cases hx : (Expr.set s).containsVar x with
  | false =>
    have hstay : ∀ e ∈ s.entities, e.substitute x t = e := by
      rw [containsVar_set, List.any_eq_false] at hx
      exact fun e he => substitute_of_not_containsVar x t (Bool.eq_false_iff.mpr (hx e he))
    rw [substitute_of_not_containsVar x t hx, h.mapEntities_eq_self hstay]
  | true => exact substitute_of_containsVar x t hx nofun

/-- Substitution goes into both sides of a membership. -/
theorem WellFormed.substitute_mem (h : (Expr.set s).WellFormed) (a : Expr) :
    (Expr.mem a s).substitute x t =
      .mem (a.substitute x t) (s.mapEntities fun e => e.substitute x t) := by
  cases hx : (Expr.mem a s).containsVar x with
  | false =>
    obtain ⟨ha, hs⟩ := Bool.or_eq_false_iff.mp (containsVar_mem x a s ▸ hx)
    have hset := h.substitute_set (x := x) (t := t)
    rw [substitute_of_not_containsVar x t hs, Expr.set.injEq] at hset
    rw [substitute_of_not_containsVar x t hx, substitute_of_not_containsVar x t ha, ← hset]
  | true => exact substitute_of_containsVar x t hx nofun

/-- Well-formed expressions stay so when a well-formed one is put in. -/
theorem WellFormed.substitute (h : e.WellFormed) (ht : t.WellFormed) :
    (e.substitute x t).WellFormed := by
  have hset : ∀ {s : SetExpr}, (Expr.set s).WellFormed →
      ((Expr.set s).substitute x t).WellFormed →
      (Expr.set (s.mapEntities fun e => e.substitute x t)).WellFormed :=
    fun hs h => hs.substitute_set ▸ h
  induction h with
  | number n => exact .number n
  | var v =>
    by_cases hv : v = x
    · rw [hv, substitute_var_self]
      exact ht
    · rw [substitute_of_not_containsVar x t (by simpa using hv)]
      exact .var v
  | boolean b => exact .boolean b
  | sum _ ih =>
    rw [substitute_sum]
    exact .sum (List.forall_mem_map.mpr ih)
  | product _ ih =>
    rw [substitute_product]
    exact .product (List.forall_mem_map.mpr ih)
  | apply f _ ih =>
    rw [substitute_apply]
    exact .apply f (List.forall_mem_map.mpr ih)
  | neg _ ih => exact substitute_neg x t _ ▸ .neg ih
  | not _ ih => exact substitute_not x t _ ▸ .not ih
  | power _ _ iha ihb => exact substitute_power x t _ _ ▸ .power iha ihb
  | div _ _ iha ihb => exact substitute_div x t _ _ ▸ .div iha ihb
  | and _ _ iha ihb => exact substitute_and x t _ _ ▸ .and iha ihb
  | or _ _ iha ihb => exact substitute_or x t _ _ ▸ .or iha ihb
  | compare r _ _ iha ihb => exact substitute_compare x t r _ _ ▸ .compare r iha ihb
  | empty =>
    rw [WellFormed.empty.substitute_set]
    exact .empty
  | finite h hd ih =>
    -- Points that become equal are merged, so that the remaining ones are different again.
    rw [(WellFormed.finite h hd).substitute_set, SetExpr.mapEntities_finite]
    exact .distinct (List.forall_mem_map.mpr ih)
  | interval lc rc hl hr ihl ihr =>
    rw [(WellFormed.interval lc rc hl hr).substitute_set]
    exact .interval lc rc ihl ihr
  | union ha hb iha ihb =>
    rw [(WellFormed.union ha hb).substitute_set]
    exact .union (hset ha iha) (hset hb ihb)
  | intersection ha hb iha ihb =>
    rw [(WellFormed.intersection ha hb).substitute_set]
    exact .intersection (hset ha iha) (hset hb ihb)
  | mem _ hs iha ihs =>
    rw [hs.substitute_mem]
    exact .mem iha (hset hs ihs)

/-- Structurally equal lists stay so after substitution, if their members do. -/
theorem sameAll_substitute {as bs : List Expr}
    (h : ∀ a ∈ as, ∀ {b}, b.WellFormed → same a b = true →
      same (a.substitute x t) (b.substitute x t) = true)
    (hbs : ∀ b ∈ bs, b.WellFormed) (hsame : sameAll as bs = true) :
    sameAll (as.map fun e => e.substitute x t) (bs.map fun e => e.substitute x t) = true := by
  induction as generalizing bs with
  | nil => cases bs <;> simp [sameAll] at hsame ⊢
  | cons a as ih =>
    obtain ⟨ha, has⟩ := List.forall_mem_cons.mp h
    cases bs with
    | nil => simp [sameAll] at hsame
    | cons b bs =>
      obtain ⟨hb, hbs⟩ := List.forall_mem_cons.mp hbs
      rw [sameAll, Bool.and_eq_true] at hsame
      rw [List.map_cons, List.map_cons, sameAll, Bool.and_eq_true]
      exact ⟨ha hb hsame.1, ih has hbs hsame.2⟩

/-- The points that are kept of equal sets make up equal sets again. -/
theorem same_distinct_substitute {as bs : List Expr} (has : (Expr.set (.finite as)).WellFormed)
    (hbs : (Expr.set (.finite bs)).WellFormed) (ht : t.WellFormed)
    (h : ∀ a ∈ as, ∀ {b}, b.WellFormed → same a b = true →
      same (a.substitute x t) (b.substitute x t) = true)
    (hsame : SetExpr.same (.finite as) (.finite bs) = true) :
    SetExpr.same (.finite (distinct (as.map fun e => e.substitute x t)))
      (.finite (distinct (bs.map fun e => e.substitute x t))) = true := by
  obtain ⟨hab, hba⟩ := (has.same_finite_iff_among hbs).mp hsame
  have hwfa : ∀ a ∈ as, a.WellFormed := has.finite_inv.1
  have hwfb : ∀ b ∈ bs, b.WellFormed := hbs.finite_inv.1
  refine same_distinct (List.forall_mem_map.mpr fun a ha => (hwfa a ha).substitute ht)
    (List.forall_mem_map.mpr fun b hb => (hwfb b hb).substitute ht)
    (List.forall_mem_map.mpr fun a ha => ?_) (List.forall_mem_map.mpr fun b hb => ?_)
  · obtain ⟨b, hb, hsame⟩ := hab a ha
    exact ⟨_, List.mem_map_of_mem hb, h a ha (hwfb b hb) hsame⟩
  · obtain ⟨a, ha, hsame⟩ := hba b hb
    have hsub := h a ha (hwfb b hb) ((hwfb b hb).same_symm hsame)
    exact ⟨_, List.mem_map_of_mem ha, ((hwfa a ha).substitute ht).same_symm hsub⟩

/-- Equal expressions are equal after a substitution. -/
theorem WellFormed.same_substitute (ha : a.WellFormed) (hb : b.WellFormed) (ht : t.WellFormed)
    (h : same a b = true) : same (a.substitute x t) (b.substitute x t) = true := by
  -- Without sets, structurally equal expressions are identical.
  have hleaf : ∀ {a : Expr}, a.SetFree → ∀ b, same a b = true →
      same (a.substitute x t) (b.substitute x t) = true := by
    intro a ha b h
    rw [← (ha.same_iff b).mp h]
    exact same_refl _
  have hset : ∀ {a b : SetExpr}, (Expr.set a).WellFormed → (Expr.set b).WellFormed →
      (∀ {c}, c.WellFormed → same (.set a) c = true →
        same ((Expr.set a).substitute x t) (c.substitute x t) = true) →
      SetExpr.same a b = true →
      SetExpr.same (a.mapEntities fun e => e.substitute x t)
        (b.mapEntities fun e => e.substitute x t) = true := by
    intro a b ha hb ih h
    rw [← same_set, ← ha.substitute_set, ← hb.substitute_set]
    exact ih hb (same_set a b ▸ h)
  induction ha generalizing b with
  | number n => exact hleaf (.number n) b h
  | var v => exact hleaf (.var v) b h
  | boolean v => exact hleaf (.boolean v) b h
  | sum _ ih | product _ ih | apply f _ ih =>
    cases hb <;> simp [same] at h
    rename_i hbs
    simp [substitute_sum, substitute_product, substitute_apply, same, h, sameAll_substitute ih hbs]
  | neg _ ih | not _ ih =>
    cases hb <;> simp [same] at h
    rename_i hb
    simp [substitute_neg, substitute_not, same, ih hb h]
  | power _ _ iha ihb | div _ _ iha ihb | and _ _ iha ihb | or _ _ iha ihb
  | compare r _ _ iha ihb =>
    cases hb <;> simp [same] at h
    rename_i hb₁ hb₂
    simp [substitute_power, substitute_div, substitute_and, substitute_or, substitute_compare,
      same, h, iha hb₁, ihb hb₂]
  | empty =>
    cases hb <;> simp [same, SetExpr.same] at h
    exact same_refl _
  | finite has hd ih =>
    cases hb with
    | finite hbs hd' =>
      -- Points that become equal are merged, on both sides in an order of their own.
      rw [(WellFormed.finite has hd).substitute_set, (WellFormed.finite hbs hd').substitute_set,
        same_set, SetExpr.mapEntities_finite, SetExpr.mapEntities_finite]
      exact same_distinct_substitute (.finite has hd) (.finite hbs hd') ht ih (same_set _ _ ▸ h)
    | _ => simp [same, SetExpr.same] at h
  | interval lc rc hl hr ihl ihr =>
    cases hb <;> simp [same, SetExpr.same] at h
    rename_i hl' hr'
    obtain ⟨⟨⟨hll, rfl⟩, hrr⟩, rfl⟩ := h
    rw [(WellFormed.interval _ _ hl hr).substitute_set,
      (WellFormed.interval _ _ hl' hr').substitute_set]
    simp [same, SetExpr.same, ihl hl' hll, ihr hr' hrr]
  | union ha₁ ha₂ ih₁ ih₂ =>
    cases hb <;> simp [same, SetExpr.same] at h
    rename_i hb₁ hb₂
    rw [(WellFormed.union ha₁ ha₂).substitute_set, (WellFormed.union hb₁ hb₂).substitute_set]
    simp [same, SetExpr.same, hset ha₁ hb₁ ih₁ h.1, hset ha₂ hb₂ ih₂ h.2]
  | intersection ha₁ ha₂ ih₁ ih₂ =>
    cases hb <;> simp [same, SetExpr.same] at h
    rename_i hb₁ hb₂
    rw [(WellFormed.intersection ha₁ ha₂).substitute_set,
      (WellFormed.intersection hb₁ hb₂).substitute_set]
    simp [same, SetExpr.same, hset ha₁ hb₁ ih₁ h.1, hset ha₂ hb₂ ih₂ h.2]
  | mem _ hs iha ihs =>
    cases hb <;> simp [same] at h
    rename_i hb hs'
    rw [hs.substitute_mem, hs'.substitute_mem, same, iha hb h.1, hset hs hs' ihs h.2, Bool.and_self]

end Substitute

end Expr

end SymbolicAlgebra
