import Mathlib.Algebra.Order.BigOperators.Group.List
import SymbolicAlgebra.Proofs.Expr.Children
import SymbolicAlgebra.Proofs.Simplify.Termination
import SymbolicAlgebra.Solution.ZeroSet

/-!
# Levels of the search for zeros

`Expr.zeroSet` takes an expression apart to as many levels as its normal form has nodes, and each part
is brought into normal form before it is taken apart itself. These levels are enough,
`Expr.zeroSet_eq_within`: once the passes have come to an end, they leave the parts alone too, since a
lighter part would make the whole lighter. So each level has fewer nodes than the one before.

This is said of rational expressions, for which the passes end, and where thirty of them are enough.
-/

namespace SymbolicAlgebra

open Pattern (Rests)

variable {x : String} {e c : Expr}

/-! ## Sizes -/

namespace Expr

/-- The size counts the node and what is in its children. -/
theorem size_eq (e : Expr) : e.size = 1 + (e.children.map size).sum := by
  have hfold : e.size = (e.children.map size).foldl (· + ·) (1 + 0) := by
    rw [size, fold_eq]
    rfl
  rw [hfold, List.foldl_assoc, ← List.sum_eq_foldl]

theorem size_pos (e : Expr) : 0 < e.size := by
  rw [size_eq]
  omega

/-- An operand has fewer nodes. -/
theorem size_lt_of_mem_children (h : c ∈ e.children) : c.size < e.size := by
  have hle : c.size ≤ (e.children.map size).sum :=
    List.single_le_sum (fun _ _ => Nat.zero_le _) _ (List.mem_map_of_mem h)
  rw [size_eq e]
  omega

end Expr

/-! ## Expressions at rest -/

/-- An expression at rest is its own normal form. -/
theorem Pattern.Rests.normalForm_eq (h : Rests e) : e.normalForm = e := by
  have hsame : (e == e) = true := Expr.same_refl e
  have hnormalize : (normalizeWithin library 30 e).expr = e := by
    rw [normalizeWithin, h.pass_eq]
    dsimp only
    rw [if_pos hsame]
  exact hnormalize

namespace ZeroSet

/-- Searches with as many levels as an expression at rest has nodes, or more, have one outcome. -/
theorem within_eq_of_size_le {levels levels' : ℕ} (he : e.IsRational) (h : Rests e)
    (hl : e.size ≤ levels) (hl' : e.size ≤ levels') : within x levels e = within x levels' e := by
  induction levels generalizing e levels' with
  | zero => exact absurd (e.size_pos.trans_le hl) (lt_irrefl 0)
  | succ levels ih =>
    obtain ⟨levels', rfl⟩ : ∃ k, levels' = k + 1 :=
      Nat.exists_eq_succ_of_ne_zero (e.size_pos.trans_le hl').ne'
    -- The parts are at rest too, and have fewer nodes.
    have hpart : ∀ c ∈ e.children, within x levels c.normalForm = within x levels' c.normalForm := by
      intro c hc
      have hrests := h.of_mem_children he hc
      have hlt := Expr.size_lt_of_mem_children hc
      rw [hrests.normalForm_eq]
      exact ih (he.of_mem_children hc) hrests (by omega) (by omega)
    unfold within
    cases he with
    | @product es hes =>
      have hfactors : (es.filter (Expr.containsVar x)).mapM (fun f => within x levels f.normalForm) =
          (es.filter (Expr.containsVar x)).mapM fun f => within x levels' f.normalForm :=
        Expr.mapM_congr fun f hf => hpart f (List.mem_of_mem_filter hf)
      simp only [hfactors]
    | @neg a ha => simp only [hpart a List.mem_cons_self]
    | @power b k hb _ => simp only [hpart b List.mem_cons_self]
    | @div a b ha hb => simp only [hpart a List.mem_cons_self]
    | _ => rfl

end ZeroSet

/-- More levels than the normal form has nodes change nothing. -/
theorem Expr.zeroSet_eq_within {levels : ℕ} (he : e.IsRational)
    (h : Pattern.restsWithin 30 e = true) (hl : e.normalForm.size ≤ levels) :
    e.zeroSet x = ZeroSet.within x levels e.normalForm := by
  obtain ⟨hr, hrests⟩ := Pattern.rests_normalizeWithin he h
  exact ZeroSet.within_eq_of_size_le hr hrests le_rfl hl

end SymbolicAlgebra
