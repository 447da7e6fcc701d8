import SymbolicAlgebra.Proofs.SetExpr.Listing

/-!
# Common points of two lists

The intersection of two lists keeps the points of the first that are also written in the second,
`SetExpr.mem_points_intersect`, while membership in a list goes by the values of its points. So the
intersection decides membership by the values of the common points only.

A point of the intersection lies in both lists. The converse holds for a value exactly if the lists
write it alike, `SetExpr.WriteAlike`: if both have the value, they have it in a common point. It
fails for the lists of `1 + 1` and of `2`, whose intersection is empty.
-/

namespace SymbolicAlgebra

namespace SetExpr

variable {a b : SetExpr} {e : Expr} {q : ℚ}

/-! ## Membership by value -/

/-- Membership in a list of points with values is decided by the values. -/
theorem IsFinite.contains? (ha : a.IsFinite) (hv : ∀ p ∈ a.points, ∃ q, p.HasValue q)
    (he : e.HasValue q) : Decides (a.contains? e) (∃ p ∈ a.points, p.HasValue q) := by
  cases a with
  | empty => exact decides_false (by simp [points])
  | finite es => exact contains?_finite (fun _ _ => id) hv he
  | _ => exact ha.elim

/-- A list of points with values contains the values that are listed. -/
theorem IsFinite.contains?_eq_some_true_iff (ha : a.IsFinite)
    (hv : ∀ p ∈ a.points, ∃ q, p.HasValue q) (he : e.HasValue q) :
    a.contains? e = some true ↔ ∃ p ∈ a.points, p.HasValue q := by
  obtain ⟨r, hr, hiff⟩ := ha.contains? hv he
  rw [hr, Option.some.injEq, hiff]

/-! ## The points that are kept -/

/-- An empty operand leaves nothing in common. -/
theorem intersect_of_isEmpty (h : (a.isEmpty || b.isEmpty) = true) : a.intersect b = .empty := by
  unfold SetExpr.intersect
  exact if_pos h

/-- Two lists with points meet in the points of the first that are written in the second, or in all
points of the first if the lists are structurally equal. -/
theorem intersect_finite {es ps : List Expr} (hes : (SetExpr.finite es).isEmpty = false)
    (hps : (SetExpr.finite ps).isEmpty = false) :
    (SetExpr.finite es).intersect (.finite ps) =
      if SetExpr.same (.finite es) (.finite ps) then .finite es
      else .ofElements (es.filter fun e => ps.any (· == e)) := by
  unfold SetExpr.intersect
  rw [if_neg (by simp [hes, hps])]
  rfl

/-- Two lists of points have a list of points in common. -/
theorem IsFinite.intersect (ha : a.IsFinite) (hb : b.IsFinite) : (a.intersect b).IsFinite := by
  by_cases hempty : (a.isEmpty || b.isEmpty) = true
  · rw [intersect_of_isEmpty hempty]
    trivial
  · obtain ⟨hae, hbe⟩ := Bool.or_eq_false_iff.mp (Bool.eq_false_iff.mpr hempty)
    obtain ⟨es, rfl⟩ : ∃ es, a = .finite es := ⟨_, ha.eq_finite hae⟩
    obtain ⟨ps, rfl⟩ : ∃ ps, b = .finite ps := ⟨_, hb.eq_finite hbe⟩
    rw [intersect_finite hae hbe]
    split_ifs
    · trivial
    · exact isFinite_ofElements _

/-- The points of the intersection are those that are written in both lists. -/
theorem mem_points_intersect (ha : a.IsFinite) (hb : b.IsFinite) (haf : ∀ p ∈ a.points, p.SetFree)
    (hbf : ∀ p ∈ b.points, p.SetFree) (p : Expr) :
    p ∈ (a.intersect b).points ↔ p ∈ a.points ∧ p ∈ b.points := by
  by_cases hempty : (a.isEmpty || b.isEmpty) = true
  · have hnil : a.points = [] ∨ b.points = [] :=
      ((Bool.or_eq_true _ _).mp hempty).imp points_eq_nil points_eq_nil
    rw [intersect_of_isEmpty hempty]
    refine iff_of_false List.not_mem_nil ?_
    rintro ⟨hpa, hpb⟩
    rcases hnil with hnil | hnil
    · simp [hnil] at hpa
    · simp [hnil] at hpb
  · obtain ⟨hae, hbe⟩ := Bool.or_eq_false_iff.mp (Bool.eq_false_iff.mpr hempty)
    obtain ⟨es, rfl⟩ : ∃ es, a = .finite es := ⟨_, ha.eq_finite hae⟩
    obtain ⟨ps, rfl⟩ : ∃ ps, b = .finite ps := ⟨_, hb.eq_finite hbe⟩
    change ∀ p ∈ es, p.SetFree at haf
    change ∀ p ∈ ps, p.SetFree at hbf
    rw [intersect_finite hae hbe]
    show _ ↔ p ∈ es ∧ p ∈ ps
    split_ifs with hsame
    · -- Structurally equal lists have the same points, so that all of them are kept.
      rw [SetExpr.same, Bool.and_eq_true, allAmong_iff haf] at hsame
      exact ⟨fun hp => ⟨hp, hsame.2 p hp⟩, And.left⟩
    · have hfilter : ∀ e ∈ es.filter fun e => ps.any (· == e), e.SetFree := fun e he =>
        haf e (List.mem_of_mem_filter he)
      rw [points_ofElements, mem_distinct hfilter, List.mem_filter, any_beq_iff hbf]

/-! ## The intersection and its parts -/

/-- If both lists have the value, they have it in a common point. -/
def WriteAlike (q : ℚ) (as bs : List Expr) : Prop :=
  (∃ p ∈ as, p.HasValue q) → (∃ p ∈ bs, p.HasValue q) → ∃ p ∈ as, p ∈ bs ∧ p.HasValue q

/--
Membership in the intersection of two lists is decided by the values of their common points. It is
membership in both lists for the values that the lists write alike, and for no others.
-/
theorem contains?_intersect_of_isFinite (ha : a.IsFinite) (hb : b.IsFinite)
    (hav : ∀ p ∈ a.points, ∃ q, p.HasValue q) (hbv : ∀ p ∈ b.points, ∃ q, p.HasValue q)
    (he : e.HasValue q) :
    Decides ((a.intersect b).contains? e) (∃ p ∈ a.points, p ∈ b.points ∧ p.HasValue q) ∧
      (((a.intersect b).contains? e = some true ↔
          a.contains? e = some true ∧ b.contains? e = some true) ↔
        WriteAlike q a.points b.points) := by
  have hpoints := mem_points_intersect ha hb (setFree_of_forall (fun _ _ => id) hav)
    (setFree_of_forall (fun _ _ => id) hbv)
  have hvalues : ∀ p ∈ (a.intersect b).points, ∃ q, p.HasValue q := fun p hp =>
    hav p ((hpoints p).mp hp).1
  have hcommon : Decides ((a.intersect b).contains? e)
      (∃ p ∈ a.points, p ∈ b.points ∧ p.HasValue q) := by
    simpa only [hpoints, and_assoc] using (ha.intersect hb).contains? hvalues he
  refine ⟨hcommon, ?_⟩
  obtain ⟨r, hr, hiff⟩ := hcommon
  rw [ha.contains?_eq_some_true_iff hav he, hb.contains?_eq_some_true_iff hbv he, hr,
    Option.some.injEq, hiff]
  constructor
  · exact fun h hpa hpb => h.mpr ⟨hpa, hpb⟩
  -- Values that are written alike are points of both sets, structurally.
  · intro halike
    refine ⟨?_, fun h => halike h.1 h.2⟩
    rintro ⟨p, hpa, hpb, hp⟩
    exact ⟨⟨p, hpa, hp⟩, p, hpb, hp⟩

/-- Both lists have the value 3 in the point `6 / 2`, and one of them also in another. -/
theorem contains?_intersect_of_quotient_in_both :
    (SetExpr.finite [3, 6 / 2]).IsFinite ∧ (SetExpr.finite [1 + 1, 6 / 2]).IsFinite ∧
      WriteAlike 3 [3, 6 / 2] [1 + 1, 6 / 2] ∧
      (((SetExpr.finite [3, 6 / 2]).intersect (.finite [1 + 1, 6 / 2])).contains? 3 = some true ↔
        (SetExpr.finite [3, 6 / 2]).contains? 3 = some true ∧
          (SetExpr.finite [1 + 1, 6 / 2]).contains? 3 = some true) := by
  have hthree : (3 : Expr).HasValue 3 := Expr.hasValue_number rfl
  have hquotient : (6 / 2 : Expr).HasValue 3 := ⟨3, by with_unfolding_all rfl, rfl⟩
  have hsum : (1 + 1 : Expr).HasValue 2 := ⟨2, by with_unfolding_all rfl, rfl⟩
  have halike : WriteAlike 3 [3, 6 / 2] [1 + 1, 6 / 2] := fun _ _ =>
    ⟨6 / 2, by simp, by simp, hquotient⟩
  have hiff := (contains?_intersect_of_isFinite (a := .finite [3, 6 / 2])
    (b := .finite [1 + 1, 6 / 2]) trivial trivial
    (List.forall_mem_cons.mpr ⟨⟨3, hthree⟩, List.forall_mem_singleton.mpr ⟨3, hquotient⟩⟩)
    (List.forall_mem_cons.mpr ⟨⟨2, hsum⟩, List.forall_mem_singleton.mpr ⟨3, hquotient⟩⟩)
    hthree).2
  exact ⟨trivial, trivial, halike, hiff.mpr halike⟩

/-- The value 2 lies in the lists of `1 + 1` and of `2`, but not in their intersection. -/
theorem not_contains?_intersect_one_add_one :
    ¬ (((SetExpr.finite [1 + 1]).intersect (.finite [2])).contains? 2 = some true ↔
      (SetExpr.finite [1 + 1]).contains? 2 = some true ∧
        (SetExpr.finite [2]).contains? 2 = some true) := by
  decide +kernel

end SetExpr

end SymbolicAlgebra
