import SymbolicAlgebra.Proofs.SetExpr.Union

/-!
# Listed points

`SetExpr.points` are the points that a set lists. A union lists no other points than its parts, with
or without values. It lists all of them if the parts are listings, `SetExpr.IsListing`: lists of
different points without sets in them. Without this a union could lose a point, because sets that
are structurally equal are not united, and structural equality leaves the order of points open.
-/

namespace SymbolicAlgebra

namespace SetExpr

/-- The points listed. -/
def points : SetExpr → List Expr
  | .finite es => es
  | _ => []

variable {a b s : SetExpr} {es : List Expr} {p : Expr}

/-! ## No other points -/

/-- Insertion adds no other point than the one given. -/
theorem mem_of_mem_insertDistinct {e : Expr} (h : p ∈ insertDistinct es e) : p ∈ es ∨ p = e := by
  unfold insertDistinct at h
  split_ifs at h
  · exact .inl h
  · simpa using h

/-- A merged list has no other points than the two lists. -/
theorem mem_of_mem_foldl_insertDistinct {ps : List Expr} (h : p ∈ ps.foldl insertDistinct es) :
    p ∈ es ∨ p ∈ ps := by
  induction ps generalizing es with
  | nil => exact .inl h
  | cons e ps ih =>
    rcases ih h with h | h
    · rcases mem_of_mem_insertDistinct h with h | rfl
      · exact .inl h
      · exact .inr List.mem_cons_self
    · exact .inr (List.mem_cons_of_mem _ h)

/-- Elements are listed once each. -/
theorem points_ofElements (es : List Expr) : (ofElements es).points = distinct es := by
  rw [ofElements]
  cases distinct es <;> rfl

/-- Only the elements given are listed. -/
theorem mem_of_mem_points_ofElements (h : p ∈ (ofElements es).points) : p ∈ es := by
  rw [points_ofElements] at h
  exact (mem_of_mem_foldl_insertDistinct h).resolve_left (by simp)

/-- An interval and points make an interval, or a union that is not worked out. -/
theorem points_unionWithPoints (i : Interval) (ps : List Expr) :
    (i.unionWithPoints ps).points = [] := by
  unfold Interval.unionWithPoints
  split <;> rfl

/-- A union lists no other points than its parts. -/
theorem mem_or_mem_of_mem_points_unite (h : p ∈ (a.unite b).points) :
    p ∈ a.points ∨ p ∈ b.points := by
  unfold unite at h
  split_ifs at h
  · exact .inr h
  · exact .inl h
  · split at h
    · exact mem_of_mem_foldl_insertDistinct h
    · simp [points_unionWithPoints] at h
    · simp [points_unionWithPoints] at h
    · simp [points] at h

/-- A union of many sets lists no other points than they do. -/
theorem mem_or_exists_of_mem_points_foldl_unite {sets : List SetExpr}
    (h : p ∈ (sets.foldl unite a).points) : p ∈ a.points ∨ ∃ s ∈ sets, p ∈ s.points := by
  induction sets generalizing a with
  | nil => exact .inl h
  | cons s sets ih =>
    rcases ih h with h | ⟨t, ht, hp⟩
    · exact (mem_or_mem_of_mem_points_unite h).imp_right fun hp => ⟨s, List.mem_cons_self, hp⟩
    · exact .inr ⟨t, List.mem_cons_of_mem _ ht, hp⟩

/-! ## All points -/

/-- The set lists its points: they are different, and have no sets in them. -/
structure IsListing (s : SetExpr) : Prop where
  isFinite : s.IsFinite
  setFree : ∀ p ∈ s.points, p.SetFree
  nodup : s.points.Nodup

theorem IsListing.empty : IsListing .empty := ⟨trivial, by simp [points], List.nodup_nil⟩

/-- Elements without sets make a listing, and all of them are in it. -/
theorem isListing_ofElements (hes : ∀ e ∈ es, e.SetFree) :
    (ofElements es).IsListing ∧ ∀ e, e ∈ (ofElements es).points ↔ e ∈ es := by
  simp only [points_ofElements, mem_distinct hes, implies_true, and_true]
  refine ⟨isFinite_ofElements es, ?_, ?_⟩
  · rw [points_ofElements]
    exact fun e he => hes e ((mem_distinct hes).mp he)
  · rw [points_ofElements]
    exact nodup_distinct hes

/-- The finite sets with points are the lists of points. -/
theorem IsFinite.eq_finite (h : s.IsFinite) (hs : s.isEmpty = false) : s = .finite s.points := by
  cases s with
  | finite es => rfl
  | empty => cases hs
  | _ => exact h.elim

theorem points_eq_nil (hs : s.isEmpty = true) : s.points = [] := by
  cases s with
  | finite es => exact List.isEmpty_iff.mp hs
  | _ => rfl

/-- Structurally equal listings have the same points. -/
theorem IsListing.mem_iff_of_same (ha : a.IsListing) (hb : b.IsListing)
    (hae : a.isEmpty = false) (hbe : b.isEmpty = false) (h : SetExpr.same a b = true) (p : Expr) :
    p ∈ a.points ↔ p ∈ b.points := by
  rw [ha.isFinite.eq_finite hae, hb.isFinite.eq_finite hbe] at h
  exact SetExpr.mem_iff_of_same ha.setFree ha.nodup h p

/-- No point is lost in a union of listings. -/
theorem IsListing.unite (ha : a.IsListing) (hb : b.IsListing) :
    (a.unite b).IsListing ∧ ∀ p, p ∈ (a.unite b).points ↔ p ∈ a.points ∨ p ∈ b.points := by
  unfold SetExpr.unite
  split_ifs with hae hbe
  · exact ⟨hb, by simp [points_eq_nil hae]⟩
  · refine ⟨ha, fun p => ⟨.inl, fun hp => hp.elim id fun hpb => ?_⟩⟩
    cases hbe' : b.isEmpty with
    | true => simp [points_eq_nil hbe'] at hpb
    | false =>
      rw [hbe', Bool.false_or] at hbe
      exact (ha.mem_iff_of_same hb (by simpa using hae) hbe' hbe p).mpr hpb
  · -- Both list points, and they are merged.
    simp only [Bool.or_eq_true, not_or, Bool.not_eq_true] at hae hbe
    have hmem : ∀ p, p ∈ b.points.foldl insertDistinct a.points ↔ p ∈ a.points ∨ p ∈ b.points :=
      fun p => mem_foldl_insertDistinct ha.setFree hb.setFree
    rw [ha.isFinite.eq_finite hae, hb.isFinite.eq_finite hbe.1]
    refine ⟨⟨trivial, fun p hp => ?_, ?_⟩, hmem⟩
    · exact ((hmem p).mp hp).elim (ha.setFree p) (hb.setFree p)
    · exact nodup_foldl_insertDistinct ha.setFree hb.setFree ha.nodup

/-- No point is lost in a union of many listings. -/
theorem IsListing.foldl_unite {sets : List SetExpr} (ha : a.IsListing)
    (hs : ∀ s ∈ sets, s.IsListing) :
    (sets.foldl SetExpr.unite a).IsListing ∧
      ∀ p, p ∈ (sets.foldl SetExpr.unite a).points ↔
        p ∈ a.points ∨ ∃ s ∈ sets, p ∈ s.points := by
  induction sets generalizing a with
  | nil => exact ⟨ha, by simp⟩
  | cons s sets ih =>
    obtain ⟨hs, hsets⟩ := List.forall_mem_cons.mp hs
    obtain ⟨hunite, hmem⟩ := ha.unite hs
    obtain ⟨hlist, hall⟩ := ih hunite hsets
    refine ⟨hlist, fun p => ?_⟩
    rw [List.foldl_cons, hall, hmem]
    simp only [List.mem_cons, or_and_right, exists_or, exists_eq_left, or_assoc]

/-! ## Membership -/

/-- A rational that is listed is in the set, whatever else is listed. -/
theorem contains?_of_mem_points {n : Number} {q : ℚ} (hn : n.toRat? = some q)
    (h : .rat q ∈ s.points) : s.contains? (.number n) = some true := by
  cases s with
  | finite es =>
    rw [SetExpr.contains?]
    split_ifs
    · rfl
    · have hany : (es.map Expr.eval?).any (fun value => value.any fun y => samePoint y n) =
          true := by
        refine List.any_eq_true.mpr ⟨_, List.mem_map_of_mem h, ?_⟩
        exact (samePoint_iff (Number.toRat?_ofRat q) hn).mpr rfl
      change amongValues? es n = some true
      rw [amongValues?]
      simp only [hany, if_true]
  | _ => simp [points] at h

end SetExpr

end SymbolicAlgebra
