import SymbolicAlgebra.Proofs.SetExpr.Points

/-!
# Unions

The union of two sets stands for the union of what they stand for, provided that an interval has its
bounds in order: closing an end adds the end only where the other end does not shut it out. Points
are absorbed by an interval one after the other, and `Interval.Covers` is what every step preserves. For
membership this means that the union answers with the disjunction, `SetExpr.contains?_unite`; only
the two sets themselves have to be in order, not the parts that they leave to be worked out.
-/

namespace SymbolicAlgebra

open SymbolicAlgebra.Bound

variable {V : Expr → ℚ → Prop}

/-! ## Closing an end -/

/-- The bounds are in order, and they are equal only if both are closed. -/
def Bound.Proper (α : Bound) (leftClosed : Bool) (β : Bound) (rightClosed : Bool) : Prop :=
  α < β ∨ α = β ∧ leftClosed = true ∧ rightClosed = true

/-- Bounds of an interval that is open somewhere are different. -/
theorem Bound.Proper.lt_of_open {α β : Bound} {lc rc : Bool} (h : Proper α lc β rc)
    (ho : lc = false ∨ rc = false) : α < β := by
  rcases h with h | ⟨-, rfl, rfl⟩
  · exact h
  · simp at ho

/-- Closing the left end adds that bound. -/
theorem Bound.between_close_left {β : Bound} {rc : Bool} {q : ℚ} (h : (q : Bound) < β) :
    between q true β rc = insert q (between q false β rc) := by
  ext p
  simp only [between, Above, Below, Set.mem_ofPred_eq, Set.mem_insert_iff, and_true,
    Bool.false_eq_true, and_false, or_false]
  constructor
  · rintro ⟨hq | hq, hp⟩
    · exact .inr ⟨hq, hp⟩
    · exact .inl (WithBotTop.coe_injective hq).symm
  · rintro (rfl | ⟨hq, hp⟩)
    · exact ⟨.inr rfl, .inl h⟩
    · exact ⟨.inl hq, hp⟩

/-- Closing the right end adds that bound. -/
theorem Bound.between_close_right {α : Bound} {lc : Bool} {q : ℚ} (h : α < (q : Bound)) :
    between α lc q true = insert q (between α lc q false) := by
  ext p
  simp only [between, Above, Below, Set.mem_ofPred_eq, Set.mem_insert_iff, and_true,
    Bool.false_eq_true, and_false, or_false]
  constructor
  · rintro ⟨hp, hq | hq⟩
    · exact .inr ⟨hp, hq⟩
    · exact .inl (WithBotTop.coe_injective hq)
  · rintro (rfl | ⟨hp, hq⟩)
    · exact ⟨.inl h, .inr rfl⟩
    · exact ⟨hp, .inl hq⟩

/-! ## Points joined to an interval -/

namespace Interval

/-- An interval and the points that stay apart from it make up a set of rationals. -/
structure Covers (V : Expr → ℚ → Prop) (α β : Bound) (i : Interval) (apart : List Expr)
    (A : Set ℚ) : Prop where
  left : i.left.HasBound α
  right : i.right.HasBound β
  proper : Proper α i.leftClosed β i.rightClosed
  points : ∀ e ∈ apart, ∃ q, V e q
  nodup : apart.Nodup
  eq : A = between α i.leftClosed β i.rightClosed ∪ {q | ∃ e ∈ apart, V e q}

variable {α β : Bound} {i : Interval} {apart : List Expr} {A : Set ℚ} {p : Expr} {q : ℚ}

/-- One point more is covered. -/
theorem Covers.absorb (hV : ∀ e q, V e q → e.HasValue q) (h : Covers V α β i apart A)
    (hp : V p q) : Covers V α β (absorb (i, apart) p).1 (absorb (i, apart) p).2 (insert q A) := by
  have hpv : p.HasValue q := hV p q hp
  rw [Interval.absorb]
  split_ifs with hleft hright hin
  · -- The point is the left bound, which is open.
    rw [Bool.and_eq_true, Bool.not_eq_true', hpv.setFree.beq_iff] at hleft
    obtain ⟨hopen, rfl⟩ := hleft
    obtain rfl := h.left.unique hpv.hasBound
    have hlt : (q : Bound) < β := h.proper.lt_of_open (.inl hopen)
    refine ⟨h.left, h.right, .inl hlt, h.points, h.nodup, ?_⟩
    rw [h.eq, hopen, between_close_left hlt, Set.insert_union]
  · -- The point is the right bound, which is open.
    rw [Bool.and_eq_true, Bool.not_eq_true', hpv.setFree.beq_iff] at hright
    obtain ⟨hopen, rfl⟩ := hright
    obtain rfl := h.right.unique hpv.hasBound
    have hlt : α < (q : Bound) := h.proper.lt_of_open (.inr hopen)
    refine ⟨h.left, h.right, .inl hlt, h.points, h.nodup, ?_⟩
    rw [h.eq, hopen, between_close_right hlt, Set.insert_union]
  · -- The point is inside.
    obtain ⟨b, hb, hiff⟩ := contains?_interval h.left h.right hpv
    have hmem : q ∈ A := by
      rw [h.eq]
      rw [Interval.contains?, toSet, hb] at hin
      exact .inl (hiff.mp (by simpa using hin))
    rw [Set.insert_eq_of_mem hmem]
    exact h
  · -- The point stays apart.
    have hfree : ∀ e ∈ apart, e.SetFree := setFree_of_forall hV h.points
    refine ⟨h.left, h.right, h.proper, fun e he => ?_, nodup_insertDistinct hfree h.nodup p, ?_⟩
    · rcases (mem_insertDistinct hfree).mp he with he | rfl
      · exact h.points e he
      · exact ⟨q, hp⟩
    · have hset : {r | ∃ e ∈ insertDistinct apart p, V e r} = {r | ∃ e ∈ p :: apart, V e r} := by
        simp only [mem_insertDistinct hfree, List.mem_cons, or_comm]
      rw [h.eq, hset, values_cons hV hp, Set.union_insert]

/-- A run over points covers them all. -/
theorem Covers.foldl_absorb (hV : ∀ e q, V e q → e.HasValue q) {points : List Expr}
    (hps : ∀ p ∈ points, ∃ q, V p q) (h : Covers V α β i apart A) :
    Covers V α β (points.foldl Interval.absorb (i, apart)).1
      (points.foldl Interval.absorb (i, apart)).2 (A ∪ {q | ∃ p ∈ points, V p q}) := by
  induction points generalizing i apart A with
  | nil => simpa using h
  | cons p points ih =>
    obtain ⟨⟨q, hq⟩, hps⟩ := List.forall_mem_cons.mp hps
    rw [values_cons hV hq, Set.union_insert, ← Set.insert_union]
    exact ih hps (h.absorb hV hq)

/-- Absorbing points leaves the bounds as they are. -/
theorem foldl_absorb_bounds (i : Interval) (apart points : List Expr) :
    (points.foldl Interval.absorb (i, apart)).1.left = i.left ∧
      (points.foldl Interval.absorb (i, apart)).1.right = i.right := by
  induction points generalizing i apart with
  | nil => exact ⟨rfl, rfl⟩
  | cons p points ih =>
    have hstep : (Interval.absorb (i, apart) p).1.left = i.left ∧
        (Interval.absorb (i, apart) p).1.right = i.right := by
      rw [Interval.absorb]
      split_ifs <;> exact ⟨rfl, rfl⟩
    obtain ⟨hl, hr⟩ := ih (Interval.absorb (i, apart) p).1 (Interval.absorb (i, apart) p).2
    exact ⟨hl.trans hstep.1, hr.trans hstep.2⟩

end Interval

namespace SetExpr

variable {a b s : SetExpr} {A B : Set ℚ}

/-- An interval has its bounds in order. Nothing is asked of the parts of other sets. -/
def IsProper : SetExpr → Prop
  | .interval l lc r rc => ∃ α β, l.HasBound α ∧ r.HasBound β ∧ Proper α lc β rc
  | _ => True

/-- Points that an interval absorbs, and those kept apart, make up the union with it. -/
theorem Denotes.unionWithPoints (hV : ∀ e q, V e q → e.HasValue q) {l r : Expr} {lc rc : Bool}
    {ps : List Expr} (hi : Denotes V (.interval l lc r rc) A) (hp : (SetExpr.interval l lc r rc).IsProper)
    (hps : Denotes V (.finite ps) B) :
    Denotes V (Interval.unionWithPoints ⟨l, lc, r, rc⟩ ps) (A ∪ B) ∧
      (Interval.unionWithPoints ⟨l, lc, r, rc⟩ ps).IsProper := by
  obtain ⟨α, β, hl, hr, rfl⟩ := hi.interval_inv
  obtain ⟨α', β', hl', hr', hproper⟩ := hp
  obtain rfl := hl.unique hl'
  obtain rfl := hr.unique hr'
  obtain ⟨hvals, -, rfl⟩ := hps.finite_inv
  -- Before the first point, nothing stays apart.
  have hstart : Interval.Covers V α β ⟨l, lc, r, rc⟩ [] (between α lc β rc) :=
    ⟨hl, hr, hproper, by simp, List.nodup_nil, by simp⟩
  have hend := hstart.foldl_absorb hV hvals
  rw [Interval.unionWithPoints]
  generalize ps.foldl Interval.absorb (⟨l, lc, r, rc⟩, []) = state at hend ⊢
  obtain ⟨i, apart⟩ := state
  cases apart with
  | nil =>
    have hset := hend.eq
    simp only [List.not_mem_nil, false_and, exists_false, Set.ofPred_false, Set.union_empty] at hset
    rw [hset]
    exact ⟨.interval hend.left hend.right, α, β, hend.left, hend.right, hend.proper⟩
  | cons p apart =>
    rw [hend.eq]
    exact ⟨.union (.interval hend.left hend.right) (.finite hend.points hend.nodup), trivial⟩

/-- Merging two lists of points gives their union. -/
theorem Denotes.foldl_insertDistinct (hV : ∀ e q, V e q → e.HasValue q) {es ps : List Expr}
    (hes : Denotes V (.finite es) A) (hps : Denotes V (.finite ps) B) :
    Denotes V (.finite (ps.foldl insertDistinct es)) (A ∪ B) := by
  obtain ⟨hev, hed, rfl⟩ := hes.finite_inv
  obtain ⟨hpv, -, rfl⟩ := hps.finite_inv
  have hef := setFree_of_forall hV hev
  have hpf := setFree_of_forall hV hpv
  have hset : {q | ∃ e ∈ ps.foldl insertDistinct es, V e q} =
      {q | ∃ e ∈ es, V e q} ∪ {q | ∃ e ∈ ps, V e q} := by
    ext q
    simp only [mem_foldl_insertDistinct hef hpf, or_and_right, exists_or, Set.mem_ofPred_eq,
      Set.mem_union]
  rw [← hset]
  refine .finite (fun e he => ?_) (nodup_foldl_insertDistinct hef hpf hed)
  exact ((mem_foldl_insertDistinct hef hpf).mp he).elim (hev e) (hpv e)

/-- An interval absorbs points. -/
theorem unite_interval_finite (l r : Expr) (lc rc : Bool) {ps : List Expr} (hps : ps ≠ []) :
    (SetExpr.interval l lc r rc).unite (.finite ps) =
      Interval.unionWithPoints ⟨l, lc, r, rc⟩ ps := by
  have hsame : (SetExpr.interval l lc r rc == .finite ps) = false := by
    show SetExpr.same (.interval l lc r rc) (.finite ps) = false
    simp [SetExpr.same]
  simp [SetExpr.unite, isEmpty, hsame, hps]

/-- The union stands for the union, and its bounds are in order again. -/
theorem Denotes.unite (hV : ∀ e q, V e q → e.HasValue q) (ha : Denotes V a A) (hb : Denotes V b B)
    (hpa : a.IsProper) (hpb : b.IsProper) :
    Denotes V (a.unite b) (A ∪ B) ∧ (a.unite b).IsProper := by
  unfold SetExpr.unite
  split_ifs with hae hbe
  · rw [ha.isEmpty_eq hae, Set.empty_union]
    exact ⟨hb, hpb⟩
  · -- The second set is empty, or equal to the first.
    have hsub : A ∪ B = A := by
      rcases (Bool.or_eq_true _ _).mp hbe with hbe | heq
      · rw [hb.isEmpty_eq hbe, Set.union_empty]
      · rw [ha.eq_of_same hV hb heq, Set.union_self]
    rw [hsub]
    exact ⟨ha, hpa⟩
  · split
    · exact ⟨ha.foldl_insertDistinct hV hb, trivial⟩
    · exact ha.unionWithPoints hV hpa hb
    · rw [Set.union_comm]
      exact hb.unionWithPoints hV hpb ha
    · exact ⟨.union ha hb, trivial⟩

/-- Membership in the union is decided, and it is membership in one of the sets. -/
theorem contains?_unite {e : Expr} {q : ℚ} (ha : a.Evaluates) (hb : b.Evaluates)
    (hpa : a.IsProper) (hpb : b.IsProper) (he : e.HasValue q) :
    ∃ p r, a.contains? e = some p ∧ b.contains? e = some r ∧
      (a.unite b).contains? e = some (p || r) := by
  have hV : ∀ e q, Expr.HasValue e q → e.HasValue q := fun _ _ => id
  obtain ⟨A, hA⟩ := ha.exists_denotes
  obtain ⟨B, hB⟩ := hb.exists_denotes
  obtain ⟨p, hp, hpA⟩ := hA.contains? hV he
  obtain ⟨r, hr, hrB⟩ := hB.contains? hV he
  obtain ⟨u, hu, huAB⟩ := (hA.unite hV hB hpa hpb).1.contains? hV he
  refine ⟨p, r, hp, hr, ?_⟩
  rw [hu, Option.some.injEq, Bool.eq_iff_iff, Bool.or_eq_true, hpA, hrB]
  exact huAB

/-- The open interval from 1 to 3 is closed by the point 3, has the point `4 / 2` inside and the
point 5 beside it. All points with the value 3 are in the union then. -/
theorem contains?_unite_closing_point :
    ∃ p r, (SetExpr.interval 1 false 3 false).contains? (6 / 2) = some p ∧
      (SetExpr.finite [3, 4 / 2, 5]).contains? (6 / 2) = some r ∧
      ((SetExpr.interval 1 false 3 false).unite (.finite [3, 4 / 2, 5])).contains? (6 / 2)
        = some (p || r) := by
  have hone : (1 : Expr).HasBound ((1 : ℚ) : Bound) := (Expr.hasValue_number rfl).hasBound
  have hthree : (3 : Expr).HasBound ((3 : ℚ) : Bound) := (Expr.hasValue_number rfl).hasBound
  have hlt : ((1 : ℚ) : Bound) < ((3 : ℚ) : Bound) := WithBotTop.coe_strictMono (by norm_num)
  have hpoints : ∀ e ∈ [(3 : Expr), 4 / 2, 5], ∃ q, e.HasValue q := by
    simp only [List.mem_cons, List.not_mem_nil, or_false]
    rintro e (rfl | rfl | rfl)
    · exact ⟨3, Expr.hasValue_number rfl⟩
    · exact ⟨2, 2, by with_unfolding_all rfl, rfl⟩
    · exact ⟨5, Expr.hasValue_number rfl⟩
  have hnodup : [(3 : Expr), 4 / 2, 5].Nodup := by
    have hne : (3 : Expr) ≠ 5 := by rintro ⟨⟩
    simp [hne]
  have hvalue : (6 / 2 : Expr).HasValue 3 := ⟨3, by with_unfolding_all rfl, rfl⟩
  exact contains?_unite (.interval hone hthree) (.finite hpoints hnodup)
    ⟨_, _, hone, hthree, .inl hlt⟩ trivial hvalue

/-! ## Lists of points -/

/-- The set lists its points. -/
def IsFinite : SetExpr → Prop
  | .empty | .finite _ => True
  | _ => False

theorem isFinite_ofElements (es : List Expr) : (ofElements es).IsFinite := by
  unfold ofElements
  split <;> trivial

/-- A list of points has no bounds to be out of order. -/
theorem IsFinite.isProper (h : s.IsFinite) : s.IsProper := by
  cases s with
  | interval l lc r rc => exact h.elim
  | _ => trivial

/-- Lists of points unite to a list of points. -/
theorem IsFinite.unite (ha : a.IsFinite) (hb : b.IsFinite) : (a.unite b).IsFinite := by
  unfold SetExpr.unite
  split_ifs with hae hbe
  · exact hb
  · exact ha
  · split
    · trivial
    · exact ha.elim
    · exact hb.elim
    · -- Two lists of points were met already.
      cases a with
      | empty => exact absurd rfl hae
      | finite es =>
        cases b with
        | empty => exact absurd rfl hbe
        | finite ps => simp_all
        | _ => exact hb.elim
      | _ => exact ha.elim

/-- Lists of points are united one after the other. -/
theorem denotes_foldl_unite (hV : ∀ e q, V e q → e.HasValue q) {ι : Type} {D : ι → Set ℚ}
    {is : List ι} {sets : List SetExpr}
    (h : List.Forall₂ (fun i s => Denotes V s (D i) ∧ s.IsFinite) is sets) (ha : Denotes V a A)
    (hfin : a.IsFinite) :
    Denotes V (sets.foldl SetExpr.unite a) (A ∪ {q | ∃ i ∈ is, q ∈ D i}) ∧
      (sets.foldl SetExpr.unite a).IsFinite := by
  induction h generalizing a A with
  | nil => exact ⟨by simpa using ha, hfin⟩
  | @cons i s is sets hs _ ih =>
    obtain ⟨hden, hlist⟩ := hs
    have hunite := (ha.unite hV hden hfin.isProper hlist.isProper).1
    have hset : A ∪ {q | ∃ j ∈ i :: is, q ∈ D j} = A ∪ D i ∪ {q | ∃ j ∈ is, q ∈ D j} := by
      ext q
      simp [or_assoc]
    rw [List.foldl_cons, hset]
    exact ih hunite (hfin.unite hlist)

/-! ## The whole line -/

/-- The whole line absorbs points or is kept beside them. -/
theorem full_unionWithPoints (lc rc : Bool) (ps : List Expr) :
    (Interval.unionWithPoints ⟨.negInf, lc, .posInf, rc⟩ ps).Full := by
  have hbounds := Interval.foldl_absorb_bounds ⟨.negInf, lc, .posInf, rc⟩ [] ps
  rw [Interval.unionWithPoints]
  generalize ps.foldl Interval.absorb (⟨.negInf, lc, .posInf, rc⟩, []) = state at hbounds ⊢
  obtain ⟨⟨l, lc', r, rc'⟩, apart⟩ := state
  obtain ⟨rfl, rfl⟩ := hbounds
  cases apart with
  | nil => exact .interval lc' rc'
  | cons p apart => exact .left (.interval lc' rc') _

theorem Full.isEmpty_eq (h : s.Full) : s.isEmpty = false := by
  cases h <;> rfl

/-- The whole line is not lost, whatever is joined to it. -/
theorem Full.unite_left (ha : a.Full) (b : SetExpr) : (a.unite b).Full := by
  unfold SetExpr.unite
  split_ifs with hae hbe
  · exact absurd hae (by rw [ha.isEmpty_eq]; decide)
  · exact ha
  · split
    · cases ha
    · obtain ⟨rfl, rfl⟩ := ha.interval_inv
      exact full_unionWithPoints _ _ _
    · cases ha
    · exact .left ha _

/-- Joining the whole line to any set gives the whole line. -/
theorem Full.unite_right (a : SetExpr) (hb : b.Full) : (a.unite b).Full := by
  unfold SetExpr.unite
  split_ifs with hae hbe
  · exact hb
  · rcases (Bool.or_eq_true _ _).mp hbe with hbe | heq
    · exact absurd hbe (by rw [hb.isEmpty_eq]; decide)
    · exact (full_iff_of_same heq).mpr hb
  · split
    · cases hb
    · cases hb
    · obtain ⟨rfl, rfl⟩ := hb.interval_inv
      exact full_unionWithPoints _ _ _
    · exact .right _ hb

/-- One whole line among the sets united is enough. -/
theorem full_foldl_unite {sets : List SetExpr} (h : a.Full ∨ ∃ s ∈ sets, s.Full) :
    (sets.foldl SetExpr.unite a).Full := by
  induction sets generalizing a with
  | nil => simpa using h
  | cons s sets ih =>
    refine ih ?_
    rcases h with ha | ⟨t, ht, hfull⟩
    · exact .inl (ha.unite_left s)
    · rcases List.mem_cons.mp ht with rfl | ht
      · exact .inl (hfull.unite_right a)
      · exact .inr ⟨t, ht, hfull⟩

/-- A set that holds the whole line has its bounds in order. -/
theorem Full.isProper (h : s.Full) : s.IsProper := by
  cases h with
  | interval lc rc =>
    exact ⟨⊥, ⊤, Expr.hasBound_negInf, Expr.hasBound_posInf, .inl bot_lt_top⟩
  | left => trivial
  | right => trivial

end SetExpr

end SymbolicAlgebra
