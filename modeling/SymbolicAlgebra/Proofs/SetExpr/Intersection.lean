import SymbolicAlgebra.Proofs.SetExpr.Union

/-!
# Intersections

The intersection of two sets stands for the intersection of what they stand for. Two intervals are
cut to the later left bound and the earlier right bound, `Interval.intersect?_eq`, and what is left
is empty or has its bounds in order, `SetExpr.IsRange`. Points are kept where membership says so.

The intersection answers with the conjunction, `SetExpr.contains?_intersect`, in whatever order the
bounds of intervals are. Two lists of points are left out there: of the two, only points that are
written in the same way are kept.
-/

namespace SymbolicAlgebra

open SymbolicAlgebra.Bound

variable {V : Expr → ℚ → Prop} {l l' r r' : Expr} {lc lc' rc rc' : Bool} {α α' β β' : Bound}

/-- The set is empty, or an interval with its bounds in order. -/
inductive SetExpr.IsRange : SetExpr → Prop
  | empty : IsRange .empty
  | interval {l r : Expr} {α β : Bound} {lc rc : Bool} (hl : l.HasBound α) (hr : r.HasBound β)
      (h : Proper α lc β rc) : IsRange (.interval l lc r rc)

theorem SetExpr.IsRange.isProper {s : SetExpr} (h : s.IsRange) : s.IsProper := by
  cases h with
  | empty => trivial
  | interval hl hr h => exact ⟨_, _, hl, hr, h⟩

namespace Interval

/-! ## Cutting an interval -/

/-- The later one of two left bounds in a given order, closed where both are. -/
def later (a b : Expr × Bool) : Ordering → Expr × Bool
  | .gt => a
  | .lt => b
  | .eq => (a.1, a.2 && b.2)

/-- The earlier one of two right bounds in a given order, closed where both are. -/
def earlier (a b : Expr × Bool) : Ordering → Expr × Bool
  | .lt => a
  | .gt => b
  | .eq => (a.1, a.2 && b.2)

/-- The points between two bounds; there are none unless the bounds are in order. -/
def between? (left right : Expr × Bool) : Option SetExpr := do
  match ← compareBounds? left.1 right.1 with
  | .gt => return .empty
  | .eq => return if left.2 && right.2 then .interval left.1 left.2 right.1 right.2 else .empty
  | .lt => return .interval left.1 left.2 right.1 right.2

/-- The intersection of two intervals lies between the later and the earlier bound. -/
theorem intersect?_eq (i j : Interval) : i.intersect? j =
    (compareBounds? i.left j.left).bind fun o => (compareBounds? i.right j.right).bind fun o' =>
      between? (later (i.left, i.leftClosed) (j.left, j.leftClosed) o)
        (earlier (i.right, i.rightClosed) (j.right, j.rightClosed) o') := by
  unfold intersect?
  rcases compareBounds? i.left j.left with _ | o
  · rfl
  rcases compareBounds? i.right j.right with _ | o'
  · rfl
  simp only [Option.bind_eq_bind, Option.bind_some]
  -- The two orders fix which bounds are kept, and whether they are closed.
  cases o <;> cases o' <;> simp only [later, earlier, between?] <;>
    (congr 1; funext o''; cases o'' <;> grind)

/-- Bounds with values are compared by value. -/
theorem compareBounds?_eq (hl : l.HasBound α) (hr : r.HasBound β) :
    compareBounds? l r = some (cmp α β) := by
  obtain ⟨m, hm, hα⟩ := hl.eval?
  obtain ⟨n, hn, hβ⟩ := hr.eval?
  rw [compareBounds?, hm, hn]
  exact Number.compare?_eq_cmp hα hβ

/-- To lie above the later bound is to lie above both. -/
theorem later_spec (lc lc' : Bool) (hl : l.HasBound α) (hl' : l'.HasBound α') :
    ∃ γ, (later (l, lc) (l', lc') (cmp α α')).1.HasBound γ ∧
      ∀ q, Above γ (later (l, lc) (l', lc') (cmp α α')).2 q ↔ Above α lc q ∧ Above α' lc' q := by
  rcases lt_trichotomy α α' with h | rfl | h
  · rw [h.cmp_eq_lt]
    refine ⟨α', hl', fun q => ⟨fun hq => ⟨.inl ?_, hq⟩, And.right⟩⟩
    exact hq.elim h.trans fun hq => hq.1 ▸ h
  · rw [cmp_self_eq_eq]
    refine ⟨α, hl, fun q => ?_⟩
    simp only [later, Above, Bool.and_eq_true]
    tauto
  · rw [h.cmp_eq_gt]
    refine ⟨α, hl, fun q => ⟨fun hq => ⟨hq, .inl ?_⟩, And.left⟩⟩
    exact hq.elim h.trans fun hq => hq.1 ▸ h

/-- To lie below the earlier bound is to lie below both. -/
theorem earlier_spec (rc rc' : Bool) (hr : r.HasBound β) (hr' : r'.HasBound β') :
    ∃ δ, (earlier (r, rc) (r', rc') (cmp β β')).1.HasBound δ ∧
      ∀ q, Below δ (earlier (r, rc) (r', rc') (cmp β β')).2 q ↔ Below β rc q ∧ Below β' rc' q := by
  rcases lt_trichotomy β β' with h | rfl | h
  · rw [h.cmp_eq_lt]
    refine ⟨β, hr, fun q => ⟨fun hq => ⟨hq, .inl ?_⟩, And.left⟩⟩
    exact hq.elim (fun hq => hq.trans h) fun hq => hq.1 ▸ h
  · rw [cmp_self_eq_eq]
    refine ⟨β, hr, fun q => ?_⟩
    simp only [earlier, Below, Bool.and_eq_true]
    tauto
  · rw [h.cmp_eq_gt]
    refine ⟨β', hr', fun q => ⟨fun hq => ⟨.inl ?_, hq⟩, And.right⟩⟩
    exact hq.elim (fun hq => hq.trans h) fun hq => hq.1 ▸ h

/-- There is nothing between bounds that are out of order. -/
theorem between_eq_empty (h : ¬ Proper α lc β rc) : between α lc β rc = ∅ := by
  refine Set.eq_empty_of_forall_notMem fun q hq => h ?_
  obtain ⟨hα | ⟨rfl, hlc⟩, hβ | ⟨rfl, hrc⟩⟩ := hq
  · exact .inl (hα.trans hβ)
  · exact .inl hα
  · exact .inl hβ
  · exact .inr ⟨rfl, hlc, hrc⟩

/-- What lies between two bounds is worked out: it is an interval if the bounds are in order, and
empty otherwise. -/
theorem between?_spec {left right : Expr × Bool} (hl : left.1.HasBound α)
    (hr : right.1.HasBound β) :
    ∃ s, between? left right = some s ∧ SetExpr.Denotes V s (between α left.2 β right.2) ∧
      s.IsRange := by
  obtain ⟨l, lc⟩ := left
  obtain ⟨r, rc⟩ := right
  rw [between?, compareBounds?_eq hl hr]
  have hproper : Proper α lc β rc → SetExpr.Denotes V (.interval l lc r rc) (between α lc β rc) ∧
      (SetExpr.interval l lc r rc).IsRange := fun h => ⟨.interval hl hr, .interval hl hr h⟩
  have hempty : ¬ Proper α lc β rc → SetExpr.Denotes V .empty (between α lc β rc) ∧
      SetExpr.empty.IsRange := fun h => ⟨between_eq_empty h ▸ .empty, .empty⟩
  rcases lt_trichotomy α β with h | rfl | h
  · rw [h.cmp_eq_lt]
    exact ⟨_, rfl, hproper (.inl h)⟩
  · rw [cmp_self_eq_eq]
    -- Equal bounds leave their one point, if both ends are closed.
    refine ⟨_, rfl, ?_⟩
    dsimp only
    split_ifs with hclosed
    · exact hproper (.inr ⟨rfl, (Bool.and_eq_true _ _).mp hclosed⟩)
    · refine hempty ?_
      rintro (hlt | ⟨-, hboth⟩)
      · exact lt_irrefl α hlt
      · exact hclosed ((Bool.and_eq_true _ _).mpr hboth)
  · rw [h.cmp_eq_gt]
    refine ⟨_, rfl, hempty ?_⟩
    rintro (hlt | ⟨rfl, -⟩)
    · exact lt_asymm h hlt
    · exact lt_irrefl _ h

/-- The intersection of two intervals is worked out, and is empty or has its bounds in order. -/
theorem intersect?_spec (hl : l.HasBound α) (hr : r.HasBound β) (hl' : l'.HasBound α')
    (hr' : r'.HasBound β') :
    ∃ s, intersect? ⟨l, lc, r, rc⟩ ⟨l', lc', r', rc'⟩ = some s ∧
      SetExpr.Denotes V s (between α lc β rc ∩ between α' lc' β' rc') ∧ s.IsRange := by
  obtain ⟨γ, hγ, habove⟩ := later_spec lc lc' hl hl'
  obtain ⟨δ, hδ, hbelow⟩ := earlier_spec rc rc' hr hr'
  obtain ⟨s, hs, hden, hrange⟩ := between?_spec hγ hδ
  have hset : between γ (later (l, lc) (l', lc') (cmp α α')).2 δ
      (earlier (r, rc) (r', rc') (cmp β β')).2 = between α lc β rc ∩ between α' lc' β' rc' := by
    ext q
    exact (and_congr (habove q) (hbelow q)).trans and_and_and_comm
  refine ⟨s, ?_, hset ▸ hden, hrange⟩
  rw [intersect?_eq, compareBounds?_eq hl hl', compareBounds?_eq hr hr']
  exact hs

end Interval

namespace SetExpr

variable {a b s : SetExpr} {A B : Set ℚ}

/-! ## Points of a set -/

/-- The points that lie in a set are told apart from the others. -/
theorem filterPoints?_eq (hV : ∀ e q, V e q → e.HasValue q) (hs : Denotes V s B) {ps : List Expr}
    (hps : ∀ p ∈ ps, ∃ q, V p q) :
    s.filterPoints? ps = some (ps.filter fun p => s.contains? p == some true) := by
  have hmap : ps.mapM s.contains? = some (ps.map fun p => s.contains? p == some true) := by
    induction ps with
    | nil => rfl
    | cons p ps ih =>
      obtain ⟨⟨q, hq⟩, hps⟩ := List.forall_mem_cons.mp hps
      obtain ⟨b, hb, -⟩ := hs.contains? hV (hV p q hq)
      rw [List.mapM_cons, hb, ih hps, List.map_cons, hb]
      cases b <;> rfl
  rw [filterPoints?, hmap]
  simp only [Option.bind_eq_bind, Option.bind_some, Option.pure_def, Option.some.injEq]
  clear hmap hps
  -- The answers are zipped with the points that they belong to.
  induction ps with
  | nil => rfl
  | cons p ps ih =>
    rw [List.map_cons, List.zip_cons_cons, List.filterMap_cons, List.filter_cons, ih]
    cases s.contains? p == some true <;> rfl

/-- The points that a set contains are those common to both. -/
theorem Denotes.intersectPoints (hV : ∀ e q, V e q → e.HasValue q) {ps : List Expr}
    (hps : Denotes V (.finite ps) A) (hs : Denotes V s B) :
    Denotes V (SetExpr.intersectPoints ps s) (A ∩ B) := by
  obtain ⟨hvals, -, rfl⟩ := hps.finite_inv
  have hset : {q | ∃ p ∈ ps.filter fun p => s.contains? p == some true, V p q} =
      {q | ∃ p ∈ ps, V p q} ∩ B := by
    ext q
    simp only [List.mem_filter, Set.mem_ofPred_eq, Set.mem_inter_iff, beq_iff_eq]
    have hmem : ∀ p, V p q → (s.contains? p = some true ↔ q ∈ B) := by
      intro p hp
      obtain ⟨b, hb, hiff⟩ := hs.contains? hV (hV p q hp)
      rw [hb, Option.some.injEq, hiff]
    constructor
    · rintro ⟨p, ⟨hp, hcontains⟩, hq⟩
      exact ⟨⟨p, hp, hq⟩, (hmem p hq).mp hcontains⟩
    · rintro ⟨⟨p, hp, hq⟩, hB⟩
      exact ⟨p, ⟨hp, (hmem p hq).mpr hB⟩, hq⟩
  rw [SetExpr.intersectPoints, filterPoints?_eq hV hs hvals, ← hset]
  exact denotes_ofElements hV fun p hp => hvals p (List.mem_of_mem_filter hp)

/-- Points kept by structural equality are the common ones, if equal values are written alike. -/
theorem Denotes.intersectFinite (hV : ∀ e q, V e q → e.HasValue q) {es ps : List Expr}
    (hes : Denotes V (.finite es) A) (hps : Denotes V (.finite ps) B)
    (heq : ∀ e ∈ es, ∀ p ∈ ps, ∀ q, V e q → V p q → e = p) :
    Denotes V (.ofElements (es.filter fun e => ps.any (· == e))) (A ∩ B) := by
  obtain ⟨hev, -, rfl⟩ := hes.finite_inv
  obtain ⟨hpv, -, rfl⟩ := hps.finite_inv
  have hset : {q | ∃ e ∈ es.filter fun e => ps.any (· == e), V e q} =
      {q | ∃ e ∈ es, V e q} ∩ {q | ∃ e ∈ ps, V e q} := by
    ext q
    simp only [List.mem_filter, any_beq_iff (setFree_of_forall hV hpv), Set.mem_ofPred_eq,
      Set.mem_inter_iff]
    constructor
    · rintro ⟨e, ⟨he, hmem⟩, hq⟩
      exact ⟨⟨e, he, hq⟩, e, hmem, hq⟩
    · rintro ⟨⟨e, he, hq⟩, p, hp, hq'⟩
      exact ⟨e, ⟨he, heq e he p hp q hq hq' ▸ hp⟩, hq⟩
  rw [← hset]
  exact denotes_ofElements hV fun p hp => hev p (List.mem_of_mem_filter hp)

theorem isProper_ofElements (es : List Expr) : (ofElements es).IsProper := by
  unfold ofElements
  split <;> trivial

theorem isProper_intersectPoints (ps : List Expr) (s : SetExpr) :
    (SetExpr.intersectPoints ps s).IsProper := by
  unfold SetExpr.intersectPoints
  split
  · exact isProper_ofElements _
  · trivial

/-- The intersection stands for the intersection, and its bounds are in order if those of the first
set are. Two lists of points are compared by structural equality, which has to tell points apart only
by their values. -/
theorem Denotes.intersect (hV : ∀ e q, V e q → e.HasValue q) (ha : Denotes V a A)
    (hb : Denotes V b B)
    (heq : ∀ es ps, a = .finite es → b = .finite ps →
      ∀ e ∈ es, ∀ p ∈ ps, ∀ q, V e q → V p q → e = p) :
    Denotes V (a.intersect b) (A ∩ B) ∧ (a.IsProper → (a.intersect b).IsProper) := by
  unfold SetExpr.intersect
  split_ifs with hempty hsame
  · have hset : A ∩ B = ∅ := by
      rcases (Bool.or_eq_true _ _).mp hempty with hae | hbe
      · rw [ha.isEmpty_eq hae, Set.empty_inter]
      · rw [hb.isEmpty_eq hbe, Set.inter_empty]
    rw [hset]
    exact ⟨.empty, fun _ => trivial⟩
  · have hset : A ∩ B = A := by rw [ha.eq_of_same hV hb hsame, Set.inter_self]
    rw [hset]
    exact ⟨ha, id⟩
  · split
    · exact ⟨ha.intersectFinite hV hb (heq _ _ rfl rfl), fun _ => isProper_ofElements _⟩
    · exact ⟨ha.intersectPoints hV hb, fun _ => isProper_intersectPoints _ _⟩
    · rw [Set.inter_comm]
      exact ⟨hb.intersectPoints hV ha, fun _ => isProper_intersectPoints _ _⟩
    · obtain ⟨α, β, hl, hr, rfl⟩ := ha.interval_inv
      obtain ⟨α', β', hl', hr', rfl⟩ := hb.interval_inv
      obtain ⟨s, hs, hden, hrange⟩ := Interval.intersect?_spec hl hr hl' hr'
      rw [hs]
      exact ⟨hden, fun _ => hrange.isProper⟩
    · exact ⟨.intersection ha hb, fun _ => trivial⟩

/-- Two different intervals have a common part that is worked out. -/
theorem isRange_intersect (ha : Denotes V (.interval l lc r rc) A)
    (hb : Denotes V (.interval l' lc' r' rc') B)
    (hne : SetExpr.interval l lc r rc ≠ .interval l' lc' r' rc') :
    ((SetExpr.interval l lc r rc).intersect (.interval l' lc' r' rc')).IsRange := by
  obtain ⟨α, β, hl, hr, rfl⟩ := ha.interval_inv
  obtain ⟨α', β', hl', hr', rfl⟩ := hb.interval_inv
  obtain ⟨s, hs, -, hrange⟩ : ∃ s, Interval.intersect? ⟨l, lc, r, rc⟩ ⟨l', lc', r', rc'⟩ = some s ∧
      Denotes V s _ ∧ s.IsRange := Interval.intersect?_spec hl hr hl' hr'
  have hsame : ¬ (SetExpr.interval l lc r rc == .interval l' lc' r' rc') = true :=
    fun h => hne ((same_interval_iff hl.setFree hr.setFree).mp h)
  rw [SetExpr.intersect, if_neg (by simp [isEmpty]), if_neg hsame, hs]
  exact hrange

/-- Membership in the intersection is decided, and it is membership in both sets. Of two different
intervals an interval with its bounds in order is left, or nothing. -/
theorem contains?_intersect (ha : a.Evaluates) (hb : b.Evaluates)
    (hne : ∀ es ps, a = .finite es → b ≠ .finite ps) :
    (∀ {e : Expr} {q : ℚ}, e.HasValue q → ∃ p r, a.contains? e = some p ∧ b.contains? e = some r ∧
      (a.intersect b).contains? e = some (p && r)) ∧
    ∀ i j : Interval, a = i.toSet → b = j.toSet → a ≠ b → (a.intersect b).IsRange := by
  have hV : ∀ e q, Expr.HasValue e q → e.HasValue q := fun _ _ => id
  obtain ⟨A, hA⟩ := ha.exists_denotes
  obtain ⟨B, hB⟩ := hb.exists_denotes
  have hAB := (hA.intersect hV hB fun es ps hes hps => absurd hps (hne es ps hes)).1
  refine ⟨fun {e q} he => ?_, ?_⟩
  · obtain ⟨p, hp, hpA⟩ := hA.contains? hV he
    obtain ⟨r, hr, hrB⟩ := hB.contains? hV he
    obtain ⟨u, hu, huAB⟩ := hAB.contains? hV he
    refine ⟨p, r, hp, hr, ?_⟩
    rw [hu, Option.some.injEq, Bool.eq_iff_iff, Bool.and_eq_true, hpA, hrB]
    exact huAB
  · rintro i j rfl rfl hij
    exact isRange_intersect hA hB hij

/-- Two intervals touch in a point that they write as 3 and as `6 / 2`: it is left of them. -/
theorem contains?_intersect_touching :
    (∃ p r, (SetExpr.interval 1 false (6 / 2) true).contains? 3 = some p ∧
      (SetExpr.interval 3 true .posInf false).contains? 3 = some r ∧
      ((SetExpr.interval 1 false (6 / 2) true).intersect
        (.interval 3 true .posInf false)).contains? 3 = some (p && r)) ∧
    ((SetExpr.interval 1 false (6 / 2) true).intersect (.interval 3 true .posInf false)).IsRange := by
  have hone : (1 : Expr).HasBound ((1 : ℚ) : Bound) := (Expr.hasValue_number rfl).hasBound
  have hthree : (3 : Expr).HasValue 3 := Expr.hasValue_number rfl
  have hquotient : (6 / 2 : Expr).HasValue 3 := ⟨3, by with_unfolding_all rfl, rfl⟩
  have ha : (SetExpr.interval 1 false (6 / 2) true).Evaluates := .interval hone hquotient.hasBound
  have hb : (SetExpr.interval 3 true .posInf false).Evaluates :=
    .interval hthree.hasBound Expr.hasBound_posInf
  obtain ⟨hmem, hrange⟩ := contains?_intersect ha hb fun _ _ => by rintro ⟨⟩
  exact ⟨hmem hthree, hrange ⟨1, false, 6 / 2, true⟩ ⟨3, true, .posInf, false⟩ rfl rfl (by rintro ⟨⟩)⟩

end SetExpr

end SymbolicAlgebra
