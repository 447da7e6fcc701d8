import Mathlib.Data.List.Perm.Subperm
import SymbolicAlgebra.Proofs.SetExpr.Membership

/-!
# Points and equality of sets

Lists of points are kept without repetitions by structural equality, which on points without sets in
them is equality. Two sets that are structurally equal stand for the same rationals, although lists
of points are compared in whatever order: `SetExpr.Denotes.eq_of_same`.
-/

namespace SymbolicAlgebra

open SymbolicAlgebra.Bound

variable {V : Expr → ℚ → Prop}

/-! ## Lists without repetitions -/

section Distinct

variable {es ps : List Expr} {e p : Expr}

/-- Among points without sets, a point is listed if an equal one is. -/
theorem any_beq_iff (hes : ∀ e ∈ es, e.SetFree) (p : Expr) :
    es.any (· == p) = true ↔ p ∈ es := by
  rw [List.any_eq_true]
  constructor
  · rintro ⟨e, he, heq⟩
    exact ((hes e he).beq_iff p).mp heq ▸ he
  · exact fun hp => ⟨p, hp, ((hes p hp).beq_iff p).mpr rfl⟩

/-- A point is in a list into which it is inserted, besides those that were. -/
theorem mem_insertDistinct (hes : ∀ e ∈ es, e.SetFree) :
    p ∈ insertDistinct es e ↔ p ∈ es ∨ p = e := by
  unfold insertDistinct
  split_ifs with h
  · rw [any_beq_iff hes] at h
    exact ⟨.inl, fun hp => hp.elim id fun heq => heq ▸ h⟩
  · rw [List.mem_append, List.mem_singleton]

/-- A point is inserted only where it is not listed. -/
theorem nodup_insertDistinct (hes : ∀ e ∈ es, e.SetFree) (hd : es.Nodup) (e : Expr) :
    (insertDistinct es e).Nodup := by
  unfold insertDistinct
  split_ifs with h
  · exact hd
  · rw [any_beq_iff hes] at h
    exact List.nodup_append.mpr ⟨hd, by simp, by
      rintro a ha b hb rfl
      exact h (List.mem_singleton.mp hb ▸ ha)⟩

/-- Inserting points one after the other gives the points of both lists. -/
theorem mem_foldl_insertDistinct (hes : ∀ e ∈ es, e.SetFree) (hps : ∀ p ∈ ps, p.SetFree) :
    e ∈ ps.foldl insertDistinct es ↔ e ∈ es ∨ e ∈ ps := by
  induction ps generalizing es with
  | nil => simp
  | cons p ps ih =>
    obtain ⟨hp, hps⟩ := List.forall_mem_cons.mp hps
    have hins : ∀ e ∈ insertDistinct es p, e.SetFree := fun e he =>
      ((mem_insertDistinct hes).mp he).elim (hes e) fun h => h ▸ hp
    rw [List.foldl_cons, ih hins hps, mem_insertDistinct hes, List.mem_cons, or_assoc]

/-- Inserting points one after the other repeats none. -/
theorem nodup_foldl_insertDistinct (hes : ∀ e ∈ es, e.SetFree) (hps : ∀ p ∈ ps, p.SetFree)
    (hd : es.Nodup) : (ps.foldl insertDistinct es).Nodup := by
  induction ps generalizing es with
  | nil => exact hd
  | cons p ps ih =>
    obtain ⟨hp, hps⟩ := List.forall_mem_cons.mp hps
    have hins : ∀ e ∈ insertDistinct es p, e.SetFree := fun e he =>
      ((mem_insertDistinct hes).mp he).elim (hes e) fun h => h ▸ hp
    exact ih hins hps (nodup_insertDistinct hes hd p)

/-- Leaving out repetitions drops no point and brings in none. -/
theorem mem_distinct (hes : ∀ e ∈ es, e.SetFree) : e ∈ distinct es ↔ e ∈ es := by
  rw [distinct, mem_foldl_insertDistinct (by simp) hes]
  simp

/-- No point is repeated when repetitions are left out. -/
theorem nodup_distinct (hes : ∀ e ∈ es, e.SetFree) : (distinct es).Nodup :=
  nodup_foldl_insertDistinct (by simp) hes List.nodup_nil

/-- Among points without sets, a list is contained in another one if its members are. -/
theorem allAmong_iff (hes : ∀ e ∈ es, e.SetFree) : allAmong es ps = true ↔ ∀ e ∈ es, e ∈ ps := by
  induction es with
  | nil => simp [allAmong]
  | cons e es ih =>
    obtain ⟨he, hes⟩ := List.forall_mem_cons.mp hes
    have hany : ps.any (fun p => Expr.same e p) = true ↔ e ∈ ps := by
      rw [List.any_eq_true]
      simp only [he.same_iff]
      exact ⟨by rintro ⟨p, hp, rfl⟩; exact hp, fun hp => ⟨e, hp, rfl⟩⟩
    rw [allAmong, Bool.and_eq_true, hany, ih hes, List.forall_mem_cons]

end Distinct

/-! ## Points with values -/

/-- Points with values have no sets. -/
theorem setFree_of_forall (hV : ∀ e q, V e q → e.HasValue q) {es : List Expr}
    (hes : ∀ e ∈ es, ∃ q, V e q) : ∀ e ∈ es, e.SetFree := by
  intro e he
  obtain ⟨q, hq⟩ := hes e he
  exact (hV e q hq).setFree

/-- One point more adds its value. -/
theorem values_cons (hV : ∀ e q, V e q → e.HasValue q) {p : Expr} {q : ℚ} (hp : V p q)
    (es : List Expr) : {r | ∃ e ∈ p :: es, V e r} = insert q {r | ∃ e ∈ es, V e r} := by
  ext r
  have hr : V p r ↔ r = q := ⟨fun hr => (hV p r hr).unique (hV p q hp), fun hr => hr ▸ hp⟩
  simp only [Set.mem_ofPred_eq, Set.mem_insert_iff, List.mem_cons, or_and_right, exists_or,
    exists_eq_left, hr]

namespace SetExpr

variable {s t : SetExpr} {A B : Set ℚ}

/-! ## Sets of each shape -/

/-- A full interval goes from one infinity to the other. -/
theorem Full.interval_inv {l r : Expr} {lc rc : Bool} (h : (SetExpr.interval l lc r rc).Full) :
    l = .negInf ∧ r = .posInf := by
  cases h
  exact ⟨rfl, rfl⟩

/-- A union is full if one of its sides is. -/
theorem full_union_iff {a b : SetExpr} : (SetExpr.union a b).Full ↔ a.Full ∨ b.Full := by
  constructor
  · intro h
    cases h with
    | left ha => exact .inl ha
    | right _ hb => exact .inr hb
  · rintro (ha | hb)
    · exact .left ha b
    · exact .right a hb

/-- A set that holds the whole line stands for all rationals only. -/
theorem Full.eq_univ (hV : ∀ e q, V e q → e.HasValue q) (hs : s.Full) (h : Denotes V s A) :
    A = Set.univ := by
  ext q
  obtain ⟨b, hb, hiff⟩ := h.contains? hV (Expr.hasValue_rat q)
  rw [hs.contains? (Expr.hasValue_rat q), Option.some.injEq] at hb
  exact ⟨fun _ => Set.mem_univ q, fun _ => hiff.mp hb.symm⟩

/-- The empty set stands for no rationals. -/
theorem Denotes.empty_inv (h : Denotes V .empty A) : A = ∅ := by
  cases h with
  | empty => rfl
  | full h => cases h

/-- Listed points stand for their values, and none is repeated. -/
theorem Denotes.finite_inv {es : List Expr} (h : Denotes V (.finite es) A) :
    (∀ e ∈ es, ∃ q, V e q) ∧ es.Nodup ∧ A = {q | ∃ e ∈ es, V e q} := by
  cases h with
  | finite hes hd => exact ⟨hes, hd, rfl⟩
  | full h => cases h

/-- An interval stands for the rationals between its bounds. -/
theorem Denotes.interval_inv {l r : Expr} {lc rc : Bool} (h : Denotes V (.interval l lc r rc) A) :
    ∃ α β, l.HasBound α ∧ r.HasBound β ∧ A = between α lc β rc := by
  cases h with
  | interval hl hr => exact ⟨_, _, hl, hr, rfl⟩
  | full h =>
    obtain ⟨rfl, rfl⟩ := h.interval_inv
    exact ⟨⊥, ⊤, Expr.hasBound_negInf, Expr.hasBound_posInf, between_bot_top.symm⟩

/-- What is seen to be empty stands for no rationals. -/
theorem Denotes.isEmpty_eq (h : Denotes V s A) (hs : s.isEmpty = true) : A = ∅ := by
  cases s with
  | empty => exact h.empty_inv
  | finite es =>
    obtain ⟨-, -, rfl⟩ := h.finite_inv
    obtain rfl := List.isEmpty_iff.mp hs
    simp
  | interval l lc r rc => cases hs
  | union a b => cases hs
  | intersection a b => cases hs

/-- The set of points with values, listed once each. -/
theorem denotes_ofElements (hV : ∀ e q, V e q → e.HasValue q) {es : List Expr}
    (hes : ∀ e ∈ es, ∃ q, V e q) : Denotes V (.ofElements es) {q | ∃ e ∈ es, V e q} := by
  have hfree : ∀ e ∈ es, e.SetFree := setFree_of_forall hV hes
  have hset : {q | ∃ e ∈ es, V e q} = {q | ∃ e ∈ distinct es, V e q} := by
    simp only [mem_distinct hfree]
  have hdistinct : ∀ e ∈ distinct es, ∃ q, V e q := fun e he =>
    hes e ((mem_distinct hfree).mp he)
  rw [ofElements, hset]
  cases hds : distinct es with
  | nil =>
    simp only [List.not_mem_nil, false_and, exists_false, Set.ofPred_false]
    exact .empty
  | cons d ds =>
    rw [hds] at hdistinct
    exact .finite hdistinct (hds ▸ nodup_distinct hfree)

/-! ## Equality -/

/-- Only a literal equals a literal. -/
theorem same_literal_iff {e : Expr} {n : Number} :
    Expr.same e (.number n) = true ↔ e = .number n := by
  cases e <;> simp [Expr.same]

/-- Structurally equal sets hold the whole line both or not at all. -/
theorem full_iff_of_same {s t : SetExpr} (h : SetExpr.same s t = true) : s.Full ↔ t.Full := by
  cases s with
  | empty =>
    cases t with
    | empty => exact Iff.rfl
    | _ => simp [SetExpr.same] at h
  | finite es =>
    cases t with
    | finite ps => exact iff_of_false (by rintro ⟨⟩) (by rintro ⟨⟩)
    | _ => simp [SetExpr.same] at h
  | interval l lc r rc =>
    cases t with
    | interval l' lc' r' rc' =>
      simp only [SetExpr.same, Bool.and_eq_true] at h
      obtain ⟨⟨⟨hl, -⟩, hr⟩, -⟩ := h
      -- Equality is read from either side, as each side may be the one known to be a literal.
      constructor
      · intro hs
        obtain ⟨rfl, rfl⟩ := hs.interval_inv
        obtain rfl := ((Expr.SetFree.number _).same_iff l').mp hl
        obtain rfl := ((Expr.SetFree.number _).same_iff r').mp hr
        exact .interval lc' rc'
      · intro ht
        obtain ⟨rfl, rfl⟩ := ht.interval_inv
        obtain rfl := same_literal_iff.mp hl
        obtain rfl := same_literal_iff.mp hr
        exact .interval lc rc
    | _ => simp [SetExpr.same] at h
  | union a b =>
    cases t with
    | union a' b' =>
      rw [SetExpr.same, Bool.and_eq_true] at h
      rw [full_union_iff, full_union_iff, full_iff_of_same h.1, full_iff_of_same h.2]
    | _ => simp [SetExpr.same] at h
  | intersection a b =>
    cases t with
    | intersection a' b' => exact iff_of_false (by rintro ⟨⟩) (by rintro ⟨⟩)
    | _ => simp [SetExpr.same] at h

/-- Lists of points of one length are the same set if one is among the other. -/
theorem mem_iff_of_same {es ps : List Expr} (hes : ∀ e ∈ es, e.SetFree) (hd : es.Nodup)
    (h : SetExpr.same (.finite es) (.finite ps) = true) (e : Expr) : e ∈ es ↔ e ∈ ps := by
  rw [SetExpr.same, Bool.and_eq_true, beq_iff_eq, allAmong_iff hes] at h
  obtain ⟨hlen, hsub⟩ := h
  -- Without repetitions, as many points as there are leave no other point over.
  exact ((List.subperm_of_subset hd hsub).perm_of_length_le hlen.ge).mem_iff

/-- Intervals whose bounds have no sets in them are structurally equal only if they are the same. -/
theorem same_interval_iff {l l' r r' : Expr} {lc lc' rc rc' : Bool} (hl : l.SetFree)
    (hr : r.SetFree) : SetExpr.same (.interval l lc r rc) (.interval l' lc' r' rc') = true ↔
      SetExpr.interval l lc r rc = .interval l' lc' r' rc' := by
  simp only [SetExpr.same, Bool.and_eq_true, beq_iff_eq, hl.same_iff, hr.same_iff, interval.injEq,
    and_assoc]

/-- Structurally equal sets stand for the same rationals. -/
theorem Denotes.eq_of_same (hV : ∀ e q, V e q → e.HasValue q) (hs : Denotes V s A)
    (ht : Denotes V t B) (h : SetExpr.same s t = true) : A = B := by
  induction hs generalizing t B with
  | empty =>
    cases t with
    | empty => exact ht.empty_inv.symm
    | _ => simp [SetExpr.same] at h
  | finite hes hd =>
    cases t with
    | finite ps =>
      obtain ⟨-, -, rfl⟩ := ht.finite_inv
      simp only [mem_iff_of_same (setFree_of_forall hV hes) hd h]
    | _ => simp [SetExpr.same] at h
  | interval hl hr =>
    cases t with
    | interval l' lc' r' rc' =>
      obtain ⟨α, β, hl', hr', rfl⟩ := ht.interval_inv
      obtain ⟨rfl, rfl, rfl, rfl⟩ :=
        interval.injEq .. ▸ (same_interval_iff hl.setFree hr.setFree).mp h
      rw [hl.unique hl', hr.unique hr']
    | _ => simp [SetExpr.same] at h
  | @union a b A₁ B₁ ha hb iha ihb =>
    -- A union with the whole line in it denotes everything, whatever its parts denote.
    by_cases hfull : t.Full
    · have hs : Denotes V (.union a b) (A₁ ∪ B₁) := .union ha hb
      rw [hfull.eq_univ hV ht, ((full_iff_of_same h).mpr hfull).eq_univ hV hs]
    · cases ht with
      | union ha' hb' =>
        rw [SetExpr.same, Bool.and_eq_true] at h
        rw [iha ha' h.1, ihb hb' h.2]
      | full ht => exact absurd ht hfull
      | _ => simp [SetExpr.same] at h
  | intersection ha hb iha ihb =>
    cases ht with
    | intersection ha' hb' =>
      rw [SetExpr.same, Bool.and_eq_true] at h
      rw [iha ha' h.1, ihb hb' h.2]
    | full ht => cases ht <;> simp [SetExpr.same] at h
    | _ => simp [SetExpr.same] at h
  | full hs => exact (((full_iff_of_same h).mp hs).eq_univ hV ht).symm

end SetExpr

end SymbolicAlgebra
