import Mathlib.Tactic.ByContra
import Mathlib.Tactic.SplitIfs
import SymbolicAlgebra.Proofs.Expr.Equality

/-!
# Expressions with distinct points

A list of points takes in a point only if no equal one is there, so that no two points of a set are
equal. `Expr.WellFormed` says this of every list of points in an expression. On such expressions
structural equality is an equivalence relation, `WellFormed.congruent`, which would fail for lists with
repetitions: there a list may be among another one of its length without taking up all of it.

A set is well-formed when it is so as an expression.
-/

namespace SymbolicAlgebra

/-! ## Lists that are among each other -/

section Injective

variable {α β : Type} {R : α → β → Prop} {as : List α} {bs : List β}

/-- A list whose elements have partners of their own in another one is not longer. -/
theorem length_le_of_injective (h : ∀ a ∈ as, ∃ b ∈ bs, R a b)
    (hinj : as.Pairwise fun a a' => ∀ b, R a b → ¬ R a' b) : as.length ≤ bs.length := by
  induction as generalizing bs with
  | nil => exact Nat.zero_le _
  | cons a as ih =>
    obtain ⟨⟨b, hb, hab⟩, has⟩ := List.forall_mem_cons.mp h
    obtain ⟨ha, hinj⟩ := List.pairwise_cons.mp hinj
    -- The partner of `a` is taken out; the others are partners of the remaining elements.
    obtain ⟨l, r, rfl⟩ := List.append_of_mem hb
    have hrest : ∀ a' ∈ as, ∃ c ∈ l ++ r, R a' c := by
      intro a' ha'
      obtain ⟨c, hc, hac⟩ := has a' ha'
      have hne : c ≠ b := by
        rintro rfl
        exact ha a' ha' c hab hac
      exact ⟨c, by simpa [hne] using hc, hac⟩
    have hle : as.length ≤ (l ++ r).length := ih hrest hinj
    simp only [List.length_cons, List.length_append] at hle ⊢
    omega

/-- If the other list is not longer either, each of its elements is a partner. -/
theorem exists_partner_of_injective (hlen : bs.length ≤ as.length)
    (h : ∀ a ∈ as, ∃ b ∈ bs, R a b)
    (hinj : as.Pairwise fun a a' => ∀ b, R a b → ¬ R a' b) : ∀ b ∈ bs, ∃ a ∈ as, R a b := by
  intro b hb
  by_contra hnone
  obtain ⟨l, r, rfl⟩ := List.append_of_mem hb
  have hrest : ∀ a ∈ as, ∃ c ∈ l ++ r, R a c := by
    intro a ha
    obtain ⟨c, hc, hac⟩ := h a ha
    have hne : c ≠ b := by
      rintro rfl
      exact hnone ⟨a, ha, hac⟩
    exact ⟨c, by simpa [hne] using hc, hac⟩
  have hle : as.length ≤ (l ++ r).length := length_le_of_injective hrest hinj
  simp only [List.length_append, List.length_cons] at hle hlen
  omega

end Injective

/-! ## Lists of points -/

section Distinct

variable {es ps : List Expr} {e p : Expr}

/-- Each expression of one list has an equal one in the other list. -/
theorem allAmong_iff_exists :
    allAmong es ps = true ↔ ∀ e ∈ es, ∃ p ∈ ps, Expr.same e p = true := by
  induction es with
  | nil => simp [allAmong]
  | cons e es ih => simp [allAmong, ih]

/-- Lists of points are equal if they are equally long and each point of the first one has an equal
one in the second one. -/
theorem same_finite_iff : SetExpr.same (.finite es) (.finite ps) = true ↔
    es.length = ps.length ∧ ∀ e ∈ es, ∃ p ∈ ps, Expr.same e p = true := by
  rw [SetExpr.same, Bool.and_eq_true, beq_iff_eq, allAmong_iff_exists]

/-- Inserting brings in no element but those of the two lists. -/
theorem mem_or_mem_of_mem_foldl (h : e ∈ ps.foldl insertDistinct es) : e ∈ es ∨ e ∈ ps := by
  induction ps generalizing es with
  | nil => exact .inl h
  | cons p ps ih =>
    rw [List.mem_cons, ← or_assoc]
    refine (ih h).imp_left fun he => ?_
    unfold insertDistinct at he
    split_ifs at he with hp
    · exact .inl he
    · rwa [List.mem_append, List.mem_singleton] at he

/-- Leaving out repetitions brings in no points. -/
theorem mem_of_mem_distinct (h : e ∈ distinct es) : e ∈ es :=
  (mem_or_mem_of_mem_foldl h).resolve_left List.not_mem_nil

/-- A point is only inserted where no equal one is listed. -/
theorem pairwise_insertDistinct (h : es.Pairwise fun a b => Expr.same a b = false) (e : Expr) :
    (insertDistinct es e).Pairwise fun a b => Expr.same a b = false := by
  unfold insertDistinct
  split_ifs with he
  · exact h
  · rw [List.pairwise_append]
    refine ⟨h, List.pairwise_singleton _ _, fun a ha b hb => ?_⟩
    obtain rfl := List.mem_singleton.mp hb
    exact Bool.eq_false_iff.mpr fun hab => he (List.any_eq_true.mpr ⟨a, ha, hab⟩)

/-- No two elements are equal after repetitions are left out. -/
theorem pairwise_distinct (es : List Expr) :
    (distinct es).Pairwise fun a b => Expr.same a b = false := by
  have hfoldl : ∀ (ps es : List Expr), (es.Pairwise fun a b => Expr.same a b = false) →
      (ps.foldl insertDistinct es).Pairwise fun a b => Expr.same a b = false := by
    intro ps
    induction ps with
    | nil => exact fun es h => h
    | cons p ps ih => exact fun es h => ih _ (pairwise_insertDistinct h p)
  exact hfoldl es [] .nil

/-- Inserting drops no points. -/
theorem subset_foldl_insertDistinct (ps es : List Expr) : es ⊆ ps.foldl insertDistinct es := by
  induction ps generalizing es with
  | nil => exact List.Subset.refl es
  | cons p ps ih =>
    refine List.Subset.trans ?_ (ih _)
    unfold insertDistinct
    split_ifs
    · exact List.Subset.refl es
    · exact List.subset_append_left es [p]

/-- For each element an equal one is kept. -/
theorem exists_mem_distinct (he : e ∈ es) (hself : Expr.same e e = true) :
    ∃ d ∈ distinct es, Expr.same d e = true := by
  have hfoldl : ∀ (ps es : List Expr), e ∈ ps →
      ∃ d ∈ ps.foldl insertDistinct es, Expr.same d e = true := by
    intro ps
    induction ps with
    | nil => exact fun _ h => absurd h List.not_mem_nil
    | cons p ps ih =>
      intro es h
      rcases List.mem_cons.mp h with rfl | h
      · -- Either an equal element has been there before, or it is put in now.
        have hins : ∃ d ∈ insertDistinct es e, Expr.same d e = true := by
          unfold insertDistinct
          split_ifs with hany
          · exact List.any_eq_true.mp hany
          · exact ⟨e, by simp, hself⟩
        obtain ⟨d, hd, hde⟩ := hins
        exact ⟨d, subset_foldl_insertDistinct ps _ hd, hde⟩
      · exact ih _ h
  exact hfoldl es [] he

/-- A list without repetitions stays as it is. -/
theorem distinct_eq_self (h : es.Pairwise fun a b => Expr.same a b = false) :
    distinct es = es := by
  have hfoldl : ∀ ps es : List Expr, ((es ++ ps).Pairwise fun a b => Expr.same a b = false) →
      ps.foldl insertDistinct es = es ++ ps := by
    intro ps
    induction ps with
    | nil => exact fun es _ => (List.append_nil es).symm
    | cons p ps ih =>
      intro es h
      have hp : es.any (· == p) = false := by
        refine List.any_eq_false.mpr fun e he => ?_
        exact Bool.eq_false_iff.mp ((List.pairwise_append.mp h).2.2 e he p List.mem_cons_self)
      have hins : insertDistinct es p = es ++ [p] := by
        rw [insertDistinct, hp, if_neg Bool.false_ne_true]
      rw [List.append_cons] at h ⊢
      rw [List.foldl_cons, hins, ih _ h]
  exact hfoldl es [] h

end Distinct

/-! ## Well-formed expressions -/

namespace Expr

/-- No list of points in the expression has two equal ones. -/
inductive WellFormed : Expr → Prop
  | number (n : Number) : WellFormed (.number n)
  | var (v : String) : WellFormed (.var v)
  | boolean (b : Bool) : WellFormed (.boolean b)
  | sum {es : List Expr} (h : ∀ e ∈ es, WellFormed e) : WellFormed (.sum es)
  | product {es : List Expr} (h : ∀ e ∈ es, WellFormed e) : WellFormed (.product es)
  | apply (f : Func) {es : List Expr} (h : ∀ e ∈ es, WellFormed e) : WellFormed (.apply f es)
  | neg {a : Expr} (ha : WellFormed a) : WellFormed (.neg a)
  | not {a : Expr} (ha : WellFormed a) : WellFormed (.not a)
  | power {a b : Expr} (ha : WellFormed a) (hb : WellFormed b) : WellFormed (.power a b)
  | div {a b : Expr} (ha : WellFormed a) (hb : WellFormed b) : WellFormed (.div a b)
  | and {a b : Expr} (ha : WellFormed a) (hb : WellFormed b) : WellFormed (.and a b)
  | or {a b : Expr} (ha : WellFormed a) (hb : WellFormed b) : WellFormed (.or a b)
  | compare (r : Comparison) {a b : Expr} (ha : WellFormed a) (hb : WellFormed b) :
      WellFormed (.compare r a b)
  | empty : WellFormed (.set .empty)
  | finite {es : List Expr} (h : ∀ e ∈ es, WellFormed e)
      (hd : es.Pairwise fun a b => same a b = false) : WellFormed (.set (.finite es))
  | interval {l r : Expr} (lc rc : Bool) (hl : WellFormed l) (hr : WellFormed r) :
      WellFormed (.set (.interval l lc r rc))
  | union {a b : SetExpr} (ha : WellFormed (.set a)) (hb : WellFormed (.set b)) :
      WellFormed (.set (.union a b))
  | intersection {a b : SetExpr} (ha : WellFormed (.set a)) (hb : WellFormed (.set b)) :
      WellFormed (.set (.intersection a b))
  | mem {a : Expr} {s : SetExpr} (ha : WellFormed a) (hs : WellFormed (.set s)) :
      WellFormed (.mem a s)

variable {a b c e : Expr} {as bs : List Expr} {s t : SetExpr}

/-- The points of a well-formed set are well-formed and different. -/
theorem WellFormed.finite_inv (h : (Expr.set (.finite as)).WellFormed) :
    (∀ a ∈ as, a.WellFormed) ∧ as.Pairwise fun a b => same a b = false := by
  cases h with
  | finite h hd => exact ⟨h, hd⟩

/-- The bounds of a well-formed interval are well-formed. -/
theorem WellFormed.interval_inv {l r : Expr} {lc rc : Bool}
    (h : (Expr.set (.interval l lc r rc)).WellFormed) : l.WellFormed ∧ r.WellFormed := by
  cases h with
  | interval lc rc hl hr => exact ⟨hl, hr⟩

/-- Both sides of a well-formed union are well-formed. -/
theorem WellFormed.union_inv (h : (Expr.set (.union s t)).WellFormed) :
    (Expr.set s).WellFormed ∧ (Expr.set t).WellFormed := by
  cases h with
  | union hs ht => exact ⟨hs, ht⟩

/-- Both sides of a well-formed intersection are well-formed. -/
theorem WellFormed.intersection_inv (h : (Expr.set (.intersection s t)).WellFormed) :
    (Expr.set s).WellFormed ∧ (Expr.set t).WellFormed := by
  cases h with
  | intersection hs ht => exact ⟨hs, ht⟩

/-- Leaving out repetitions makes a set of any list of well-formed points. -/
theorem WellFormed.distinct {es : List Expr} (h : ∀ e ∈ es, e.WellFormed) :
    (Expr.set (.finite (SymbolicAlgebra.distinct es))).WellFormed :=
  .finite (fun e he => h e (mem_of_mem_distinct he)) (pairwise_distinct es)

/-! ## Structural equality as an equivalence -/

/-- Sets are equal as expressions if they are equal as sets. -/
theorem same_set (s t : SetExpr) : same (.set s) (.set t) = SetExpr.same s t := by rw [same]

section Congr

/-- Whatever `a` is equal to, is equal to the same expressions. -/
def Congruent (a : Expr) : Prop := ∀ b, same a b = true → ∀ c, same a c = same b c

/-- Lists of operands that are equal are equal to the same lists. -/
theorem sameAll_congr (hcongr : ∀ a ∈ as, Congruent a)
    (h : sameAll as bs = true) (cs : List Expr) : sameAll as cs = sameAll bs cs := by
  induction as generalizing bs cs with
  | nil => cases bs <;> simp [sameAll] at h; rfl
  | cons a as ih =>
    obtain ⟨ha, has⟩ := List.forall_mem_cons.mp hcongr
    cases bs <;> simp [sameAll] at h
    cases cs <;> simp [sameAll, ha _ h.1, ih has h.2]

/-- A set is equal to the same sets as its equals. -/
theorem Congruent.set (hs : Congruent (.set s)) (h : SetExpr.same s t = true)
    (u : SetExpr) : SetExpr.same s u = SetExpr.same t u := by
  have hst : same (.set s) (.set t) = true := by rw [same_set, h]
  rw [← same_set, ← same_set, hs _ hst]

/-- Different points are not equal to the same expression. -/
theorem pairwise_not_same (hcongr : ∀ a ∈ as, Congruent a)
    (hd : as.Pairwise fun a b => same a b = false) :
    as.Pairwise fun a a' => ∀ b, same a b = true → ¬ same a' b = true := by
  refine hd.imp_of_mem fun {a a'} ha ha' hne b hab ha'b => ?_
  have heq : same a a' = true := by
    rw [hcongr a ha b hab a', ← hcongr a' ha' b ha'b a', same_refl]
  exact Bool.noConfusion (heq.symm.trans hne)

/-- Lists without repetitions that are equal are equal to the same lists: each point of the second
list has its partner in the first one, too. -/
theorem same_finite_congr (hcongr : ∀ a ∈ as, Congruent a)
    (hd : as.Pairwise fun a b => same a b = false)
    (h : SetExpr.same (.finite as) (.finite bs) = true) (cs : List Expr) :
    SetExpr.same (.finite as) (.finite cs) = SetExpr.same (.finite bs) (.finite cs) := by
  obtain ⟨hlen, hsub⟩ := same_finite_iff.mp h
  have hpartner : ∀ b ∈ bs, ∃ a ∈ as, same a b = true :=
    exists_partner_of_injective (Nat.le_of_eq hlen.symm) hsub (pairwise_not_same hcongr hd)
  rw [Bool.eq_iff_iff, same_finite_iff, same_finite_iff, hlen]
  refine and_congr_right fun _ => ⟨fun hcs b hb => ?_, fun hcs a ha => ?_⟩
  · obtain ⟨a, ha, hab⟩ := hpartner b hb
    obtain ⟨c, hc, hac⟩ := hcs a ha
    exact ⟨c, hc, hcongr a ha b hab c ▸ hac⟩
  · obtain ⟨b, hb, hab⟩ := hsub a ha
    obtain ⟨c, hc, hbc⟩ := hcs b hb
    exact ⟨c, hc, (hcongr a ha b hab c).trans hbc⟩

/-- A well-formed expression is equal to the same expressions as its equals. The induction is on the
expression; only for lists of points the order may differ, and there the points have to be
different. -/
theorem WellFormed.congruent (h : a.WellFormed) : Congruent a := by
  unfold Congruent
  intro b hb c
  induction h generalizing b c with
  -- Leaves are equal only to themselves.
  | number n | var v | boolean v => cases b <;> simp [same] at hb; rw [hb]
  | sum _ ih | product _ ih =>
    cases b <;> simp [same] at hb
    cases c <;> simp [same, sameAll_congr ih hb]
  | apply f _ ih =>
    cases b <;> simp [same] at hb
    cases c <;> simp [same, hb.1, sameAll_congr ih hb.2]
  | neg _ ih | not _ ih =>
    cases b <;> simp [same] at hb
    cases c <;> simp [same, ih _ hb]
  | power _ _ iha ihb | div _ _ iha ihb | and _ _ iha ihb | or _ _ iha ihb =>
    cases b <;> simp [same] at hb
    cases c <;> simp [same, iha _ hb.1, ihb _ hb.2]
  | compare r _ _ iha ihb =>
    cases b <;> simp [same] at hb
    cases c <;> simp [same, hb.1.1, iha _ hb.1.2, ihb _ hb.2]
  | empty =>
    cases b with
    | set t => cases t <;> simp [same, SetExpr.same] at hb; rfl
    | _ => simp [same] at hb
  | finite has hd ih =>
    cases b with
    | set t =>
      rw [same_set] at hb
      cases t with
      | finite bs =>
        cases c with
        | set u => cases u <;> simp [same, SetExpr.same, same_finite_congr ih hd hb]
        | _ => simp [same]
      | _ => simp [SetExpr.same] at hb
    | _ => simp [same] at hb
  | interval lc rc _ _ ihl ihr =>
    cases b with
    | set t =>
      cases t <;> simp [same, SetExpr.same] at hb
      obtain ⟨⟨⟨hl, rfl⟩, hr⟩, rfl⟩ := hb
      cases c with
      | set u => cases u <;> simp [same, SetExpr.same, ihl _ hl, ihr _ hr]
      | _ => simp [same]
    | _ => simp [same] at hb
  | union _ _ iha ihb | intersection _ _ iha ihb =>
    cases b with
    | set t =>
      cases t <;> simp [same, SetExpr.same] at hb
      cases c with
      | set u =>
        cases u <;> simp [same, SetExpr.same, Congruent.set iha hb.1, Congruent.set ihb hb.2]
      | _ => simp [same]
    | _ => simp [same] at hb
  | mem _ _ iha ihs =>
    cases b <;> simp [same] at hb
    cases c <;> simp [same, iha _ hb.1, Congruent.set ihs hb.2]

/-- Structural equality is symmetric from a well-formed expression. -/
theorem WellFormed.same_symm (ha : a.WellFormed) (h : same a b = true) : same b a = true := by
  rw [← ha.congruent b h a, same_refl]

/-- Structural equality is transitive from a well-formed expression. -/
theorem WellFormed.same_trans (ha : a.WellFormed) (hab : same a b = true)
    (hbc : same b c = true) : same a c = true := by
  rw [ha.congruent b hab c, hbc]

/-- No expression is equal to two points of a well-formed set. -/
theorem WellFormed.pairwise (h : (Expr.set (.finite as)).WellFormed) :
    as.Pairwise fun a a' => ∀ b, same a b = true → ¬ same a' b = true := by
  obtain ⟨has, hd⟩ := h.finite_inv
  exact pairwise_not_same (fun a ha => (has a ha).congruent) hd

/-- Two lists of points are the same set if each is among the other. -/
theorem WellFormed.same_finite_iff_among (ha : (Expr.set (.finite as)).WellFormed)
    (hb : (Expr.set (.finite bs)).WellFormed) :
    SetExpr.same (.finite as) (.finite bs) = true ↔
      (∀ a ∈ as, ∃ b ∈ bs, same a b = true) ∧ ∀ b ∈ bs, ∃ a ∈ as, same b a = true := by
  constructor
  · intro h
    have hsymm : same (.set (.finite bs)) (.set (.finite as)) = true :=
      ha.same_symm (same_set _ _ ▸ h)
    exact ⟨(same_finite_iff.mp h).2, (same_finite_iff.mp (same_set _ _ ▸ hsymm)).2⟩
  · rintro ⟨hab, hba⟩
    exact same_finite_iff.mpr ⟨Nat.le_antisymm (length_le_of_injective hab ha.pairwise)
      (length_le_of_injective hba hb.pairwise), hab⟩

/-- A point that is equal to one of a list is equal to one that is kept of the list. -/
theorem exists_same_mem_distinct (ha : a.WellFormed) (hbs : ∀ b ∈ bs, b.WellFormed)
    (h : ∃ b ∈ bs, same a b = true) : ∃ d ∈ distinct bs, same a d = true := by
  obtain ⟨b, hb, hab⟩ := h
  obtain ⟨d, hd, hdb⟩ := exists_mem_distinct hb (same_refl b)
  have hbd : same b d = true := (hbs d (mem_of_mem_distinct hd)).same_symm hdb
  exact ⟨d, hd, ha.same_trans hab hbd⟩

/-- Lists that are among each other give the same set. -/
theorem same_distinct (has : ∀ a ∈ as, a.WellFormed) (hbs : ∀ b ∈ bs, b.WellFormed)
    (hab : ∀ a ∈ as, ∃ b ∈ bs, same a b = true) (hba : ∀ b ∈ bs, ∃ a ∈ as, same b a = true) :
    SetExpr.same (.finite (distinct as)) (.finite (distinct bs)) = true := by
  refine (WellFormed.same_finite_iff_among (.distinct has) (.distinct hbs)).mpr ⟨?_, ?_⟩
  · intro a ha
    have ha := mem_of_mem_distinct ha
    exact exists_same_mem_distinct (has a ha) hbs (hab a ha)
  · intro b hb
    have hb := mem_of_mem_distinct hb
    exact exists_same_mem_distinct (hbs b hb) has (hba b hb)

end Congr

end Expr

end SymbolicAlgebra
