import Mathlib.Data.List.Sort
import Mathlib.Data.String.Basic
import SymbolicAlgebra.Proofs.Expr.Children

/-!
# Free variables

The free variables of an expression are listed in alphabetical order, each once, so that the list is
known from its members: expressions in which the same variables occur have the same list,
`Expr.freeVariables_eq`. Structural equality keeps the variables of a well-formed expression. A set
with a point listed twice could be equal to one with other variables.
-/

namespace SymbolicAlgebra

/-! ## Sorted lists without repetitions -/

section Reps

variable {α : Type} [LinearOrder α] {a : α} {as : List α}

/-- The loop that drops repetitions goes on from the elements that it has kept. -/
theorem exists_eraseReps_loop (h : (a :: as).Pairwise (· ≤ ·)) (kept : List α) :
    ∃ l, List.eraseRepsBy.loop (· == ·) a as kept = kept.reverse ++ l ∧ l.Pairwise (· < ·) ∧
      ∀ x, x ∈ l ↔ x ∈ a :: as := by
  induction as generalizing a kept with
  | nil => exact ⟨[a], by simp [List.eraseRepsBy.loop], by simp, by simp⟩
  | cons b as ih =>
    obtain ⟨hle, hbs⟩ := List.pairwise_cons.mp h
    rw [List.eraseRepsBy.loop]
    cases hab : a == b with
    | true =>
      obtain rfl := beq_iff_eq.mp hab
      obtain ⟨l, hl, hsorted, hmem⟩ := ih hbs kept
      exact ⟨l, hl, hsorted, fun x => by simp [hmem]⟩
    | false =>
      obtain ⟨l, hl, hsorted, hmem⟩ := ih hbs (a :: kept)
      have hlt : a < b := lt_of_le_of_ne (hle b List.mem_cons_self) (by simpa using hab)
      refine ⟨a :: l, by simp [hl], List.pairwise_cons.mpr ⟨fun x hx => ?_, hsorted⟩,
        fun x => by simp [hmem]⟩
      rcases List.mem_cons.mp ((hmem x).mp hx) with rfl | hx
      · exact hlt
      · exact hlt.trans_le ((List.pairwise_cons.mp hbs).1 x hx)

/-- A sorted list is strictly sorted without its repetitions. -/
theorem eraseReps_of_pairwise (h : as.Pairwise (· ≤ ·)) :
    as.eraseReps.Pairwise (· < ·) ∧ ∀ x, x ∈ as.eraseReps ↔ x ∈ as := by
  cases as with
  | nil => exact ⟨List.Pairwise.nil, fun x => Iff.rfl⟩
  | cons a as =>
    obtain ⟨l, hl, hsorted, hmem⟩ := exists_eraseReps_loop h []
    have heq : (a :: as).eraseReps = l := hl
    exact heq ▸ ⟨hsorted, hmem⟩

end Reps

namespace Expr

variable {a b e : Expr} {x : String}

/-! ## The list of free variables -/

/-- A variable is contained in itself, or in an operand. -/
theorem containsVar_eq (x : String) (e : Expr) : e.containsVar x =
    match e with
    | .var w => w == x
    | e => e.children.any (containsVar x) := by
  rw [containsVar, fold_eq, List.any_map]
  cases e <;> rfl

/-- The names are those of the operands, and a variable's own unless it is a constant. -/
theorem variableNames_eq (e : Expr) : e.variableNames =
    match e with
    | .var v => if constants.contains v then [] else [v]
    | e => e.children.flatMap variableNames := by
  rw [variableNames, fold_eq]
  cases e with
  | var v => rfl
  | _ => exact List.flatMap_def.symm

/-- The names listed are those of the variables contained, less the constants. -/
theorem mem_variableNames :
    x ∈ e.variableNames ↔ e.containsVar x = true ∧ constants.contains x = false := by
  induction e using induction_children with
  | node e ih =>
    have hchildren : x ∈ e.children.flatMap variableNames ↔
        e.children.any (containsVar x) = true ∧ constants.contains x = false := by
      rw [List.mem_flatMap, List.any_eq_true, ← exists_and_right]
      refine exists_congr fun c => ?_
      rw [and_assoc]
      exact and_congr_right fun hc => ih c hc
    rw [variableNames_eq, containsVar_eq]
    cases e with
    | var v =>
      dsimp only
      rw [beq_iff_eq]
      split_ifs with hv
      · simp only [List.not_mem_nil, false_iff, not_and]
        rintro rfl
        rw [hv]
        exact Bool.noConfusion
      · rw [List.mem_singleton, eq_comm, iff_self_and]
        rintro rfl
        exact Bool.eq_false_iff.mpr hv
    | _ => exact hchildren

/-- Expressions with the same variables have the same list of free variables. -/
theorem freeVariables_eq (h : ∀ x, a.containsVar x = b.containsVar x) :
    a.freeVariables = b.freeVariables := by
  have hsorted : ∀ e : Expr, e.freeVariables.Pairwise (· < ·) ∧
      ∀ x, x ∈ e.freeVariables ↔ e.containsVar x = true ∧ constants.contains x = false := by
    intro e
    obtain ⟨hlt, hmem⟩ :=
      eraseReps_of_pairwise (List.sortedLE_mergeSort (l := e.variableNames)).pairwise
    exact ⟨hlt, fun x => (hmem x).trans (List.mem_mergeSort.trans mem_variableNames)⟩
  obtain ⟨ha, hmema⟩ := hsorted a
  obtain ⟨hb, hmemb⟩ := hsorted b
  have hperm : a.freeVariables.Perm b.freeVariables :=
    (List.perm_ext_iff_of_nodup ha.nodup hb.nodup).mpr fun x => by rw [hmema, hmemb, h]
  exact hperm.eq_of_pairwise (fun _ _ _ _ hab hba => absurd hba hab.asymm) ha hb

/-! ## Equal expressions -/

/-- A test that structural equality respects has the same outcome on equal lists. -/
theorem any_eq_of_sameAll {p : Expr → Bool} {as bs : List Expr}
    (hp : ∀ a ∈ as, ∀ {b}, same a b = true → p a = p b) (h : sameAll as bs = true) :
    as.any p = bs.any p := by
  induction as generalizing bs with
  | nil =>
    cases bs with
    | nil => rfl
    | cons b bs => simp [sameAll] at h
  | cons a as ih =>
    obtain ⟨ha, has⟩ := List.forall_mem_cons.mp hp
    cases bs with
    | nil => simp [sameAll] at h
    | cons b bs =>
      rw [sameAll, Bool.and_eq_true] at h
      rw [List.any_cons, List.any_cons, ha h.1, ih has h.2]

/-- The points of a set all have their partners in an equal set, since none is listed twice. -/
theorem WellFormed.any_eq_of_same_finite {p : Expr → Bool} {as bs : List Expr}
    (has : (Expr.set (.finite as)).WellFormed)
    (hp : ∀ a ∈ as, ∀ {b}, same a b = true → p a = p b)
    (h : SetExpr.same (.finite as) (.finite bs) = true) : as.any p = bs.any p := by
  obtain ⟨hlen, hsub⟩ := same_finite_iff.mp h
  have hpartner : ∀ b ∈ bs, ∃ a ∈ as, same a b = true :=
    exists_partner_of_injective hlen.symm.le hsub has.pairwise
  rw [Bool.eq_iff_iff, List.any_eq_true, List.any_eq_true]
  constructor
  · rintro ⟨a, ha, hpa⟩
    obtain ⟨b, hb, hab⟩ := hsub a ha
    exact ⟨b, hb, hp a ha hab ▸ hpa⟩
  · rintro ⟨b, hb, hpb⟩
    obtain ⟨a, ha, hab⟩ := hpartner b hb
    exact ⟨a, ha, (hp a ha hab).trans hpb⟩

/-- Equal expressions have the same variables. -/
theorem WellFormed.containsVar_eq_of_same (ha : a.WellFormed) (h : same a b = true) (x : String) :
    a.containsVar x = b.containsVar x := by
  induction ha generalizing b with
  | number n | var v | boolean v => cases b <;> simp [same] at h; rw [h]
  | sum _ ih | product _ ih =>
    cases b <;> simp [same] at h
    simpa using any_eq_of_sameAll ih h
  | apply f _ ih =>
    cases b <;> simp [same] at h
    simpa using any_eq_of_sameAll ih h.2
  | neg _ ih | not _ ih =>
    cases b <;> simp [same] at h
    simpa using ih h
  | power _ _ iha ihb | div _ _ iha ihb | and _ _ iha ihb | or _ _ iha ihb =>
    cases b <;> simp [same] at h
    simp [iha h.1, ihb h.2]
  | compare r _ _ iha ihb =>
    cases b <;> simp [same] at h
    simp [iha h.1.2, ihb h.2]
  | empty =>
    cases b with
    | set t => cases t <;> simp [same, SetExpr.same] at h; rfl
    | _ => simp [same] at h
  | finite has hd ih =>
    cases b with
    | set t =>
      rw [same_set] at h
      cases t with
      | finite bs =>
        rw [containsVar_set, containsVar_set]
        exact (WellFormed.finite has hd).any_eq_of_same_finite ih h
      | _ => simp [SetExpr.same] at h
    | _ => simp [same] at h
  | interval lc rc _ _ ihl ihr =>
    cases b with
    | set t =>
      cases t <;> simp [same, SetExpr.same] at h
      simp [SetExpr.entities, ihl h.1.1.1, ihr h.1.2]
    | _ => simp [same] at h
  | union _ _ iha ihb | intersection _ _ iha ihb =>
    cases b with
    | set t =>
      cases t <;> simp [same, SetExpr.same] at h
      have hl := iha ((same_set _ _).trans h.1)
      have hr := ihb ((same_set _ _).trans h.2)
      rw [containsVar_set, containsVar_set] at hl hr ⊢
      simp only [SetExpr.entities, List.any_append, hl, hr]
    | _ => simp [same] at h
  | mem _ _ iha ihs =>
    cases b <;> simp [same] at h
    rw [containsVar_mem, containsVar_mem, iha h.1, ihs ((same_set _ _).trans h.2)]

end Expr

end SymbolicAlgebra
