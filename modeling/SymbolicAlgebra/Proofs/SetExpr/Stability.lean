import Mathlib.Data.Fintype.Option
import SymbolicAlgebra.Proofs.Expr.Evaluation
import SymbolicAlgebra.Proofs.Expr.Substitution

/-!
# Answers under substitution

A value, a truth and a membership that are known stay what they are when an expression is put in the
place of a variable. An expression with a value has no variable left in it, but a statement or a set
may have some: a connective is decided by one of its sides, and a set by one of its parts.

A point can also lie in a list of points because it is written like one of them, variables included.
Such an answer stands because equal expressions stay equal, which is where the sets have to be
well-formed.
-/

namespace SymbolicAlgebra

open SymbolicAlgebra.Expr

/-! ## Three-valued connectives -/

section Connectives

variable {p q p' q' : Option Bool}

theorem foretells_iff {α : Type} {a a' : Option α} : Foretells a a' ↔ a = none ∨ a' = a := by
  cases a with
  | none => exact iff_of_true nofun (.inl rfl)
  | some c => simp [Foretells]

/-- A disjunction that is decided is not changed by answers that come in later. -/
theorem Foretells.orElse? (hp : Foretells p p') (hq : Foretells q q') :
    Foretells (orElse? p q) (orElse? p' q') := by
  rw [foretells_iff] at hp hq ⊢
  revert p q p' q'
  decide

/-- A conjunction that is decided is not changed by answers that come in later. -/
theorem Foretells.andThen? (hp : Foretells p p') (hq : Foretells q q') :
    Foretells (andThen? p q) (andThen? p' q') := by
  rw [foretells_iff] at hp hq ⊢
  revert p q p' q'
  decide

end Connectives

/-! ## Sets -/

variable {x : String} {t e : Expr} {n : Number}

/-- A point that has the value of a listed one lies in the set. -/
theorem contains?_of_samePoint {es : List Expr} {d : Expr} {m : Number} (hd : d ∈ es)
    (hm : d.eval? = some m) (hn : e.eval? = some n) (h : samePoint m n = true) :
    (SetExpr.finite es).contains? e = some true := by
  have hvalue : ((es.map eval?).any fun v => v.any fun k => samePoint k n) = true :=
    List.any_eq_true.mpr ⟨_, List.mem_map_of_mem hd, by rw [hm, Option.any_some, h]⟩
  rw [SetExpr.contains?, hn, Option.bind_some, amongValues?, if_pos hvalue, ite_self]

/-- Membership in a list of points stands under substitution. -/
theorem contains?_finite_substitute {es : List Expr} (hes : (Expr.set (.finite es)).WellFormed)
    (he : e.WellFormed) (ht : t.WellFormed) (hx : x ∉ constants) :
    Foretells ((SetExpr.finite es).contains? e)
      ((SetExpr.finite (distinct (es.map fun e => e.substitute x t))).contains?
        (e.substitute x t)) := by
  intro b h
  obtain ⟨hwf, hd⟩ := hes.finite_inv
  have hwf' : ∀ d ∈ es.map fun e => e.substitute x t, d.WellFormed :=
    List.forall_mem_map.mpr fun d hd => (hwf d hd).substitute ht
  rw [SetExpr.contains?] at h
  split_ifs at h with hany
  · obtain rfl := Option.some.inj h
    obtain ⟨p, hp, hpe⟩ := List.any_eq_true.mp hany
    have hsame : same (p.substitute x t) (e.substitute x t) = true :=
      (hwf p hp).same_substitute he ht hpe
    have hmem := List.mem_map_of_mem (f := fun e => e.substitute x t) hp
    obtain ⟨d, hd, hed⟩ := exists_same_mem_distinct (he.substitute ht) hwf'
      ⟨_, hmem, (hwf' _ hmem).same_symm hsame⟩
    rw [SetExpr.contains?, if_pos]
    · rfl
    · exact List.any_eq_true.mpr ⟨d, hd, (he.substitute ht).same_symm hed⟩
  · obtain ⟨n, hn, hb⟩ := Option.bind_eq_some_iff.mp h
    rw [substitute_of_eval (eval?_eq_some_iff.mp hn) hx]
    rw [amongValues?] at hb
    split_ifs at hb with hvalue hall
    · -- The point with the value stays, so that it is kept.
      obtain rfl := Option.some.inj hb
      obtain ⟨v, hv, hsame⟩ := List.any_eq_true.mp hvalue
      obtain ⟨p, hp, rfl⟩ := List.mem_map.mp hv
      obtain ⟨m, hm, hmn⟩ := Option.any_eq_true _ _ |>.mp hsame
      have hmem := List.mem_map_of_mem (f := fun e => e.substitute x t) hp
      rw [substitute_of_eval (eval?_eq_some_iff.mp hm) hx] at hmem
      obtain ⟨d, hd, hpd⟩ := exists_same_mem_distinct (hwf p hp) hwf'
        ⟨p, hmem, Expr.same_refl p⟩
      obtain rfl := ((setFree_of_eval (eval?_eq_some_iff.mp hm)).same_iff d).mp hpd
      exact contains?_of_samePoint hd hm hn hmn
    · -- All points have values, so that none of them changes.
      have hstay : ∀ p ∈ es, p.substitute x t = p := by
        intro p hp
        obtain ⟨m, hm⟩ := Option.isSome_iff_exists.mp
          (List.all_eq_true.mp hall _ (List.mem_map_of_mem hp))
        exact substitute_of_eval (eval?_eq_some_iff.mp hm) hx t
      rw [List.map_congr_left hstay, List.map_id', distinct_eq_self hd, SetExpr.contains?,
        if_neg hany]
      exact h

/-- Membership in an interval stands under substitution. -/
theorem contains?_interval_substitute (hx : x ∉ constants) (l : Expr) (lc : Bool) (r : Expr)
    (rc : Bool) : Foretells ((SetExpr.interval l lc r rc).contains? e)
      ((SetExpr.interval (l.substitute x t) lc (r.substitute x t) rc).contains?
        (e.substitute x t)) := by
  intro b h
  rw [SetExpr.contains?] at h ⊢
  obtain ⟨n, hn, hb⟩ := Option.bind_eq_some_iff.mp h
  rw [substitute_of_eval (eval?_eq_some_iff.mp hn) hx, hn, Option.bind_some]
  unfold betweenBounds? at hb ⊢
  split_ifs at hb ⊢ with hreal
  · exact hb
  · -- Both bounds have values, unless the number is not on the line at all.
    have hb' := hb
    obtain ⟨o, hl, hb⟩ := Option.bind_eq_some_iff.mp hb
    obtain ⟨o', hr, -⟩ := Option.bind_eq_some_iff.mp hb
    obtain ⟨m, hm, -⟩ := Option.bind_eq_some_iff.mp hl
    obtain ⟨m', hm', -⟩ := Option.bind_eq_some_iff.mp hr
    rw [substitute_of_eval (eval?_eq_some_iff.mp hm) hx,
      substitute_of_eval (eval?_eq_some_iff.mp hm') hx]
    exact hb'

/-- Membership that is decided is not changed by a substitution. -/
theorem SetExpr.contains?_substitute (he : e.WellFormed) (ht : t.WellFormed)
    (hx : x ∉ constants) : ∀ {s : SetExpr}, (Expr.set s).WellFormed → Foretells (s.contains? e)
      ((s.mapEntities fun p => p.substitute x t).contains? (e.substitute x t))
  | .empty, _ => fun _ h => h
  | .finite es, hs => by
    rw [mapEntities_finite]
    exact contains?_finite_substitute hs he ht hx
  | .interval l lc r rc, _ => by
    rw [mapEntities_interval]
    exact contains?_interval_substitute hx l lc r rc
  | .union a b, hs => by
    rw [mapEntities_union, contains?, contains?]
    exact (contains?_substitute he ht hx hs.union_inv.1).orElse?
      (contains?_substitute he ht hx hs.union_inv.2)
  | .intersection a b, hs => by
    rw [mapEntities_intersection, contains?, contains?]
    exact (contains?_substitute he ht hx hs.intersection_inv.1).andThen?
      (contains?_substitute he ht hx hs.intersection_inv.2)

/-! ## Statements -/

namespace Expr

/-- A truth that is known is not changed by a substitution. -/
theorem truth_substitute (he : e.WellFormed) (ht : t.WellFormed) (hx : x ∉ constants) {b : Bool}
    (h : e.truth = .ok b) : (e.substitute x t).truth = .ok b := by
  induction he generalizing b with
  | boolean c => exact h
  | not _ ih =>
    rw [truth] at h
    obtain ⟨c, hc, h⟩ := bind_eq_ok h
    rw [substitute_not, truth, ih hc]
    exact h
  | and _ _ iha ihb =>
    rw [truth] at h
    obtain ⟨c, hc, h⟩ := bind_eq_ok h
    rw [substitute_and, truth, iha hc]
    -- The right side is only asked where the left one leaves it open.
    cases c with
    | true => exact ihb h
    | false => exact h
  | or _ _ iha ihb =>
    rw [truth] at h
    obtain ⟨c, hc, h⟩ := bind_eq_ok h
    rw [substitute_or, truth, iha hc]
    cases c with
    | true => exact h
    | false => exact ihb h
  | @compare r a b _ _ =>
    have hsides := h
    rw [truth] at hsides
    obtain ⟨m, hm, hsides⟩ := bind_eq_ok hsides
    obtain ⟨n, hn, -⟩ := bind_eq_ok hsides
    rw [substitute_compare, substitute_of_eval hm hx, substitute_of_eval hn hx]
    exact h
  | @mem a s _ hs _ _ =>
    rw [truth] at h
    obtain ⟨n, hn, h⟩ := bind_eq_ok h
    rw [hs.substitute_mem, truth, substitute_of_eval hn hx, hn]
    -- Without an answer the membership would have no truth to keep.
    cases hmem : s.contains? (.number n) with
    | none => simp [hmem] at h
    | some c =>
      have hmem' : (s.mapEntities fun e => e.substitute x t).contains? (.number n) = some c :=
        SetExpr.contains?_substitute (.number n) ht hx hs c hmem
      simp only [hmem] at h
      simp only [bind, Except.bind, hmem']
      exact h
  | _ => simp [truth] at h

end Expr

/--
Answers stand when a variable other than the constants is bound: the value of an expression, the
truth of a statement that may have further variables, and the membership of a point, symbolic or
not, in a set. Expressions are well-formed if no list of points in them has two equal ones, as all
lists are that are built from points.
-/
theorem substitute_preserves_answers (hpi : x ≠ "pi") (he : x ≠ "e") (ht : t.WellFormed) :
    (∀ (a : Expr) (n : Number), a.eval = .ok n → (a.substitute x t).eval = .ok n) ∧
    (∀ (a : Expr) (b : Bool), a.WellFormed → a.truth = .ok b → (a.substitute x t).truth = .ok b) ∧
    ∀ (s : SetExpr) (a : Expr) (b : Bool), (Expr.set s).WellFormed → a.WellFormed →
      s.contains? a = some b →
      (s.mapEntities fun p => p.substitute x t).contains? (a.substitute x t) = some b := by
  have hx : x ∉ constants := by simp [constants, hpi, he]
  refine ⟨fun a n h => ?_, fun a b ha h => truth_substitute ha ht hx h,
    fun s a b hs ha h => SetExpr.contains?_substitute ha ht hx hs b h⟩
  rw [substitute_of_eval h hx, h]

/-- A value, a truth and a membership that are known with variables left, and that stand when two is
put in for one of them. Two points of the set become equal. -/
theorem substitute_preserves_answers_two :
    "x" ≠ "pi" ∧ "x" ≠ "e" ∧ (2 : Expr).WellFormed ∧
    ((Expr.neg (.var "pi")).substitute "x" 2).eval = .ok (-piValue) ∧
    ((Expr.or (.boolean true) (.compare .less (.var "x") (.var "y"))).substitute "x" 2).truth =
      .ok true ∧
    ((SetExpr.finite [.var "x", 2]).mapEntities fun p => p.substitute "x" 2).contains?
      ((Expr.var "x").substitute "x" 2) = some true := by
  have htwo : (2 : Expr).WellFormed := .number (.int 2)
  obtain ⟨hvalue, htruth, hmem⟩ :=
    substitute_preserves_answers (x := "x") (t := 2) (by decide) (by decide) htwo
  have hne : same (.var "x") 2 = false := by simp [same, OfNat.ofNat]
  have hpoints : ∀ p ∈ [Expr.var "x", 2], p.WellFormed := by
    simpa using ⟨WellFormed.var "x", htwo⟩
  refine ⟨by decide, by decide, htwo, hvalue _ _ ?_, htruth _ _ ?_ ?_, hmem _ _ _ ?_ ?_ ?_⟩
  · rw [eval, eval, if_pos rfl]
    rfl
  · exact .or (.boolean true) (.compare .less (.var "x") (.var "y"))
  · rw [truth, truth]
    rfl
  · exact .finite hpoints (by simpa using hne)
  · exact .var "x"
  · have hself : (Expr.var "x" == Expr.var "x") = true := Expr.same_refl _
    rw [SetExpr.contains?, List.any_cons, hself]
    rfl

end SymbolicAlgebra
