import SymbolicAlgebra.Proofs.Expr.Children
import SymbolicAlgebra.SetExpr.Algebra

/-!
# Expressions that can be built

A list of points comes out of one of four operations: points are collected or put in one by one, two
sets are united, or all points and bounds of a set are replaced. `Expr.Built` is the closure of the
node kinds under these operations. Each of them leaves no two points of a list equal, so that what
is built is well-formed; conversely every well-formed expression can be built, `Expr.built_iff`.

Only for such expressions is structural equality an equivalence relation: sets are compared by
inclusion of one list in the other and by their lengths, which is not symmetric for lists with
repetitions.
-/

namespace SymbolicAlgebra

namespace Expr

/-! ## What the operations keep -/

variable {e : Expr} {es ps : List Expr} {s t : SetExpr}

/-- Insertion of a new point keeps the points different. -/
theorem WellFormed.insertDistinct (hes : (Expr.set (.finite es)).WellFormed) (he : e.WellFormed) :
    (Expr.set (.finite (SymbolicAlgebra.insertDistinct es e))).WellFormed := by
  obtain ⟨hwf, hd⟩ := hes.finite_inv
  refine .finite (fun p hp => ?_) (pairwise_insertDistinct hd e)
  have hp : p ∈ [e].foldl SymbolicAlgebra.insertDistinct es := hp
  rcases mem_or_mem_of_mem_foldl hp with hp | hp
  · exact hwf p hp
  · exact List.mem_singleton.mp hp ▸ he

/-- Merging two lists keeps the points different. -/
theorem WellFormed.foldl_insertDistinct (hes : (Expr.set (.finite es)).WellFormed)
    (hps : ∀ p ∈ ps, p.WellFormed) :
    (Expr.set (.finite (ps.foldl SymbolicAlgebra.insertDistinct es))).WellFormed := by
  induction ps generalizing es with
  | nil => exact hes
  | cons p ps ih =>
    obtain ⟨hp, hps⟩ := List.forall_mem_cons.mp hps
    exact ih (hes.insertDistinct hp) hps

/-- A point that an interval takes in changes no bound, and stays apart only if no equal one does.
-/
theorem WellFormed.absorb (state : Interval × List Expr)
    (hi : (Expr.set state.1.toSet).WellFormed) (hes : (Expr.set (.finite state.2)).WellFormed)
    (he : e.WellFormed) :
    (Expr.set (Interval.absorb state e).1.toSet).WellFormed ∧
      (Expr.set (.finite (Interval.absorb state e).2)).WellFormed := by
  obtain ⟨hl, hr⟩ := hi.interval_inv
  obtain ⟨i, apart⟩ := state
  unfold Interval.absorb
  dsimp only
  split_ifs
  · exact ⟨.interval true i.rightClosed hl hr, hes⟩
  · exact ⟨.interval i.leftClosed true hl hr, hes⟩
  · exact ⟨hi, hes⟩
  · exact ⟨hi, hes.insertDistinct he⟩

/-- Absorbing points keeps the interval and the points left apart well formed. -/
theorem WellFormed.foldl_absorb (state : Interval × List Expr)
    (hi : (Expr.set state.1.toSet).WellFormed) (hes : (Expr.set (.finite state.2)).WellFormed)
    (hps : ∀ p ∈ ps, p.WellFormed) :
    (Expr.set (ps.foldl Interval.absorb state).1.toSet).WellFormed ∧
      (Expr.set (.finite (ps.foldl Interval.absorb state).2)).WellFormed := by
  induction ps generalizing state with
  | nil => exact ⟨hi, hes⟩
  | cons p ps ih =>
    obtain ⟨hp, hps⟩ := List.forall_mem_cons.mp hps
    obtain ⟨hi, hes⟩ := WellFormed.absorb state hi hes hp
    exact ih _ hi hes hps

/-- An interval and points unite to a well-formed set. -/
theorem WellFormed.unionWithPoints {i : Interval} (hi : (Expr.set i.toSet).WellFormed)
    (hps : ∀ p ∈ ps, p.WellFormed) : (Expr.set (i.unionWithPoints ps)).WellFormed := by
  obtain ⟨hend, hapart⟩ :=
    WellFormed.foldl_absorb (i, []) hi (.finite (List.forall_mem_nil _) .nil) hps
  unfold Interval.unionWithPoints
  split
  · rename_i heq
    rw [heq] at hend
    exact hend
  · rename_i heq
    rw [heq] at hend hapart
    exact .union hend hapart

/-- Well-formed sets unite to a well-formed set. -/
theorem WellFormed.unite (hs : (Expr.set s).WellFormed) (ht : (Expr.set t).WellFormed) :
    (Expr.set (s.unite t)).WellFormed := by
  unfold SetExpr.unite
  split_ifs
  · exact ht
  · exact hs
  · split
    · exact hs.foldl_insertDistinct ht.finite_inv.1
    · exact WellFormed.unionWithPoints hs ht.finite_inv.1
    · exact WellFormed.unionWithPoints ht hs.finite_inv.1
    · exact .union hs ht

/-- A map to well-formed expressions merges points that become equal. -/
theorem WellFormed.mapEntities {f : Expr → Expr} (hs : (Expr.set s).WellFormed)
    (hf : ∀ e ∈ s.entities, (f e).WellFormed) : (Expr.set (s.mapEntities f)).WellFormed := by
  induction s using SetExpr.entities.induct with
  | case1 => exact .empty
  | case2 es =>
    rw [SetExpr.mapEntities_finite]
    exact .distinct (List.forall_mem_map.mpr hf)
  | case3 l lc r rc =>
    exact .interval lc rc (hf l (by simp [SetExpr.entities])) (hf r (by simp [SetExpr.entities]))
  | case4 a b iha ihb =>
    obtain ⟨ha, hb⟩ := List.forall_mem_append.mp hf
    exact .union (iha hs.union_inv.1 ha) (ihb hs.union_inv.2 hb)
  | case5 a b iha ihb =>
    obtain ⟨ha, hb⟩ := List.forall_mem_append.mp hf
    exact .intersection (iha hs.intersection_inv.1 ha) (ihb hs.intersection_inv.2 hb)

/-! ## Built expressions -/

/-- The expression is put together from nodes of all kinds, with lists of points that come out of
the operations on sets. -/
inductive Built : Expr → Prop
  | number (n : Number) : Built (.number n)
  | var (v : String) : Built (.var v)
  | boolean (b : Bool) : Built (.boolean b)
  | sum {es : List Expr} (h : ∀ e ∈ es, Built e) : Built (.sum es)
  | product {es : List Expr} (h : ∀ e ∈ es, Built e) : Built (.product es)
  | apply (f : Func) {es : List Expr} (h : ∀ e ∈ es, Built e) : Built (.apply f es)
  | neg {a : Expr} (ha : Built a) : Built (.neg a)
  | not {a : Expr} (ha : Built a) : Built (.not a)
  | power {a b : Expr} (ha : Built a) (hb : Built b) : Built (.power a b)
  | div {a b : Expr} (ha : Built a) (hb : Built b) : Built (.div a b)
  | and {a b : Expr} (ha : Built a) (hb : Built b) : Built (.and a b)
  | or {a b : Expr} (ha : Built a) (hb : Built b) : Built (.or a b)
  | compare (r : Comparison) {a b : Expr} (ha : Built a) (hb : Built b) : Built (.compare r a b)
  | empty : Built (.set .empty)
  | interval {l r : Expr} (lc rc : Bool) (hl : Built l) (hr : Built r) :
      Built (.set (.interval l lc r rc))
  | union {a b : SetExpr} (ha : Built (.set a)) (hb : Built (.set b)) : Built (.set (.union a b))
  | intersection {a b : SetExpr} (ha : Built (.set a)) (hb : Built (.set b)) :
      Built (.set (.intersection a b))
  | mem {a : Expr} {s : SetExpr} (ha : Built a) (hs : Built (.set s)) : Built (.mem a s)
  /-- Points are collected into a list, and repetitions are left out. -/
  | collect {es : List Expr} (h : ∀ e ∈ es, Built e) : Built (.set (.finite (distinct es)))
  /-- A point is put into a list. -/
  | insert {es : List Expr} {e : Expr} (hes : Built (.set (.finite es))) (he : Built e) :
      Built (.set (.finite (SymbolicAlgebra.insertDistinct es e)))
  /-- Two sets are united. -/
  | unite {s t : SetExpr} (hs : Built (.set s)) (ht : Built (.set t)) : Built (.set (s.unite t))
  /-- All points and bounds of a set are replaced. -/
  | mapEntities {s : SetExpr} {f : Expr → Expr} (hs : Built (.set s))
      (hf : ∀ e ∈ s.entities, Built (f e)) : Built (.set (s.mapEntities f))

/-- What is built by the operations is well formed. -/
theorem Built.wellFormed (h : e.Built) : e.WellFormed := by
  induction h with
  | number n => exact .number n
  | var v => exact .var v
  | boolean b => exact .boolean b
  | sum _ ih => exact .sum ih
  | product _ ih => exact .product ih
  | apply f _ ih => exact .apply f ih
  | neg _ ih => exact .neg ih
  | not _ ih => exact .not ih
  | power _ _ iha ihb => exact .power iha ihb
  | div _ _ iha ihb => exact .div iha ihb
  | and _ _ iha ihb => exact .and iha ihb
  | or _ _ iha ihb => exact .or iha ihb
  | compare r _ _ iha ihb => exact .compare r iha ihb
  | empty => exact .empty
  | interval lc rc _ _ ihl ihr => exact .interval lc rc ihl ihr
  | union _ _ iha ihb => exact .union iha ihb
  | intersection _ _ iha ihb => exact .intersection iha ihb
  | mem _ _ iha ihs => exact .mem iha ihs
  | collect _ ih => exact .distinct ih
  | insert _ _ ihes ihe => exact ihes.insertDistinct ihe
  | unite _ _ ihs iht => exact ihs.unite iht
  | mapEntities _ _ ihs ihf => exact ihs.mapEntities ihf

/-- The well-formed expressions are those that can be built: a list without repetitions is what
collecting its points makes of it. -/
theorem built_iff : e.Built ↔ e.WellFormed := by
  refine ⟨Built.wellFormed, fun h => ?_⟩
  induction h with
  | number n => exact .number n
  | var v => exact .var v
  | boolean b => exact .boolean b
  | sum _ ih => exact .sum ih
  | product _ ih => exact .product ih
  | apply f _ ih => exact .apply f ih
  | neg _ ih => exact .neg ih
  | not _ ih => exact .not ih
  | power _ _ iha ihb => exact .power iha ihb
  | div _ _ iha ihb => exact .div iha ihb
  | and _ _ iha ihb => exact .and iha ihb
  | or _ _ iha ihb => exact .or iha ihb
  | compare r _ _ iha ihb => exact .compare r iha ihb
  | empty => exact .empty
  | finite _ hd ih => exact distinct_eq_self hd ▸ .collect ih
  | interval lc rc _ _ ihl ihr => exact .interval lc rc ihl ihr
  | union _ _ iha ihb => exact .union iha ihb
  | intersection _ _ iha ihb => exact .intersection iha ihb
  | mem _ _ iha ihs => exact .mem iha ihs

/-! ## Structural equality -/

/-- On built expressions structural equality is an equivalence relation, and so it is on built sets.
Two lists of points are the same set when each point of one is equal to a point of the other,
whatever the order, and no two points of a list are equal. -/
theorem same_isEquivalence :
    (Equivalence fun a b : {e : Expr // e.Built} => (a.1 == b.1) = true) ∧
    (Equivalence fun s t : {s : SetExpr // (Expr.set s).Built} => (s.1 == t.1) = true) ∧
    (∀ as bs : List Expr, (Expr.set (.finite as)).Built → (Expr.set (.finite bs)).Built →
      ((SetExpr.finite as == SetExpr.finite bs) = true ↔
        (∀ a ∈ as, ∃ b ∈ bs, (a == b) = true) ∧ ∀ b ∈ bs, ∃ a ∈ as, (b == a) = true)) ∧
    ∀ es : List Expr, (Expr.set (.finite es)).Built → es.Pairwise fun a b => (a == b) = false := by
  refine ⟨⟨?_, ?_, ?_⟩, ⟨?_, ?_, ?_⟩, ?_, ?_⟩
  · exact fun a => same_refl a.1
  · exact fun {a _} h => a.2.wellFormed.same_symm h
  · exact fun {a _ _} hab hbc => a.2.wellFormed.same_trans hab hbc
  · exact fun s => SetExpr.same_refl s.1
  · exact fun {s t} h =>
      (same_set t.1 s.1).symm.trans (s.2.wellFormed.same_symm ((same_set s.1 t.1).trans h))
  · exact fun {s t u} hst htu => (same_set s.1 u.1).symm.trans
      (s.2.wellFormed.same_trans ((same_set s.1 t.1).trans hst) ((same_set t.1 u.1).trans htu))
  · exact fun as bs ha hb => ha.wellFormed.same_finite_iff_among hb.wellFormed
  · exact fun es h => h.wellFormed.finite_inv.2

/-- `NaN` and a variable are the same set in either order, put in one by one or united. -/
theorem same_isEquivalence_of_nan_and_variable :
    (Expr.set (.finite [.number .nan, .var "x"])).Built ∧
      (Expr.set (.finite [.var "x", .number .nan])).Built ∧
      (SetExpr.finite [.number .nan, .var "x"] == .finite [.var "x", .number .nan]) = true ∧
      (SetExpr.finite [.var "x", .number .nan] == .finite [.number .nan, .var "x"]) = true := by
  have hnan : (Expr.set (.finite (distinct [.number .nan]))).Built :=
    .collect (List.forall_mem_singleton.mpr (.number .nan))
  have hvar : (Expr.set (.finite (distinct [.var "x"]))).Built :=
    .collect (List.forall_mem_singleton.mpr (.var "x"))
  have hinsert : insertDistinct (distinct [.number .nan]) (.var "x") =
      [.number .nan, .var "x"] := by cbv
  have hunite : (SetExpr.finite (distinct [.var "x"])).unite (.finite (distinct [.number .nan])) =
      .finite [.var "x", .number .nan] := by cbv
  have hs : (Expr.set (.finite [.number .nan, .var "x"])).Built := hinsert ▸ hnan.insert (.var "x")
  have ht : (Expr.set (.finite [.var "x", .number .nan])).Built := hunite ▸ hvar.unite hnan
  have hst : (SetExpr.finite [.number .nan, .var "x"] ==
      .finite [.var "x", .number .nan]) = true := by cbv
  obtain ⟨-, hequiv, -⟩ := same_isEquivalence
  exact ⟨hs, ht, hst, hequiv.symm (x := ⟨_, hs⟩) (y := ⟨_, ht⟩) hst⟩

end Expr

end SymbolicAlgebra
