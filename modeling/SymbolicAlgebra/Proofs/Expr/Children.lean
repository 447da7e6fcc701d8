import SymbolicAlgebra.Proofs.Expr.Substitution

/-!
# Induction on the children

Every traversal of a tree can be read one node at a time: it does its work on the children of a node
and then on the node. `Expr.induction_children` is the induction that goes with this reading, and
the equations here give a traversal in terms of `Expr.children`, the same for all kinds of nodes:

* `Expr.fold_eq` for values that are computed from the bottom up;
* `Expr.mapBottomUpM_eq_bind` for transformations from the bottom up.

A transformation with faults stops at the first child that has one, `Expr.visits_mapChildrenM`.
-/

namespace SymbolicAlgebra

variable {α : Type} {m : Type → Type}

/-- The points and bounds of a set are smaller than the set. -/
theorem SetExpr.sizeOf_lt_of_mem_entities {s : SetExpr} {e : Expr} (h : e ∈ s.entities) :
    sizeOf e < sizeOf s := by
  induction s using SetExpr.entities.induct with
  | case1 => simp [entities] at h
  | case2 es =>
    have hlt : sizeOf e < sizeOf es := List.sizeOf_lt_of_mem h
    simp only [SetExpr.finite.sizeOf_spec]
    omega
  | case3 l lc r rc =>
    rcases List.mem_pair.mp h with rfl | rfl <;> simp +arith
  | case4 a b iha ihb | case5 a b iha ihb =>
    simp only [SetExpr.union.sizeOf_spec, SetExpr.intersection.sizeOf_spec]
    rcases List.mem_append.mp h with h | h
    · have hlt := iha h
      omega
    · have hlt := ihb h
      omega

namespace Expr

variable {c e : Expr}

/-- The children of a node are smaller than the node, which is what inductions over them rest on. -/
theorem sizeOf_lt_of_mem_children (h : c ∈ e.children) : sizeOf c < sizeOf e := by
  cases e with
  | number n | var v | boolean b => simp [children] at h
  | sum es | product es | apply f es =>
    have hlt : sizeOf c < sizeOf es := List.sizeOf_lt_of_mem h
    simp only [Expr.sum.sizeOf_spec, Expr.product.sizeOf_spec, Expr.apply.sizeOf_spec]
    omega
  | neg a | not a =>
    obtain rfl := List.mem_singleton.mp h
    simp +arith
  | power a b | div a b | and a b | or a b | compare r a b =>
    rcases List.mem_pair.mp h with rfl | rfl <;> simp +arith
  | set s =>
    have hlt : sizeOf c < sizeOf s := SetExpr.sizeOf_lt_of_mem_entities h
    simp only [Expr.set.sizeOf_spec]
    omega
  | mem a s =>
    simp only [Expr.mem.sizeOf_spec]
    rcases List.mem_cons.mp h with rfl | h
    · omega
    · have hlt : sizeOf c < sizeOf s := SetExpr.sizeOf_lt_of_mem_entities h
      omega

/-- What holds of an expression as soon as it holds of its children holds of all expressions. -/
@[elab_as_elim]
theorem induction_children {motive : Expr → Prop}
    (node : ∀ e, (∀ c ∈ e.children, motive c) → motive e) (e : Expr) : motive e :=
  node e fun c _ => induction_children node c
termination_by sizeOf e
decreasing_by exact sizeOf_lt_of_mem_children ‹_›

/-- The points and bounds of a set that is built properly are built properly. -/
theorem WellFormed.of_mem_entities {s : SetExpr} (h : (Expr.set s).WellFormed)
    (hc : c ∈ s.entities) : c.WellFormed := by
  induction s using SetExpr.entities.induct with
  | case1 => simp [SetExpr.entities] at hc
  | case2 es => exact h.finite_inv.1 c hc
  | case3 l lc r rc =>
    rcases List.mem_pair.mp hc with rfl | rfl
    · exact h.interval_inv.1
    · exact h.interval_inv.2
  | case4 a b iha ihb =>
    exact (List.mem_append.mp hc).elim (iha h.union_inv.1) (ihb h.union_inv.2)
  | case5 a b iha ihb =>
    exact (List.mem_append.mp hc).elim (iha h.intersection_inv.1) (ihb h.intersection_inv.2)

/-- The children of an expression that is built properly are built properly. -/
theorem WellFormed.of_mem_children (h : e.WellFormed) (hc : c ∈ e.children) : c.WellFormed := by
  cases h with
  | number n | var v | boolean b => simp [children] at hc
  | sum h | product h | apply f h => exact h c hc
  | neg ha | not ha => exact List.mem_singleton.mp hc ▸ ha
  | power ha hb | div ha hb | and ha hb | or ha hb | compare r ha hb =>
    rcases List.mem_pair.mp hc with rfl | rfl
    · exact ha
    · exact hb
  | empty => exact WellFormed.empty.of_mem_entities hc
  | finite h hd => exact (WellFormed.finite h hd).of_mem_entities hc
  | interval lc rc hl hr => exact (WellFormed.interval lc rc hl hr).of_mem_entities hc
  | union ha hb => exact (WellFormed.union ha hb).of_mem_entities hc
  | intersection ha hb => exact (WellFormed.intersection ha hb).of_mem_entities hc
  | mem ha hs =>
    rcases List.mem_cons.mp hc with rfl | hc
    · exact ha
    · exact hs.of_mem_entities hc

/-! ## Parts of an expression -/

/-- The expression `c` is `e` itself, or occurs in an operand of it. -/
inductive Occurs (c : Expr) : Expr → Prop
  | self : Occurs c c
  | operand {d e : Expr} (hd : d ∈ e.children) (h : Occurs c d) : Occurs c e

/-- A part of a part is a part. -/
theorem Occurs.trans {d : Expr} (hcd : c.Occurs d) (hde : d.Occurs e) : c.Occurs e := by
  induction hde with
  | self => exact hcd
  | operand hd _ ih => exact .operand hd ih

/-- All parts of an expression that is built properly are built properly. -/
theorem WellFormed.of_occurs (h : e.WellFormed) (hc : c.Occurs e) : c.WellFormed := by
  induction hc with
  | self => exact h
  | operand hd _ ih => exact ih (h.of_mem_children hd)

/-! ## Values from the bottom up -/

/-- A value from the bottom up is that of the node with the values of its children. -/
theorem fold_eq (f : Expr → List α → α) (e : Expr) : e.fold f = f e (e.children.map (fold f)) := by
  cases e with
  | sum es | product es | apply g es => rw [fold, foldAll_eq_map, children]
  | set s | mem a s => simp only [fold, foldSet_eq_map, children, List.map_cons]
  | _ => rfl

/-! ## Transformations from the bottom up -/

section Monad

variable [Monad m] [LawfulMonad m] (f : Expr → m Expr)

/-- Computations that agree on the members of a list agree on the list. -/
theorem mapM_congr {β : Type} {g g' : Expr → m β} {es : List Expr} (h : ∀ e ∈ es, g e = g' e) :
    es.mapM g = es.mapM g' := by
  induction es with
  | nil => rfl
  | cons e es ih =>
    obtain ⟨he, hes⟩ := List.forall_mem_cons.mp h
    rw [List.mapM_cons, List.mapM_cons, he, ih hes]

/-- The operands are transformed in their order. -/
theorem mapBottomUpAllM_eq_mapM (es : List Expr) :
    mapBottomUpAllM f es = es.mapM (mapBottomUpM f) := by
  induction es with
  | nil => rfl
  | cons e es ih => rw [mapBottomUpAllM, List.mapM_cons, ih]

/-- The points and bounds of a set are transformed in their order. -/
theorem mapBottomUpSetM_eq_mapEntitiesM (s : SetExpr) :
    mapBottomUpSetM f s = s.mapEntitiesM (mapBottomUpM f) := by
  induction s using SetExpr.entities.induct with
  | case1 | case3 => rfl
  | case2 es => rw [mapBottomUpSetM, SetExpr.mapEntitiesM, mapBottomUpAllM_eq_mapM]
  | case4 a b iha ihb | case5 a b iha ihb => rw [mapBottomUpSetM, SetExpr.mapEntitiesM, iha, ihb]

/-- A transformation from the bottom up transforms the children and then the node made of them. -/
theorem mapBottomUpM_eq_bind (e : Expr) :
    mapBottomUpM f e = e.mapChildrenM (mapBottomUpM f) >>= f := by
  cases e with
  | sum es | product es | apply g es =>
    simp only [mapBottomUpM, mapChildrenM, mapBottomUpAllM_eq_mapM, bind_assoc, pure_bind]
  | set s | mem a s =>
    simp only [mapBottomUpM, mapChildrenM, mapBottomUpSetM_eq_mapEntitiesM, bind_assoc, pure_bind]
  | _ => simp only [mapBottomUpM, mapChildrenM, bind_assoc, pure_bind]

end Monad

/-! ## Transformations with faults -/

/-- A computation that transforms the listed expressions: a result of it needs one of each of them,
and its fault is one of theirs. -/
structure Visits {ε β : Type} (g : Expr → Except ε Expr) (es : List Expr) (x : Except ε β) :
    Prop where
  ok : ∀ b, x = .ok b → ∀ e ∈ es, ∃ r, g e = .ok r
  error : ∀ fault, x = .error fault → ∃ e ∈ es, g e = .error fault

section Visits

variable {ε β γ : Type} {g : Expr → Except ε Expr}

/-- A result without a call visits nothing. -/
theorem visits_pure (b : β) : Visits g [] (pure b : Except ε β) where
  ok _ _ := List.forall_mem_nil _
  error _ h := by cases h

/-- A call visits its argument. -/
theorem visits_self (e : Expr) : Visits g [e] (g e) where
  ok r h := List.forall_mem_singleton.mpr ⟨r, h⟩
  error _ h := ⟨e, List.mem_singleton_self e, h⟩

/-- One step after the other visits what both of them do, in this order. -/
theorem Visits.bind {es es' : List Expr} {x : Except ε β} {f : β → Except ε γ} (h : Visits g es x)
    (hf : ∀ b, Visits g es' (f b)) : Visits g (es ++ es') (x >>= f) where
  ok c hc := by
    obtain ⟨b, hb, hc⟩ := bind_eq_ok hc
    exact List.forall_mem_append.mpr ⟨h.ok b hb, (hf b).ok c hc⟩
  error fault hfault := by
    cases x with
    | error fault' =>
      obtain ⟨e, he, hg⟩ := h.error fault' rfl
      obtain rfl : fault' = fault := Except.error.inj hfault
      exact ⟨e, List.mem_append_left es' he, hg⟩
    | ok b =>
      obtain ⟨e, he, hg⟩ := (hf b).error fault hfault
      exact ⟨e, List.mem_append_right es he, hg⟩

/-- Working on a result visits nothing more. -/
theorem Visits.map {es : List Expr} {x : Except ε β} (h : Visits g es x) (f : β → γ) :
    Visits g es (x >>= fun b => pure (f b)) :=
  List.append_nil es ▸ h.bind fun b => visits_pure (f b)

/-- A traversal of a list visits its members in their order. -/
theorem visits_mapM (es : List Expr) : Visits g es (es.mapM g) := by
  induction es with
  | nil => exact visits_pure []
  | cons e es ih =>
    rw [List.mapM_cons]
    exact (visits_self e).bind fun r => ih.map (r :: ·)

/-- A traversal of a set visits its points and bounds in their order. -/
theorem visits_mapEntitiesM (s : SetExpr) : Visits g s.entities (s.mapEntitiesM g) := by
  induction s using SetExpr.entities.induct with
  | case1 => exact visits_pure SetExpr.empty
  | case2 es => exact (visits_mapM es).map _
  | case3 l lc r rc => exact (visits_self l).bind fun l' => (visits_self r).map _
  | case4 a b iha ihb | case5 a b iha ihb => exact iha.bind fun a' => ihb.map _

/-- Transforming the children has a result only where each child has one, and its fault is that of
a child. -/
theorem visits_mapChildrenM (e : Expr) : Visits g e.children (e.mapChildrenM g) := by
  cases e with
  | number n | var v | boolean b => exact visits_pure _
  | sum es | product es | apply f es => exact (visits_mapM es).map _
  | neg a | not a => exact (visits_self a).map _
  | power a b | div a b | and a b | or a b | compare r a b =>
    exact (visits_self a).bind fun a' => (visits_self b).map _
  | set s => exact (visits_mapEntitiesM s).map _
  | mem a s => exact (visits_self a).bind fun a' => (visits_mapEntitiesM s).map _

/-- If the listed expressions have one fault, told by a test, so has the computation that visits
them. -/
theorem Visits.eq_error_iff {es : List Expr} {x : Except ε β} (h : Visits g es x) {fault₀ : ε}
    {test : Expr → Bool}
    (hg : ∀ e ∈ es, ∀ fault, g e = .error fault ↔ fault = fault₀ ∧ test e = true) (fault : ε) :
    x = .error fault ↔ fault = fault₀ ∧ es.any test = true := by
  constructor
  · intro hx
    obtain ⟨e, he, hfault⟩ := h.error fault hx
    obtain ⟨rfl, htest⟩ := (hg e he fault).mp hfault
    exact ⟨rfl, List.any_eq_true.mpr ⟨e, he, htest⟩⟩
  · rintro ⟨rfl, htest⟩
    obtain ⟨e, he, htest⟩ := List.any_eq_true.mp htest
    have hfault : g e = .error fault := (hg e he fault).mpr ⟨rfl, htest⟩
    cases hx : x with
    | ok b =>
      obtain ⟨r, hr⟩ := h.ok b hx e he
      cases hr.symm.trans hfault
    | error fault' =>
      obtain ⟨e', he', hfault'⟩ := h.error fault' hx
      rw [((hg e' he' fault').mp hfault').1]

end Visits

end Expr

end SymbolicAlgebra
