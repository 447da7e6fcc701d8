import SymbolicAlgebra.Proofs.Expr.Commutation

/-!
# Rebuilding a node from its children

`Expr.children` lists the children of a node, and `Expr.withChildren` puts a list of replacements in
their places. The two go through the node on their own: one collects, the other takes the head of
the list wherever it comes to a child. `UsesUp` says that they meet the children in the same order,
and it is put together in the way in which the nodes are, `usesUp_mapChildrenM`.

* `Expr.withChildren_map_append` gives the images of the children back as `Expr.mapChildren` does,
  whatever follows them in the list.
* `Expr.mapBottomUp_eq` is one node of the traversal from the bottom up: the transformed children
  are put in the places of the old ones, and the node made of them is transformed.

A list of points is rebuilt without repetitions, so that a set without changes comes back as it was
only if it is well-formed.
-/

namespace SymbolicAlgebra

namespace Expr

variable {β γ : Type} {f : Expr → Expr}

/-! ## Replacements that are used up -/

/-- Where the images of the listed expressions come next, the computation takes these and no more,
and it ends with `b`. -/
def UsesUp (f : Expr → Expr) (es : List Expr) (x : StateM (List Expr) β) (b : β) : Prop :=
  ∀ rest, x.run (es.map f ++ rest) = (b, rest)

theorem usesUp_pure (b : β) : UsesUp f [] (pure b) b := fun _ => rfl

/-- The image that comes next is taken. -/
theorem usesUp_nextOr (e : Expr) : UsesUp f [e] (nextOr e) (f e) := fun _ => rfl

/-- What is computed first takes its replacements first. -/
theorem UsesUp.bind {es es' : List Expr} {x : StateM (List Expr) β} {b : β}
    {g : β → StateM (List Expr) γ} {c : γ} (hx : UsesUp f es x b) (hg : UsesUp f es' (g b) c) :
    UsesUp f (es ++ es') (x >>= g) c := by
  intro rest
  rw [List.map_append, List.append_assoc, StateT.run_bind, hx]
  exact hg rest

/-- What is done with the result takes no further replacement. -/
theorem UsesUp.map {es : List Expr} {x : StateM (List Expr) β} {b : β} (hx : UsesUp f es x b)
    (g : β → γ) : UsesUp f es (x >>= fun b => pure (g b)) (g b) :=
  List.append_nil es ▸ hx.bind (usesUp_pure (g b))

/-- A list takes the images of its members, in order. -/
theorem usesUp_mapM (es : List Expr) : UsesUp f es (es.mapM nextOr) (es.map f) := by
  induction es with
  | nil => exact usesUp_pure []
  | cons e es ih =>
    rw [List.mapM_cons]
    exact (usesUp_nextOr e).bind (ih.map (f e :: ·))

/-- A set takes the images of its entities, in the order in which they are listed. -/
theorem usesUp_mapEntitiesM (s : SetExpr) :
    UsesUp f s.entities (s.mapEntitiesM nextOr) (s.mapEntities f) := by
  induction s using SetExpr.entities.induct with
  | case1 => exact usesUp_pure SetExpr.empty
  | case2 es =>
    rw [SetExpr.mapEntities_finite]
    exact (usesUp_mapM es).map fun ds => SetExpr.finite (distinct ds)
  | case3 l lc r rc =>
    exact (usesUp_nextOr l).bind ((usesUp_nextOr r).map fun r' => SetExpr.interval (f l) lc r' rc)
  | case4 a b iha ihb => exact iha.bind (ihb.map (SetExpr.union (a.mapEntities f)))
  | case5 a b iha ihb => exact iha.bind (ihb.map (SetExpr.intersection (a.mapEntities f)))

/-- Replacing the children takes one image for each of them, in the order of their list. -/
theorem usesUp_mapChildrenM (e : Expr) :
    UsesUp f e.children (e.mapChildrenM nextOr) (e.mapChildren f) := by
  cases e with
  | number n | var v | boolean b => exact usesUp_pure _
  | sum es =>
    rw [mapChildren_sum]
    exact (usesUp_mapM es).map sum
  | product es =>
    rw [mapChildren_product]
    exact (usesUp_mapM es).map product
  | apply g es =>
    rw [mapChildren_apply]
    exact (usesUp_mapM es).map (apply g)
  | neg a => exact (usesUp_nextOr a).map neg
  | not a => exact (usesUp_nextOr a).map not
  | power a b => exact (usesUp_nextOr a).bind ((usesUp_nextOr b).map (power (f a)))
  | div a b => exact (usesUp_nextOr a).bind ((usesUp_nextOr b).map (div (f a)))
  | and a b => exact (usesUp_nextOr a).bind ((usesUp_nextOr b).map (and (f a)))
  | or a b => exact (usesUp_nextOr a).bind ((usesUp_nextOr b).map (or (f a)))
  | compare r a b => exact (usesUp_nextOr a).bind ((usesUp_nextOr b).map (compare r (f a)))
  | set s =>
    rw [mapChildren_set]
    exact (usesUp_mapEntitiesM s).map set
  | mem a s =>
    rw [mapChildren_mem]
    exact (usesUp_nextOr a).bind ((usesUp_mapEntitiesM s).map (mem (f a)))

/-! ## Rebuilding -/

/-- Superfluous replacements are ignored. -/
theorem withChildren_map_append (e : Expr) (f : Expr → Expr) (rest : List Expr) :
    e.withChildren (e.children.map f ++ rest) = e.mapChildren f :=
  congrArg Prod.fst (usesUp_mapChildrenM e rest)

/-- Rebuilding a node from the images of its children maps over them. -/
theorem withChildren_map (e : Expr) (f : Expr → Expr) :
    e.withChildren (e.children.map f) = e.mapChildren f := by
  rw [← withChildren_map_append e f [], List.append_nil]

/-- A node from the bottom up is made of its children from the bottom up, put in their places. -/
theorem mapBottomUp_eq (f : Expr → Expr) (e : Expr) :
    e.mapBottomUp f = f (e.withChildren (e.children.map (mapBottomUp f))) := by
  rw [withChildren_map]
  exact congrArg Id.run (mapBottomUpM_eq_bind (m := Id) (fun c => pure (f c)) e)

/-- Putting the images of the children in their places is mapping over the children, whatever kind
of node it is. The children themselves give the expression back, if it is well-formed. -/
theorem withChildren_map_children :
    (∀ (e : Expr) (f : Expr → Expr), e.withChildren (e.children.map f) = e.mapChildren f) ∧
      ∀ e : Expr, e.WellFormed → e.withChildren e.children = e := by
  refine ⟨withChildren_map, fun e he => ?_⟩
  calc e.withChildren e.children
      = e.withChildren (e.children.map id) := by rw [List.map_id]
    _ = e.mapChildren id := withChildren_map e id
    _ = e := he.mapChildren_eq_self fun _ _ => rfl

/-- In `x ∈ {1, y} ∪ [0, y)` the variable `y` has two places, and comes back to both. -/
theorem withChildren_map_children_mem_union :
    (mem (.var "x")
        (.union (.finite [1, .var "y"]) (.interval 0 true (.var "y") false))).withChildren
      [.var "x", 1, .var "y", 0, .var "y"] =
    .mem (.var "x") (.union (.finite [1, .var "y"]) (.interval 0 true (.var "y") false)) := by
  have hpoints : (Expr.set (.finite [1, .var "y"])).WellFormed := by
    refine .finite (fun e he => ?_) (List.pairwise_pair.mpr (by cbv))
    rcases List.mem_pair.mp he with rfl | rfl
    · exact .number 1
    · exact .var "y"
  exact withChildren_map_children.2 _
    (.mem (.var "x") (.union hpoints (.interval true false (.number 0) (.var "y"))))

end Expr

end SymbolicAlgebra
