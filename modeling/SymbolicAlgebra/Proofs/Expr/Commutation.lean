import SymbolicAlgebra.Proofs.Expr.FreeVariables

/-!
# Substitutions of distinct variables

Two substitutions may change places when neither brings in the variable of the other one. The
argument goes through the children of a node, `WellFormed.substitute_eq_mapChildren`. It is only at
lists of points that the order could matter: such a list is rebuilt without repetitions after each
substitution, so that points may become equal after the first one or only after the second.
`distinct_map_distinct` shows that it does not: a point that is left out early is equal to an
earlier one, which takes its place later on.

That equal points stay equal under a substitution needs well-formed expressions: those that can be
built, `built_iff`.
-/

namespace SymbolicAlgebra

/-! ## Repetitions before and after a map -/

section Distinct

variable {f : Expr → Expr} {es : List Expr} {e : Expr}

/-- An element that is not put in, since an equal one is there, has an image that is not put in. -/
theorem distinct_map_insertDistinct (hwf : ∀ a ∈ es, (f a).WellFormed)
    (hf : ∀ a ∈ es, Expr.same a e = true → Expr.same (f a) (f e) = true) :
    distinct ((insertDistinct es e).map f) = insertDistinct (distinct (es.map f)) (f e) := by
  by_cases h : es.any (· == e) = true
  · obtain ⟨a, ha, hae⟩ := List.any_eq_true.mp h
    obtain ⟨d, hd, hda⟩ := exists_mem_distinct (List.mem_map_of_mem ha) (Expr.same_refl (f a))
    have hdwf : d.WellFormed := List.forall_mem_map.mpr hwf d (mem_of_mem_distinct hd)
    have hde : Expr.same d (f e) = true := hdwf.same_trans hda (hf a ha hae)
    have hany : (distinct (es.map f)).any (· == f e) = true := List.any_eq_true.mpr ⟨d, hd, hde⟩
    rw [insertDistinct, if_pos h, insertDistinct, if_pos hany]
  · rw [insertDistinct, if_neg h, List.map_append, List.map_singleton]
    exact List.foldl_append

/-- The elements of a list are put in one by one, and what has been kept so far comes from the list,
too. -/
theorem distinct_map_foldl {ps kept : List Expr} (hwf : ∀ e ∈ es, (f e).WellFormed)
    (hf : ∀ a ∈ es, ∀ b ∈ es, Expr.same a b = true → Expr.same (f a) (f b) = true)
    (hkept : kept ⊆ es) (hps : ps ⊆ es) :
    distinct ((ps.foldl insertDistinct kept).map f) =
      (ps.map f).foldl insertDistinct (distinct (kept.map f)) := by
  induction ps generalizing kept with
  | nil => rfl
  | cons p ps ih =>
    obtain ⟨hp, hps⟩ := List.cons_subset.mp hps
    have hinsert : insertDistinct kept p ⊆ es := by
      intro e he
      have he : e ∈ [p].foldl insertDistinct kept := he
      rcases mem_or_mem_of_mem_foldl he with he | he
      · exact hkept he
      · exact List.mem_singleton.mp he ▸ hp
    have hstep := distinct_map_insertDistinct (fun a ha => hwf a (hkept ha))
      fun a ha => hf a (hkept ha) p hp
    rw [List.foldl_cons, ih hinsert hps, hstep, List.map_cons, List.foldl_cons]

/-- If equal elements have equal images, repetitions may be left out before a map as well. -/
theorem distinct_map_distinct (hwf : ∀ e ∈ es, (f e).WellFormed)
    (hf : ∀ a ∈ es, ∀ b ∈ es, Expr.same a b = true → Expr.same (f a) (f b) = true) :
    distinct ((distinct es).map f) = distinct (es.map f) :=
  distinct_map_foldl hwf hf (List.nil_subset es) (List.Subset.refl es)

end Distinct

/-! ## Maps over the children -/

section MapChildren

variable {f g : Expr → Expr}

/-- Maps that agree on the entities of a set make the same set. -/
theorem SetExpr.mapEntities_congr {s : SetExpr} (h : ∀ e ∈ s.entities, f e = g e) :
    s.mapEntities f = s.mapEntities g := by
  induction s using SetExpr.entities.induct with
  | case1 => rfl
  | case2 es =>
    have hmap : es.map f = es.map g := List.map_congr_left h
    rw [mapEntities_finite, mapEntities_finite, hmap]
  | case3 l lc r rc =>
    rw [mapEntities_interval, mapEntities_interval, h l (by simp [entities]),
      h r (by simp [entities])]
  | case4 a b iha ihb =>
    obtain ⟨ha, hb⟩ := List.forall_mem_append.mp h
    rw [mapEntities_union, mapEntities_union, iha ha, ihb hb]
  | case5 a b iha ihb =>
    obtain ⟨ha, hb⟩ := List.forall_mem_append.mp h
    rw [mapEntities_intersection, mapEntities_intersection, iha ha, ihb hb]

/-- Two maps over the points and bounds of a set make one, if the second respects equality. -/
theorem SetExpr.mapEntities_comp {s : SetExpr}
    (hwf : ∀ e ∈ s.entities, (g (f e)).WellFormed)
    (hg : ∀ a ∈ s.entities, ∀ b ∈ s.entities, Expr.same (f a) (f b) = true →
      Expr.same (g (f a)) (g (f b)) = true) :
    (s.mapEntities f).mapEntities g = s.mapEntities fun e => g (f e) := by
  induction s using SetExpr.entities.induct with
  | case1 | case3 => rfl
  | case2 es =>
    have hdistinct : distinct ((distinct (es.map f)).map g) = distinct ((es.map f).map g) :=
      distinct_map_distinct (List.forall_mem_map.mpr hwf)
        (List.forall_mem_map.mpr fun a ha => List.forall_mem_map.mpr fun b hb => hg a ha b hb)
    rw [mapEntities_finite, mapEntities_finite, mapEntities_finite, hdistinct, List.map_map]
    rfl
  | case4 a b iha ihb | case5 a b iha ihb =>
    obtain ⟨hwfa, hwfb⟩ := List.forall_mem_append.mp hwf
    have ha := iha hwfa fun e he e' he' =>
      hg e (List.mem_append_left _ he) e' (List.mem_append_left _ he')
    have hb := ihb hwfb fun e he e' he' =>
      hg e (List.mem_append_right _ he) e' (List.mem_append_right _ he')
    simp only [mapEntities_union, mapEntities_intersection, ha, hb]

/-- A mapped set has no other entities than the images of the old ones. -/
theorem SetExpr.entities_mapEntities_subset (s : SetExpr) :
    (s.mapEntities f).entities ⊆ s.entities.map f := by
  induction s using SetExpr.entities.induct with
  | case1 | case3 => exact List.Subset.refl _
  | case2 es =>
    rw [mapEntities_finite]
    exact fun c hc => mem_of_mem_distinct hc
  | case4 a b iha ihb | case5 a b iha ihb =>
    simp only [mapEntities_union, mapEntities_intersection, entities, List.map_append]
    exact List.append_subset.mpr ⟨List.subset_append_of_subset_left _ iha,
      List.subset_append_of_subset_right _ ihb⟩

namespace Expr

variable {e : Expr}

theorem mapChildren_set (s : SetExpr) : mapChildren f (.set s) = .set (s.mapEntities f) := rfl

theorem mapChildren_mem (a : Expr) (s : SetExpr) :
    mapChildren f (.mem a s) = .mem (f a) (s.mapEntities f) := rfl

/-- Mapping over operands makes no variables. -/
theorem mapChildren_ne_var (h : ∀ v, e ≠ .var v) (v : String) : e.mapChildren f ≠ .var v := by
  cases e with
  | var w => exact absurd rfl (h w)
  | _ => nofun

/-- Maps that agree on the children make the same expression. -/
theorem mapChildren_congr (h : ∀ c ∈ e.children, f c = g c) :
    e.mapChildren f = e.mapChildren g := by
  have hmap : ∀ es : List Expr, (∀ c ∈ es, f c = g c) → es.map f = es.map g :=
    fun es => List.map_congr_left
  cases e with
  | number n | var v | boolean b => rfl
  | sum es => rw [mapChildren_sum, mapChildren_sum, hmap es h]
  | product es => rw [mapChildren_product, mapChildren_product, hmap es h]
  | apply k es => rw [mapChildren_apply, mapChildren_apply, hmap es h]
  | neg a => exact congrArg neg (h a (by simp [children]))
  | not a => exact congrArg not (h a (by simp [children]))
  | power a b => exact congrArg₂ power (h a (by simp [children])) (h b (by simp [children]))
  | div a b => exact congrArg₂ div (h a (by simp [children])) (h b (by simp [children]))
  | and a b => exact congrArg₂ and (h a (by simp [children])) (h b (by simp [children]))
  | or a b => exact congrArg₂ or (h a (by simp [children])) (h b (by simp [children]))
  | compare r a b =>
    exact congrArg₂ (compare r) (h a (by simp [children])) (h b (by simp [children]))
  | set s => rw [mapChildren_set, mapChildren_set, SetExpr.mapEntities_congr h]
  | mem a s =>
    obtain ⟨ha, hs⟩ := List.forall_mem_cons.mp h
    rw [mapChildren_mem, mapChildren_mem, ha, SetExpr.mapEntities_congr hs]

/-- A well-formed node stays as it is when its children do. -/
theorem WellFormed.mapChildren_eq_self (h : e.WellFormed) (hf : ∀ c ∈ e.children, f c = c) :
    e.mapChildren f = e := by
  have hset : ∀ {s : SetExpr}, (Expr.set s).WellFormed → s.mapEntities id = s :=
    fun hs => hs.mapEntities_eq_self fun _ _ => rfl
  rw [mapChildren_congr (g := id) hf]
  cases h with
  | sum _ => rw [mapChildren_sum, List.map_id]
  | product _ => rw [mapChildren_product, List.map_id]
  | apply k _ => rw [mapChildren_apply, List.map_id]
  | finite h hd => exact congrArg Expr.set (hset (.finite h hd))
  | union ha hb => exact congrArg Expr.set (hset (.union ha hb))
  | intersection ha hb => exact congrArg Expr.set (hset (.intersection ha hb))
  | mem _ hs => exact congrArg (Expr.mem _) (hset hs)
  | _ => rfl

/-- Two maps over the children make one, if the second respects equality. -/
theorem mapChildren_comp (hwf : ∀ c ∈ e.children, (g (f c)).WellFormed)
    (hg : ∀ c ∈ e.children, ∀ d ∈ e.children, same (f c) (f d) = true →
      same (g (f c)) (g (f d)) = true) :
    (e.mapChildren f).mapChildren g = e.mapChildren fun c => g (f c) := by
  cases e with
  | sum es => rw [mapChildren_sum, mapChildren_sum, mapChildren_sum, List.map_map]; rfl
  | product es =>
    rw [mapChildren_product, mapChildren_product, mapChildren_product, List.map_map]; rfl
  | apply k es => rw [mapChildren_apply, mapChildren_apply, mapChildren_apply, List.map_map]; rfl
  | set s => exact congrArg Expr.set (SetExpr.mapEntities_comp hwf hg)
  | mem a s =>
    refine congrArg (Expr.mem _) (SetExpr.mapEntities_comp ?_ ?_)
    · exact fun c hc => hwf c (List.mem_cons_of_mem a hc)
    · exact fun c hc d hd => hg c (List.mem_cons_of_mem a hc) d (List.mem_cons_of_mem a hd)
  | _ => rfl

/-- All children of the new node are images; a list of points may lose some of them. -/
theorem children_mapChildren_subset (e : Expr) :
    (e.mapChildren f).children ⊆ e.children.map f := by
  cases e with
  | sum es => rw [mapChildren_sum]; exact List.Subset.refl _
  | product es => rw [mapChildren_product]; exact List.Subset.refl _
  | apply k es => rw [mapChildren_apply]; exact List.Subset.refl _
  | set s => exact SetExpr.entities_mapEntities_subset s
  | mem a s => exact List.cons_subset_cons _ (SetExpr.entities_mapEntities_subset s)
  | _ => exact List.Subset.refl _

end Expr

end MapChildren

/-! ## Substitution -/

namespace Expr

variable {e a b t : Expr} {x y : String}

/-- A variable occurs in a node other than a variable when it occurs in a child. -/
theorem containsVar_eq_any_children (h : ∀ v, e ≠ .var v) :
    e.containsVar x = e.children.any (containsVar x) := by
  rw [containsVar_eq]
  cases e with
  | var v => exact absurd rfl (h v)
  | _ => rfl

/-- Replacing goes on in the children of every node but a variable. -/
theorem WellFormed.substitute_eq_mapChildren (h : e.WellFormed) (hvar : ∀ v, e ≠ .var v) :
    e.substitute x t = e.mapChildren fun c => c.substitute x t := by
  cases hx : e.containsVar x with
  | true => exact substitute_of_containsVar x t hx hvar
  | false =>
    have hstay : ∀ c ∈ e.children, c.substitute x t = c := by
      rw [containsVar_eq_any_children hvar, List.any_eq_false] at hx
      exact fun c hc => substitute_of_not_containsVar x t (Bool.eq_false_iff.mpr (hx c hc))
    rw [substitute_of_not_containsVar x t hx, h.mapChildren_eq_self hstay]

/-- Two substitutions go on in the children together. -/
theorem WellFormed.substitute_substitute (he : e.WellFormed) (ha : a.WellFormed)
    (hb : b.WellFormed) (hvar : ∀ v, e ≠ .var v) :
    (e.substitute x a).substitute y b =
      e.mapChildren fun c => (c.substitute x a).substitute y b := by
  have hchild : ∀ c ∈ e.children, (c.substitute x a).WellFormed :=
    fun c hc => (he.of_mem_children hc).substitute ha
  have hvar' : ∀ v, e.substitute x a ≠ .var v := by
    rw [he.substitute_eq_mapChildren hvar]
    exact mapChildren_ne_var hvar
  rw [(he.substitute ha).substitute_eq_mapChildren hvar', he.substitute_eq_mapChildren hvar]
  exact mapChildren_comp (fun c hc => (hchild c hc).substitute hb)
    fun c hc d hd h => (hchild c hc).same_substitute (hchild d hd) hb h

/-- Substitutions for two variables commute if neither term brings the other variable in. -/
theorem WellFormed.substitute_comm (he : e.WellFormed) (ha : a.WellFormed) (hb : b.WellFormed)
    (hxy : x ≠ y) (hay : a.containsVar y = false) (hbx : b.containsVar x = false) :
    (e.substitute x a).substitute y b = (e.substitute y b).substitute x a := by
  induction e using induction_children with
  | node e ih =>
    by_cases hvar : ∃ v, e = .var v
    · obtain ⟨v, rfl⟩ := hvar
      have hstay : ∀ (z : String) (t : Expr), v ≠ z → (Expr.var v).substitute z t = .var v :=
        fun z t hvz => substitute_of_not_containsVar z t (by simpa using hvz)
      by_cases hvx : v = x
      · -- The value of `x` has no `y`, and `x` is not `y`.
        obtain rfl := hvx
        rw [hstay y b hxy, substitute_var_self, substitute_of_not_containsVar y b hay]
      · rw [hstay x a hvx]
        by_cases hvy : v = y
        · obtain rfl := hvy
          rw [substitute_var_self, substitute_of_not_containsVar x a hbx]
        · rw [hstay y b hvy, hstay x a hvx]
    · have hvar : ∀ v, e ≠ .var v := not_exists.mp hvar
      calc (e.substitute x a).substitute y b
          = e.mapChildren fun c => (c.substitute x a).substitute y b :=
            he.substitute_substitute ha hb hvar
        _ = e.mapChildren fun c => (c.substitute y b).substitute x a :=
            mapChildren_congr fun c hc => ih c hc (he.of_mem_children hc)
        _ = (e.substitute y b).substitute x a := (he.substitute_substitute hb ha hvar).symm

/-- A variable is gone after a term without it has been put in its place. -/
theorem containsVar_substitute_eq_false (ht : t.containsVar x = false) :
    (e.substitute x t).containsVar x = false := by
  induction e using induction_children with
  | node e ih =>
    by_cases hvar : ∃ v, e = .var v
    · obtain ⟨v, rfl⟩ := hvar
      by_cases hvx : v = x
      · rw [hvx, substitute_var_self, ht]
      · have hstay : (Expr.var v).containsVar x = false := by simpa using hvx
        rw [substitute_of_not_containsVar x t hstay, hstay]
    · have hvar : ∀ v, e ≠ .var v := not_exists.mp hvar
      cases hx : e.containsVar x with
      | false => rw [substitute_of_not_containsVar x t hx, hx]
      | true =>
        rw [substitute_of_containsVar x t hx hvar,
          containsVar_eq_any_children (mapChildren_ne_var hvar), List.any_eq_false]
        intro c hc
        obtain ⟨d, hd, rfl⟩ := List.mem_map.mp (children_mapChildren_subset e hc)
        exact Bool.eq_false_iff.mp (ih d hd)

/-- Two substitutions of distinct variables, neither of which brings in the variable of the other,
lead to the same tree in either order, down to the order of the points of its sets. A variable is
gone after a substitution that does not bring it in again. -/
theorem substitutions_commute_and_eliminate (e : Expr) :
    (∀ {x y : String} {a b : Expr}, e.WellFormed → a.WellFormed → b.WellFormed → x ≠ y →
      a.containsVar y = false → b.containsVar x = false →
      (e.substitute x a).substitute y b = (e.substitute y b).substitute x a) ∧
    ∀ (x : String) (a : Expr), a.containsVar x = false →
      (e.substitute x a).containsVar x = false :=
  ⟨fun he ha hb hxy hay hbx => he.substitute_comm ha hb hxy hay hbx,
    fun _ _ ha => containsVar_substitute_eq_false ha⟩

/-- The points of a set may become equal after the first substitution or after the second. -/
theorem substitutions_commute_and_eliminate_merged_points :
    let s : Expr := .set (.finite [.var "x", .var "y", .var "z"])
    s.WellFormed ∧ (Expr.var "z").WellFormed ∧
      s.substitute "x" (.var "z") = .set (.finite [.var "z", .var "y"]) ∧
      s.substitute "y" (.var "z") = .set (.finite [.var "x", .var "z"]) ∧
      (s.substitute "x" (.var "z")).substitute "y" (.var "z") =
        (s.substitute "y" (.var "z")).substitute "x" (.var "z") ∧
      (s.substitute "x" (.var "z")).containsVar "x" = false := by
  intro s
  have hs : s.WellFormed :=
    .finite (by simpa using ⟨.var "x", .var "y", .var "z"⟩) (by simp [same])
  obtain ⟨hcomm, helim⟩ := substitutions_commute_and_eliminate s
  exact ⟨hs, .var "z", by with_unfolding_all rfl, by with_unfolding_all rfl,
    hcomm hs (.var "z") (.var "z") (by decide) rfl rfl, helim "x" (.var "z") rfl⟩

end Expr

end SymbolicAlgebra
