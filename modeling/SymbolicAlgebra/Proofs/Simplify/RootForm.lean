import SymbolicAlgebra.Proofs.Simplify.Normalization

/-!
# Folding around a square root

In a root of a polynomial with other variables in its coefficients a square root stands in the midst
of field operations, and no pattern looks into it. `e.withRoot w d` is the field expression `e`
with the square root of `d` in the place of the variable `w`. The patterns do not tell the square root
from a variable, as long as `d` is not a number: applied to `e.withRoot w d` they give what they give
for `e`, with the square root in the place of `w` again. That is what the lemmas here say of one
function after the other, up to `Pattern.foldlM_checkedStep_withRoot` for all patterns at a node.

The lemmas ask for an expression that is defined at some assignment; this says in one word that it is
a field expression, and stays one.
-/

namespace SymbolicAlgebra

variable {ρ : Assignment} {w : String} {d a b e : Expr} {as bs es : List Expr}

namespace Expr

/-- The expression with the square root of `d` in the place of the variable `w`. -/
def withRoot (e : Expr) (w : String) (d : Expr) : Expr := e.substitute w (.call .sqrt d)

/-! ## The kinds of nodes -/

/-- There is no variable in a number to put the root in place of. -/
@[simp]
theorem withRoot_number (n : Number) : (Expr.number n).withRoot w d = .number n := rfl

@[simp]
theorem withRoot_int (k : ℤ) : (Expr.int k).withRoot w d = .int k := rfl

/-- The root stands in the place of the variable, and of no other one. -/
@[simp]
theorem withRoot_var_self : (Expr.var w).withRoot w d = .call .sqrt d := substitute_var_self w _

theorem withRoot_var_of_ne {v : String} (h : v ≠ w) : (Expr.var v).withRoot w d = .var v :=
  substitute_of_not_containsVar w _ (by simpa using h)

theorem withRoot_var (v : String) :
    (Expr.var v).withRoot w d = if v = w then .call .sqrt d else .var v := by
  split_ifs with h
  · rw [h, withRoot_var_self]
  · exact withRoot_var_of_ne h

/-- Where neither the variable nor the square root is changed, the two are not told apart. -/
theorem apply_withRoot_var {f : Expr → Expr} {v : String} (hvar : f (.var v) = .var v)
    (hroot : f (.call .sqrt d) = .call .sqrt d) :
    f ((Expr.var v).withRoot w d) = (f (.var v)).withRoot w d := by
  rw [hvar, withRoot_var]
  split_ifs
  · exact hroot
  · exact hvar

/-- The root is put into each operand of a sum, and so for every other node with operands. -/
@[simp]
theorem withRoot_sum (es : List Expr) :
    (Expr.sum es).withRoot w d = .sum (es.map (·.withRoot w d)) := substitute_sum w _ es

@[simp]
theorem withRoot_product (es : List Expr) :
    (Expr.product es).withRoot w d = .product (es.map (·.withRoot w d)) := substitute_product w _ es

@[simp]
theorem withRoot_power (b x : Expr) :
    (Expr.power b x).withRoot w d = .power (b.withRoot w d) (x.withRoot w d) :=
  substitute_power w _ b x

@[simp]
theorem withRoot_neg (a : Expr) : (Expr.neg a).withRoot w d = .neg (a.withRoot w d) :=
  substitute_neg w _ a

@[simp]
theorem withRoot_div (a b : Expr) :
    (Expr.div a b).withRoot w d = .div (a.withRoot w d) (b.withRoot w d) := substitute_div w _ a b

/-- The root may be put into the terms before they are written as a sum. -/
theorem withRoot_sumOf (es : List Expr) :
    (sumOf es).withRoot w d = sumOf (es.map (·.withRoot w d)) := by
  match es with
  | [] => rfl
  | [e] => rfl
  | e :: e' :: es => exact withRoot_sum _

/-- The root may be put into the factors before they are written as a product. -/
theorem withRoot_productOf (es : List Expr) :
    (productOf es).withRoot w d = productOf (es.map (·.withRoot w d)) := by
  match es with
  | [] => rfl
  | [e] => rfl
  | e :: e' :: es => exact withRoot_product _

/-! ## What is kept -/

/-- The square root is no number, so that there are the same numbers as before. -/
theorem Defined.toNumber?_withRoot (h : e.Defined ρ) : (e.withRoot w d).toNumber? = e.toNumber? := by
  cases h with
  | var v =>
    obtain rfl | hne := eq_or_ne v w
    · rw [withRoot_var_self]
      rfl
    · rw [withRoot_var_of_ne hne]
  | _ => simp [toNumber?]

/-- Only a literal is known to be zero. -/
theorem isZero_eq (e : Expr) : e.isZero = e.toNumber?.any Number.isZero := by
  cases e <;> rfl

/-- Only a literal is known to be one. -/
theorem isOne_eq (e : Expr) : e.isOne = e.toNumber?.any Number.isOne := by
  cases e <;> rfl

/-- A root is no literal, so that what is known to be zero stays so, and nothing else becomes so. -/
theorem Defined.isZero_withRoot (h : e.Defined ρ) : (e.withRoot w d).isZero = e.isZero := by
  rw [isZero_eq, isZero_eq, h.toNumber?_withRoot]

/-- What is known to be one stays so, and nothing else becomes so. -/
theorem Defined.isOne_withRoot (h : e.Defined ρ) : (e.withRoot w d).isOne = e.isOne := by
  rw [isOne_eq, isOne_eq, h.toNumber?_withRoot]

/-- No set comes in with the root. -/
theorem setFree_withRoot (hd : d.SetFree) (h : e.Defined ρ) : (e.withRoot w d).SetFree := by
  induction h with
  | number h => exact .number _
  | var v =>
    obtain rfl | hne := eq_or_ne v w
    · rw [withRoot_var_self]
      exact .apply .sqrt (List.forall_mem_singleton.mpr hd)
    · rw [withRoot_var_of_ne hne]
      exact .var v
  | sum _ ih => exact withRoot_sum _ ▸ .sum (List.forall_mem_map.mpr ih)
  | product _ ih => exact withRoot_product _ ▸ .product (List.forall_mem_map.mpr ih)
  | power _ _ ih => exact withRoot_power _ _ ▸ .power ih (.number _)
  | neg _ ih => exact withRoot_neg _ ▸ .neg ih
  | div _ _ _ iha ihb => exact withRoot_div _ _ ▸ .div iha ihb

/-! ## Equality -/

/-- The expression with the variable `w` in the place of all functions. -/
def withoutRoot (e : Expr) (w : String) : Expr :=
  e.replaceOutermost fun
    | .apply _ _ => some (.var w)
    | _ => none

/-- The variable comes back in every member of a list if it does in each. -/
theorem map_withoutRoot_withRoot (h : ∀ e ∈ es, (e.withRoot w d).withoutRoot w = e) :
    (es.map (·.withRoot w d)).map (·.withoutRoot w) = es := by
  rw [List.map_map]
  exact (List.map_congr_left h).trans (List.map_id _)

/-- There are no functions in a field expression, so that the square root can be taken out again. -/
theorem Defined.withoutRoot_withRoot (h : e.Defined ρ) :
    (e.withRoot w d).withoutRoot w = e := by
  induction h with
  | number h => rfl
  | var v =>
    -- The variable may be the one in whose place the root was put.
    obtain rfl | hne := eq_or_ne v w
    · rw [withRoot_var_self]
      rfl
    · rw [withRoot_var_of_ne hne]
      rfl
  | sum _ ih =>
    rw [withRoot_sum, withoutRoot, replaceOutermost_of_eq_none rfl, mapChildren_sum]
    exact congrArg Expr.sum (map_withoutRoot_withRoot ih)
  | product _ ih =>
    rw [withRoot_product, withoutRoot, replaceOutermost_of_eq_none rfl, mapChildren_product]
    exact congrArg Expr.product (map_withoutRoot_withRoot ih)
  | power _ _ ih =>
    rw [withRoot_power]
    exact congrArg (Expr.power · _) ih
  | neg _ ih =>
    rw [withRoot_neg]
    exact congrArg Expr.neg ih
  | div _ _ _ iha ihb =>
    rw [withRoot_div]
    exact congrArg₂ Expr.div iha ihb

/-- Different expressions stay different: the root could be taken out of them again. -/
theorem Defined.withRoot_inj (ha : a.Defined ρ) (hb : b.Defined ρ) :
    a.withRoot w d = b.withRoot w d ↔ a = b := by
  refine ⟨fun h => ?_, congrArg _⟩
  rw [← ha.withoutRoot_withRoot (w := w) (d := d), h, hb.withoutRoot_withRoot]

/-- Structural equality does not see the root. -/
theorem withRoot_beq (hd : d.SetFree) (ha : a.Defined ρ) (hb : b.Defined ρ) :
    (a.withRoot w d == b.withRoot w d) = (a == b) := by
  rw [Bool.eq_iff_iff, (setFree_withRoot hd ha).beq_iff, ha.setFree.beq_iff, ha.withRoot_inj hb]

/-- Lists of factors are the same with the root if they are without it. -/
theorem sameAll_withRoot (hd : d.SetFree) (has : ∀ a ∈ as, a.Defined ρ)
    (hbs : ∀ b ∈ bs, b.Defined ρ) :
    sameAll (as.map (·.withRoot w d)) (bs.map (·.withRoot w d)) = sameAll as bs := by
  have hmap : ∀ {es : List Expr}, (∀ e ∈ es, e.Defined ρ) →
      (es.map (·.withRoot w d)).map (·.withoutRoot w) = es := fun h =>
    map_withoutRoot_withRoot fun e he => (h e he).withoutRoot_withRoot
  rw [Bool.eq_iff_iff, sameAll_iff (List.forall_mem_map.mpr fun a ha => setFree_withRoot hd (has a ha)),
    sameAll_iff fun a ha => (has a ha).setFree]
  refine ⟨fun h => ?_, congrArg _⟩
  rw [← hmap has, h, hmap hbs]

end Expr

/-! ## Terms -/

namespace Term

/-- The term with the square root in its factors. -/
def withRoot (t : Term) (w : String) (d : Expr) : Term :=
  ⟨t.coefficient, t.factors.map (·.withRoot w d)⟩

/-- A factor that is not taken apart. -/
theorem times_withRoot_of_append (h : ∀ t : Term, t.times e = ⟨t.coefficient, t.factors ++ [e]⟩)
    (h' : ∀ t : Term,
      t.times (e.withRoot w d) = ⟨t.coefficient, t.factors ++ [e.withRoot w d]⟩) (t : Term) :
    (t.withRoot w d).times (e.withRoot w d) = (t.times e).withRoot w d := by
  rw [h', h]
  simp [withRoot]

/-- Multiplying a term by an expression commutes with putting in the root, which is one more
factor. -/
theorem times_withRoot (t : Term) (he : e.Defined ρ) :
    (t.withRoot w d).times (e.withRoot w d) = (t.times e).withRoot w d := by
  induction he generalizing t with
  | number h => rfl
  | var v =>
    refine times_withRoot_of_append (fun _ => rfl) ?_ t
    -- The variable may be the one in whose place the root is put.
    obtain rfl | hne := eq_or_ne v w
    · rw [Expr.withRoot_var_self]
      exact fun _ => rfl
    · rw [Expr.withRoot_var_of_ne hne]
      exact fun _ => rfl
  | @product es h ih =>
    rw [Expr.withRoot_product, times, times, timesAll_eq_foldl, timesAll_eq_foldl]
    clear h
    induction es generalizing t with
    | nil => rfl
    | cons e es ihes =>
      obtain ⟨he, hes⟩ := List.forall_mem_cons.mp ih
      rw [List.map_cons, List.foldl_cons, List.foldl_cons, he, ihes hes]
  | neg _ ih =>
    rw [Expr.withRoot_neg, times, times, ← ih]
    rfl
  | sum =>
    exact times_withRoot_of_append (fun _ => rfl) (Expr.withRoot_sum _ ▸ fun _ => rfl) t
  | power =>
    exact times_withRoot_of_append (fun _ => rfl) (Expr.withRoot_power _ _ ▸ fun _ => rfl) t
  | div =>
    exact times_withRoot_of_append (fun _ => rfl) (Expr.withRoot_div _ _ ▸ fun _ => rfl) t

/-- An expression with the root is split into the coefficient and the factors with the root. -/
theorem ofExpr_withRoot (he : e.Defined ρ) :
    ofExpr (e.withRoot w d) = (ofExpr e).withRoot w d :=
  times_withRoot ⟨1, []⟩ he

/-- A term with the root is written as the expression with the root. -/
theorem toExpr_withRoot (t : Term) : (t.withRoot w d).toExpr = t.toExpr.withRoot w d := by
  obtain ⟨c, fs⟩ := t
  change Term.toExpr ⟨c, fs.map fun e => e.withRoot w d⟩ = _
  have hneg : (-Expr.productOf fs).withRoot w d = -Expr.productOf (fs.map (·.withRoot w d)) :=
    (Expr.withRoot_neg _).trans (congrArg Expr.neg (Expr.withRoot_productOf _))
  unfold toExpr
  dsimp only
  rw [List.isEmpty_map]
  split_ifs
  · rfl
  · exact (Expr.withRoot_productOf _).symm
  · exact hneg.symm
  · exact (Expr.withRoot_productOf (.number c :: fs)).symm

end Term

namespace Folding

/-! ## Sums -/

/-- Sums are taken apart at the same places. -/
theorem flattenSum_withRoot (he : e.Defined ρ) :
    flattenSum (e.withRoot w d) = (flattenSum e).map (·.withRoot w d) := by
  induction he with
  | var v =>
    obtain rfl | hne := eq_or_ne v w
    · simp [flattenSum]
      rfl
    · simp [flattenSum, Expr.withRoot_var_of_ne hne]
  | @sum es _ ih =>
    rw [Expr.withRoot_sum, flattenSum, flattenSum, flattenSums_eq_flatMap, flattenSums_eq_flatMap,
      List.flatMap_map, List.map_flatMap]
    exact List.flatMap_congr ih
  | _ => simp [flattenSum]

/-- A term finds the same like one. -/
theorem addLike_withRoot (hd : d.SetFree) {gs : List Term} {t : Term} (hgs : ∀ g ∈ gs, g.Defined ρ)
    (ht : t.Defined ρ) :
    addLike (gs.map (·.withRoot w d)) (t.withRoot w d) = (addLike gs t).map (·.withRoot w d) := by
  induction gs with
  | nil => rfl
  | cons g gs ih =>
    obtain ⟨hg, hgs⟩ := List.forall_mem_cons.mp hgs
    have hsame : sameAll (g.withRoot w d).factors (t.withRoot w d).factors =
        sameAll g.factors t.factors := Expr.sameAll_withRoot hd hg.factors ht.factors
    rw [List.map_cons, addLike, addLike, hsame, ih hgs]
    split_ifs <;> rfl

/-- The collection with the square root in its terms. -/
def Collected.withRoot (c : Collected) (w : String) (d : Expr) : Collected :=
  ⟨c.constant, c.groups.map (·.withRoot w d)⟩

/-- A term is added to the same constant or group. -/
theorem Collected.add_withRoot (hd : d.SetFree) {c : Collected} {t : Term} (hc : c.Defined ρ)
    (ht : t.Defined ρ) : (c.withRoot w d).add (t.withRoot w d) = (c.add t).withRoot w d := by
  have hempty : (t.withRoot w d).factors.isEmpty = t.factors.isEmpty := List.isEmpty_map
  rw [add, add, hempty]
  split_ifs
  · rfl
  · exact congrArg (Collected.mk _) (addLike_withRoot hd hc.groups ht)

/-- Collecting terms one after the other commutes with putting in the root. -/
theorem Collected.foldl_add_withRoot (hd : d.SetFree) {c : Collected} {ts : List Term}
    (hc : c.Defined ρ) (hts : ∀ t ∈ ts, t.Defined ρ) :
    (ts.map (·.withRoot w d)).foldl add (c.withRoot w d) = (ts.foldl add c).withRoot w d := by
  induction ts generalizing c with
  | nil => rfl
  | cons t ts ih =>
    obtain ⟨ht, hts⟩ := List.forall_mem_cons.mp hts
    rw [List.map_cons, List.foldl_cons, List.foldl_cons, add_withRoot hd hc ht, ih (hc.add ht).1 hts]

/-- The same groups are left out when a collection is written. -/
theorem Collected.toTerms_withRoot (c : Collected) :
    (c.withRoot w d).toTerms = c.toTerms.map (·.withRoot w d) := by
  obtain ⟨n, gs⟩ := c
  have hgroups : ((gs.map (·.withRoot w d)).filter fun t => !t.coefficient.isZero).map Term.toExpr =
      ((gs.filter fun t => !t.coefficient.isZero).map Term.toExpr).map (·.withRoot w d) := by
    rw [List.filter_map, List.map_map, List.map_map]
    exact List.map_congr_left fun t _ => Term.toExpr_withRoot t
  change _ ++ (if n.isZero then [] else [Expr.number n]) =
    (_ ++ (if n.isZero then [] else [Expr.number n])).map _
  rw [List.map_append]
  refine congrArg₂ (· ++ ·) hgroups ?_
  split_ifs <;> rfl

/-- Collecting like terms commutes with putting in the root. -/
theorem collectSum_withRoot (hd : d.SetFree) (he : e.Defined ρ) :
    collectSum (e.withRoot w d) = (collectSum e).withRoot w d := by
  obtain ⟨hflat, -⟩ := defined_flattenSum he
  have hterms : ∀ t ∈ (flattenSum e).map Term.ofExpr, t.Defined ρ :=
    List.forall_mem_map.mpr fun a ha => (Term.defined_ofExpr (hflat a ha)).1
  have hmap : (flattenSum (e.withRoot w d)).map Term.ofExpr =
      ((flattenSum e).map Term.ofExpr).map (·.withRoot w d) := by
    rw [flattenSum_withRoot he, List.map_map, List.map_map]
    exact List.map_congr_left fun a ha => Term.ofExpr_withRoot (hflat a ha)
  have hempty : Collected.Defined ρ ⟨0, []⟩ := ⟨⟨0, rfl⟩, by simp⟩
  rw [collectSum, collectSum, Expr.withRoot_sumOf, ← Collected.toTerms_withRoot, collect, collect,
    hmap, ← Collected.foldl_add_withRoot hd hempty hterms]
  rfl

/-- Folding a sum commutes with putting in the root. -/
theorem foldSum_withRoot (hd : d.SetFree) (he : e.Defined ρ) :
    foldSum (e.withRoot w d) = (foldSum e).withRoot w d := by
  cases he with
  | @sum es h =>
    have hfold := collectSum_withRoot (w := w) hd (.sum h)
    rw [Expr.withRoot_sum] at hfold ⊢
    exact hfold
  | var v => exact Expr.apply_withRoot_var rfl rfl
  | _ => simp [foldSum]

/-! ## Products -/

/-- The group with the square root in its base. -/
def PowerGroup.withRoot (g : PowerGroup) (w : String) (d : Expr) : PowerGroup :=
  ⟨g.base.withRoot w d, g.exponents⟩

/-- The exponent is a literal, and only the base may have the root. -/
theorem baseAndExponent_withRoot (he : e.Defined ρ) :
    baseAndExponent (e.withRoot w d) =
      ((baseAndExponent e).1.withRoot w d, (baseAndExponent e).2) := by
  cases he with
  | var v =>
    change baseAndExponent ((Expr.var v).withRoot w d) = ((Expr.var v).withRoot w d, 1)
    rw [Expr.withRoot_var]
    split_ifs <;> rfl
  | _ => simp [baseAndExponent]

/-- A power finds the group of the same base. -/
theorem addPower_withRoot (hd : d.SetFree) {gs : List PowerGroup} {b x : Expr}
    (hgs : ∀ g ∈ gs, g.Defined ρ) (hb : b.Defined ρ) :
    addPower (gs.map (·.withRoot w d)) (b.withRoot w d, x) =
      (addPower gs (b, x)).map (·.withRoot w d) := by
  induction gs with
  | nil => rfl
  | cons g gs ih =>
    obtain ⟨hg, hgs⟩ := List.forall_mem_cons.mp hgs
    have hsame : ((g.withRoot w d).base == b.withRoot w d) = (g.base == b) :=
      Expr.withRoot_beq hd hg.base hb
    rw [List.map_cons, addPower, addPower, hsame, ih hgs]
    split_ifs <;> rfl

/-- Grouping powers one after the other commutes with putting in the root. -/
theorem foldl_addPower_withRoot (hd : d.SetFree) {gs : List PowerGroup}
    (hes : ∀ e ∈ es, e.Defined ρ) (hgs : ∀ g ∈ gs, g.Defined ρ) :
    ((es.map (·.withRoot w d)).map baseAndExponent).foldl addPower (gs.map (·.withRoot w d)) =
      ((es.map baseAndExponent).foldl addPower gs).map (·.withRoot w d) := by
  induction es generalizing gs with
  | nil => rfl
  | cons e es ih =>
    obtain ⟨he, hes⟩ := List.forall_mem_cons.mp hes
    obtain ⟨hp, -⟩ := defined_baseAndExponent he
    obtain ⟨hadd, -⟩ := defined_addPower hgs hp
    simp only [List.map_cons, List.foldl_cons]
    rw [baseAndExponent_withRoot he, addPower_withRoot hd hgs hp.base]
    exact ih hes hadd

/-- The exponents are numbers, so that the square root is in the base alone. -/
theorem PowerGroup.toFactor?_withRoot {g : PowerGroup} (hg : g.Defined ρ) :
    (g.withRoot w d).toFactor? = g.toFactor?.map (·.withRoot w d) := by
  obtain ⟨ks, hks, -⟩ := hg.exponents
  have hks' : (g.withRoot w d).exponents = ks.map .int := hks
  rw [PowerGroup.toFactor?_eq hks, PowerGroup.toFactor?_eq hks']
  split_ifs
  · rfl
  · rfl
  · exact congrArg some (Expr.withRoot_power g.base (.int ks.sum)).symm

/-- Merging powers commutes with putting in the root. -/
theorem mergePowers_withRoot (hd : d.SetFree) (hes : ∀ e ∈ es, e.Defined ρ) :
    mergePowers (es.map (·.withRoot w d)) = (mergePowers es).map (·.withRoot w d) := by
  have hnil : ∀ g ∈ ([] : List PowerGroup), g.Defined ρ := by simp
  obtain ⟨hgs, -⟩ := defined_foldl_addPower hes hnil
  have hfold := foldl_addPower_withRoot (w := w) hd hes hnil
  rw [List.map_nil] at hfold
  rw [mergePowers, mergePowers, hfold, List.filterMap_map, List.map_filterMap]
  exact List.filterMap_congr fun g hg => PowerGroup.toFactor?_withRoot (hgs g hg)

/-- Folding a product commutes with putting in the root. -/
theorem foldProduct_withRoot (hd : d.SetFree) (he : e.Defined ρ) :
    foldProduct (e.withRoot w d) = (foldProduct e).withRoot w d := by
  cases he with
  | @product es h =>
    have hd' : (Expr.product es).Defined ρ := .product h
    have hterm := Term.ofExpr_withRoot (w := w) (d := d) hd'
    have hmerge := mergePowers_withRoot (w := w) hd (Term.defined_ofExpr hd').1.factors
    rw [Expr.withRoot_product] at hterm ⊢
    rw [foldProduct, foldProduct, hterm]
    generalize Term.ofExpr (.product es) = t at hmerge ⊢
    obtain ⟨c, fs⟩ := t
    dsimp only at hmerge
    change (if c.isZero then 0 else Term.toExpr ⟨c, mergePowers (fs.map _)⟩) =
      (if c.isZero then 0 else Term.toExpr ⟨c, mergePowers fs⟩).withRoot w d
    rw [hmerge]
    split_ifs
    · rfl
    · exact Term.toExpr_withRoot ⟨c, mergePowers fs⟩
  | var v => exact Expr.apply_withRoot_var rfl rfl
  | _ => simp [foldProduct]

/-! ## Powers -/

/-- A power of the root is no power of a power. -/
theorem foldNestedPower?_withRoot (he : b.Defined ρ) (k : ℤ) :
    foldNestedPower? (b.withRoot w d) k = (foldNestedPower? b k).map (·.withRoot w d) := by
  cases he with
  | @power b j hb hj =>
    rw [Expr.withRoot_power]
    exact congrArg some (Expr.withRoot_power b (.int (j * k))).symm
  | var v =>
    rw [Expr.withRoot_var]
    split_ifs <;> rfl
  | _ => simp [foldNestedPower?]

/-- Folding a power commutes with putting in the root: the root is no literal base. -/
theorem foldPower_withRoot (he : e.Defined ρ) :
    foldPower (e.withRoot w d) = (foldPower e).withRoot w d := by
  cases he with
  | @power b k hb hk =>
    have hnumber := hb.toNumber?_withRoot (w := w) (d := d)
    rw [Expr.withRoot_power, Expr.withRoot_int]
    cases hnum : b.toNumber? with
    | some m =>
      obtain rfl := Expr.eq_number_of_toNumber? hnum
      rw [Expr.withRoot_number, foldPower_number]
      split_ifs
      · rfl
      · rfl
      · cases foldNumericPower? m (.int k) <;> simp
    | none =>
      rw [foldPower_of_toNumber?_eq_none hnum,
        foldPower_of_toNumber?_eq_none (hnumber.trans hnum), hb.isOne_withRoot,
        foldNestedPower?_withRoot hb]
      split_ifs
      · rfl
      · rfl
      · cases foldNestedPower? b k with
        | none => exact (Expr.withRoot_power b (.int k)).symm
        | some e => rfl
  | var v => exact Expr.apply_withRoot_var rfl rfl
  | _ => simp [foldPower]

/-- Only powers of literals overflow, and the root makes no literal. -/
theorem overflows_withRoot (he : e.Defined ρ) : overflows (e.withRoot w d) = overflows e := by
  cases he with
  | @power b k hb hk =>
    rw [Expr.withRoot_power, Expr.withRoot_int]
    cases hb with
    | var v =>
      rw [Expr.withRoot_var]
      split_ifs <;> rfl
    | _ => simp [overflows]
  | var v =>
    rw [Expr.withRoot_var]
    split_ifs <;> rfl
  | _ => simp [overflows]

/-! ## Signs and quotients -/

/-- Folding a sign commutes with putting in the root. -/
theorem foldNeg_withRoot (he : e.Defined ρ) :
    foldNeg (e.withRoot w d) = (foldNeg e).withRoot w d := by
  cases he with
  | @neg a ha =>
    -- A single sign goes into the coefficient of a term.
    have hterm : (Term.ofExpr ((Expr.neg a).withRoot w d)).toExpr =
        (Term.ofExpr (.neg a)).toExpr.withRoot w d := by
      rw [Term.ofExpr_withRoot ha.neg, Term.toExpr_withRoot]
    cases ha with
    | neg hb => simp [foldNeg]
    | var v =>
      rw [Expr.withRoot_neg, Expr.withRoot_var] at hterm ⊢
      split_ifs at hterm ⊢ <;> exact hterm
    | number | sum | product | power | div =>
      simp only [Expr.withRoot_neg, Expr.withRoot_number, Expr.withRoot_sum, Expr.withRoot_product,
        Expr.withRoot_power, Expr.withRoot_div] at hterm ⊢
      exact hterm
  | var v => exact Expr.apply_withRoot_var rfl rfl
  | _ => simp [foldNeg]

/-- Folding a quotient commutes with putting in the root. -/
theorem foldDiv_withRoot (hd : d.SetFree) (he : e.Defined ρ) :
    foldDiv (e.withRoot w d) = (foldDiv e).withRoot w d := by
  cases he with
  | @div a b ha hb hne =>
    have hnumber := hb.toNumber?_withRoot (w := w) (d := d)
    rw [Expr.withRoot_div]
    cases hnum : b.toNumber? with
    | some m =>
      obtain rfl := Expr.eq_number_of_toNumber? hnum
      rw [Expr.withRoot_number, foldDiv_number, foldDiv_number, Term.ofExpr_withRoot ha]
      split_ifs
      · rfl
      · exact (Expr.withRoot_div a (.number m)).symm
      · exact Term.toExpr_withRoot ⟨_, _⟩
    | none =>
      rw [foldDiv_of_toNumber?_eq_none a hnum, foldDiv_of_toNumber?_eq_none _ (hnumber.trans hnum),
        hb.isOne_withRoot, ha.isZero_withRoot, Expr.withRoot_beq hd ha hb]
      split_ifs
      · rfl
      · rfl
      · rfl
      · exact (Expr.withRoot_div a b).symm
  | var v => exact Expr.apply_withRoot_var rfl rfl
  | _ => simp [foldDiv]

/-! ## Roots and absolute values -/

/-- The square root itself is left alone, unless it is one of a number. -/
theorem foldSqrt_withRoot (hnum : d.toNumber? = none) (he : e.Defined ρ) :
    foldSqrt (e.withRoot w d) = (foldSqrt e).withRoot w d := by
  have hroot : foldSqrt (.call .sqrt d) = .call .sqrt d := by
    simp [foldSqrt, Expr.call, Expr.argOf?, hnum]
  cases he with
  | var v => exact Expr.apply_withRoot_var rfl hroot
  | _ => simp [foldSqrt, Expr.argOf?]

/-- No absolute value comes in with the root. -/
theorem foldAbs_withRoot (he : e.Defined ρ) :
    foldAbs (e.withRoot w d) = (foldAbs e).withRoot w d := by
  cases he with
  | var v => exact Expr.apply_withRoot_var rfl rfl
  | _ => simp [foldAbs, Expr.argOf?]

end Folding

/-! ## Patterns -/

namespace Pattern

/-- The square root is the only function. -/
theorem argOf?_withRoot {f : Func} (hf : f ≠ .sqrt) (he : e.Defined ρ) :
    (e.withRoot w d).argOf? f = none := by
  cases he with
  | var v =>
    rw [Expr.withRoot_var]
    split_ifs
    · exact if_neg hf.symm
    · rfl
  | _ => simp [Expr.argOf?]

/-- No square of another function comes in with the root. -/
theorem squaredArg?_withRoot {f : Func} (hf : f ≠ .sqrt) (he : e.Defined ρ) :
    Trigonometry.squaredArg? f (e.withRoot w d) = none := by
  cases he with
  | power hb hk => simp [Trigonometry.squaredArg?, argOf?_withRoot hf hb]
  | var v =>
    rw [Expr.withRoot_var]
    split_ifs <;> rfl
  | _ => simp [Trigonometry.squaredArg?]

/-- No trigonometric function comes in with the root, so that none has a special value. -/
theorem specialValues_withRoot (he : e.Defined ρ) :
    Trigonometry.specialValues (e.withRoot w d) = e.withRoot w d := by
  have hroot : Trigonometry.specialValues (.call .sqrt d) = .call .sqrt d := by
    simp [Trigonometry.specialValues, Expr.call, Trigonometry.atZero?, Trigonometry.atPi?]
  cases he with
  | var v => exact Expr.apply_withRoot_var rfl hroot
  | _ => simp [Trigonometry.specialValues]

/-- No trigonometric function comes in with the root that could have a sign as argument. -/
theorem parity_withRoot (he : e.Defined ρ) :
    Trigonometry.parity (e.withRoot w d) = e.withRoot w d := by
  have hroot : Trigonometry.parity (.call .sqrt d) = .call .sqrt d := by cases d <;> rfl
  cases he with
  | var v => exact Expr.apply_withRoot_var rfl hroot
  | _ => simp [Trigonometry.parity]

/-- No pair of squares is found among terms with the root. -/
theorem pythagorean_withRoot (he : e.Defined ρ) :
    Trigonometry.pythagorean (e.withRoot w d) = e.withRoot w d := by
  cases he with
  | @sum es h =>
    have hterms : ∀ t ∈ es.map (·.withRoot w d), Trigonometry.squaredArg? .sin t = none :=
      List.forall_mem_map.mpr fun t ht => squaredArg?_withRoot (by decide) (h t ht)
    simp [Trigonometry.pythagorean, pythagoreanPair?_eq_none hterms]
  | var v => exact Expr.apply_withRoot_var rfl rfl
  | _ => simp [Trigonometry.pythagorean]

/-- The patterns about totients, exponentials and trigonometric functions do nothing. -/
theorem apply_withRoot_of_function {p : Pattern} (hp : p ∈ numberTheory ++ expLog ++ trigonometry)
    (he : e.Defined ρ) : p.apply (e.withRoot w d) = e.withRoot w d := by
  have harg : ∀ {f : Func}, f ≠ .sqrt → (e.withRoot w d).argOf? f = none :=
    fun hf => argOf?_withRoot hf he
  simp only [numberTheory, expLog, trigonometry, List.cons_append, List.nil_append, List.mem_cons,
    List.not_mem_nil, or_false] at hp
  rcases hp with rfl | rfl | rfl | rfl | rfl | rfl | rfl | rfl | rfl | rfl | rfl
  · simp [Totient.ofPrimePower, harg]
  · simp [Totient.ofPrime, harg]
  · simp [Totient.ofInteger, harg]
  · simp [ExpLog.expSpecial, harg]
  · simp [ExpLog.lnSpecial, harg]
  · simp [ExpLog.expOfLn, harg]
  · simp [ExpLog.lnOfExp, harg]
  · exact specialValues_withRoot he
  · exact parity_withRoot he
  · simp [Trigonometry.inverseComposition, Trigonometry.undone?, harg]
  · exact pythagorean_withRoot he

/-- The arithmetic patterns do not tell the square root from a variable. -/
theorem apply_withRoot_of_arithmetic {p : Pattern} (hp : p ∈ arithmetic) (hd : d.SetFree)
    (hnum : d.toNumber? = none) (he : e.Defined ρ) :
    p.apply (e.withRoot w d) = (p.apply e).withRoot w d := by
  simp only [arithmetic, List.mem_cons, List.not_mem_nil, or_false] at hp
  rcases hp with rfl | rfl | rfl | rfl | rfl | rfl | rfl
  · exact Folding.foldSum_withRoot hd he
  · exact Folding.foldProduct_withRoot hd he
  · exact Folding.foldPower_withRoot he
  · exact Folding.foldNeg_withRoot he
  · exact Folding.foldDiv_withRoot hd he
  · exact Folding.foldSqrt_withRoot hnum he
  · exact Folding.foldAbs_withRoot he

/-- No pattern tells the square root from a variable. -/
theorem apply_withRoot {p : Pattern} (hp : p ∈ library) (hd : d.SetFree)
    (hnum : d.toNumber? = none) (he : e.Defined ρ) :
    p.apply (e.withRoot w d) = (p.apply e).withRoot w d := by
  obtain ha | hfunction := mem_arithmetic_or_function hp
  · exact apply_withRoot_of_arithmetic ha hd hnum he
  · rw [apply_withRoot_of_function hfunction he, apply_eq_self hfunction he.isField]

/-- A checked step commutes with putting in the root. -/
theorem checkedStep_withRoot {p : Pattern} (hp : p ∈ library) (hd : d.SetFree)
    (hnum : d.toNumber? = none) (he : e.Defined ρ) :
    checkedStep (e.withRoot w d) p = (checkedStep e p).map (·.withRoot w d) := by
  rw [checkedStep, checkedStep, Folding.overflows_withRoot he]
  split_ifs with ho
  · rfl
  · have ho : p.name = "fold-power" → Folding.overflows e = false := by simpa using ho
    have hnext : (p.apply e).Defined ρ := (sound_of_mem_library hp e ho ρ he).1
    rw [step, step, apply_withRoot hp hd hnum he, Expr.withRoot_beq hd hnext he]
    split_ifs <;> rfl

/-- The patterns do to a node with the square root in it what they do to the node with the variable. -/
theorem foldlM_checkedStep_withRoot {ps : List Pattern} (hps : ∀ p ∈ ps, p ∈ library)
    (hd : d.SetFree) (hnum : d.toNumber? = none) (he : e.Defined ρ) :
    ps.foldlM checkedStep (e.withRoot w d) =
      (ps.foldlM checkedStep e).map (·.withRoot w d) := by
  induction ps generalizing e with
  | nil => rfl
  | cons p ps ih =>
    obtain ⟨hp, hps⟩ := List.forall_mem_cons.mp hps
    rw [List.foldlM_cons, List.foldlM_cons, checkedStep_withRoot hp hd hnum he]
    cases hstep : checkedStep e p with
    | none => rfl
    | some next =>
      obtain ⟨ho, rfl⟩ := checkedStep_eq_some_iff.mp hstep
      exact ih hps ((sound_of_mem_library hp).step_refines ho ρ he).1

/-! ## Passes -/

/-- Operands with a common way through a transformation have a common list of results. -/
theorem exists_of_mapBottomUpAllM {f : Expr → Option Expr} {g g' : Expr → Expr} {rs : List Expr}
    (h : ∀ e ∈ es, ∀ r, Expr.mapBottomUpM f (g e) = some r →
      ∃ e', Expr.mapBottomUpM f e = some e' ∧ r = g' e')
    (hall : Expr.mapBottomUpAllM f (es.map g) = some rs) :
    ∃ es', Expr.mapBottomUpAllM f es = some es' ∧ rs = es'.map g' := by
  induction es generalizing rs with
  | nil =>
    obtain rfl : [] = rs := Option.some.inj hall
    exact ⟨[], rfl, rfl⟩
  | cons e es ih =>
    obtain ⟨he, hes⟩ := List.forall_mem_cons.mp h
    obtain ⟨r, hr, hall⟩ := Option.bind_eq_some_iff.mp hall
    obtain ⟨rs', hrs, hall⟩ := Option.bind_eq_some_iff.mp hall
    obtain rfl : r :: rs' = rs := Option.some.inj hall
    obtain ⟨e', he', rfl⟩ := he r hr
    obtain ⟨es', hes', rfl⟩ := ih hes hrs
    refine ⟨e' :: es', ?_, rfl⟩
    rw [Expr.mapBottomUpAllM, he', hes']
    rfl

/-- A pass leaves the square root in its place, as long as what stands under it does not become a
number. -/
theorem exists_checkedPass_withRoot {d' r : Expr} (hd' : d'.SetFree) (hnum : d'.toNumber? = none)
    (hpass : ∀ x, checkedPass library d = some x → x = d') (he : e.Defined ρ)
    (h : checkedPass library (e.withRoot w d) = some r) :
    ∃ e', checkedPass library e = some e' ∧ r = e'.withRoot w d' := by
  have hnumber : ∀ n, library.foldlM checkedStep (.number n) = some (.number n) :=
    foldlM_checkedStep_number fun _ => id
  -- What the patterns do to a node whose operands have been transformed.
  have hnode : ∀ {node r : Expr}, node.Defined ρ →
      library.foldlM checkedStep (node.withRoot w d') = some r →
      ∃ e', library.foldlM checkedStep node = some e' ∧ r = e'.withRoot w d' := by
    intro node r hdef hr
    rw [foldlM_checkedStep_withRoot (fun _ => id) hd' hnum hdef] at hr
    obtain ⟨e', he', rfl⟩ := Option.map_eq_some_iff.mp hr
    exact ⟨e', he', rfl⟩
  have hrefines : ∀ {e e' : Expr}, e.Defined ρ → checkedPass library e = some e' →
      e'.Defined ρ ∧ e'.value ρ = e.value ρ := fun hdef h => checkedPass_refines h ρ hdef
  induction he generalizing r with
  | number hq => exact hnode (.number hq) h
  | var v =>
    obtain rfl | hne := eq_or_ne v w
    · rw [Expr.withRoot_var_self] at h
      obtain ⟨args, hargs, h⟩ := Option.bind_eq_some_iff.mp h
      obtain ⟨x, hx, hargs⟩ := Option.bind_eq_some_iff.mp hargs
      obtain rfl := hpass x hx
      obtain rfl : [x] = args := Option.some.inj hargs
      exact hnode (.var v) (by rw [Expr.withRoot_var_self]; exact h)
    · rw [Expr.withRoot_var_of_ne hne] at h
      exact hnode (.var v) (by rw [Expr.withRoot_var_of_ne hne]; exact h)
  | @sum es hes ih =>
    rw [Expr.withRoot_sum] at h
    obtain ⟨rs, hrs, h⟩ := Option.bind_eq_some_iff.mp h
    obtain ⟨es', hes', rfl⟩ := exists_of_mapBottomUpAllM (fun e he _ => ih e he) hrs
    have hdef := (Expr.values_of_mapBottomUpAllM (fun e he _ => hrefines (hes e he)) hes').1
    obtain ⟨e', he', rfl⟩ := hnode (.sum hdef) (by rw [Expr.withRoot_sum]; exact h)
    exact ⟨e', Option.bind_eq_some_iff.mpr ⟨es', hes', he'⟩, rfl⟩
  | @product es hes ih =>
    rw [Expr.withRoot_product] at h
    obtain ⟨rs, hrs, h⟩ := Option.bind_eq_some_iff.mp h
    obtain ⟨es', hes', rfl⟩ := exists_of_mapBottomUpAllM (fun e he _ => ih e he) hrs
    have hdef := (Expr.values_of_mapBottomUpAllM (fun e he _ => hrefines (hes e he)) hes').1
    obtain ⟨e', he', rfl⟩ := hnode (.product hdef) (by rw [Expr.withRoot_product]; exact h)
    exact ⟨e', Option.bind_eq_some_iff.mpr ⟨es', hes', he'⟩, rfl⟩
  | @power b k hb hk ih =>
    rw [Expr.withRoot_power, Expr.withRoot_int] at h
    obtain ⟨r₁, hr₁, h⟩ := Option.bind_eq_some_iff.mp h
    obtain ⟨x, hx, h⟩ := Option.bind_eq_some_iff.mp h
    obtain rfl : Expr.int k = x := Option.some.inj ((hnumber _).symm.trans hx)
    obtain ⟨b', hb', rfl⟩ := ih hr₁
    obtain ⟨hdef, hval⟩ := hrefines hb hb'
    obtain ⟨e', he', rfl⟩ := hnode (.power hdef (by rwa [hval])) (by
      rw [Expr.withRoot_power, Expr.withRoot_int]; exact h)
    exact ⟨e', Option.bind_eq_some_iff.mpr ⟨b', hb', Option.bind_eq_some_iff.mpr ⟨_, hx, he'⟩⟩, rfl⟩
  | @neg a ha ih =>
    rw [Expr.withRoot_neg] at h
    obtain ⟨r₁, hr₁, h⟩ := Option.bind_eq_some_iff.mp h
    obtain ⟨a', ha', rfl⟩ := ih hr₁
    obtain ⟨e', he', rfl⟩ := hnode (hrefines ha ha').1.neg (by rw [Expr.withRoot_neg]; exact h)
    exact ⟨e', Option.bind_eq_some_iff.mpr ⟨a', ha', he'⟩, rfl⟩
  | @div a b ha hb hne iha ihb =>
    rw [Expr.withRoot_div] at h
    obtain ⟨r₁, hr₁, h⟩ := Option.bind_eq_some_iff.mp h
    obtain ⟨r₂, hr₂, h⟩ := Option.bind_eq_some_iff.mp h
    obtain ⟨a', ha', rfl⟩ := iha hr₁
    obtain ⟨b', hb', rfl⟩ := ihb hr₂
    obtain ⟨hdef, hval⟩ := hrefines hb hb'
    obtain ⟨e', he', rfl⟩ := hnode (.div (hrefines ha ha').1 hdef (by rwa [hval])) (by
      rw [Expr.withRoot_div]; exact h)
    exact ⟨e', Option.bind_eq_some_iff.mpr ⟨a', ha', Option.bind_eq_some_iff.mpr ⟨b', hb', he'⟩⟩, rfl⟩

end Pattern

end SymbolicAlgebra
