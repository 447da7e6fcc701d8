import SymbolicAlgebra.Proofs.Expr.Children
import SymbolicAlgebra.Proofs.Expr.Expansion

/-!
# The expanded form

The terms of an expansion have one form, `Expansion.IsTerm`: a product of factors that expansion
leaves alone, behind any number of signs. The form is kept when two terms are multiplied,
`Expansion.IsTerm.multiply`, and such a term expands to itself, `Expansion.IsTerm.expandTerms_eq`.
From these two facts an expansion is expanded already, `Expr.expand_expand`.

Exponents have to be literals. An exponent is expanded, too, and may only become the small whole
number that makes the next expansion multiply the power out.
-/

namespace SymbolicAlgebra

namespace Expansion

variable {a b e t : Expr} {fs gs ts us : List Expr}

/-! ## Factors and terms -/

/-- A factor in an expanded product: it expands to itself, and is neither a product, nor a sign, nor
a literal one, which would not stay in the product as they are. -/
structure IsFactor (e : Expr) : Prop where
  expandTerms_eq : e.expandTerms = [e]
  factors_eq : factors e = [e]
  isOne_eq : e.isOne = false
  ne_neg : ∀ a, e ≠ .neg a

/-- A term of an expanded sum: a literal one, or a product of factors, with signs in front. -/
inductive IsTerm : Expr → Prop
  | one {n : Number} (h : n.isOne = true) : IsTerm (.number n)
  | product {fs : List Expr} (h : ∀ f ∈ fs, IsFactor f) : IsTerm (.productOf fs)
  | neg {a : Expr} (ha : IsTerm a) : IsTerm (.neg a)

/-- A factor alone is a term. -/
theorem IsFactor.isTerm (h : IsFactor e) : IsTerm e := .product (List.forall_mem_singleton.mpr h)

/-- A written product of factors has these factors. -/
theorem factors_productOf (hne : fs ≠ []) (h : ∀ f ∈ fs, IsFactor f) :
    factors (.productOf fs) = fs := by
  match fs, hne, h with
  | [f], _, h => exact (h f (by simp)).factors_eq
  | _ :: _ :: _, _, _ => rfl

/-- A written product of factors is no literal one. -/
theorem isOne_productOf (hne : fs ≠ []) (h : ∀ f ∈ fs, IsFactor f) :
    (Expr.productOf fs).isOne = false := by
  match fs, hne, h with
  | [f], _, h => exact (h f (by simp)).isOne_eq
  | _ :: _ :: _, _, _ => rfl

/-- A written product of factors has no sign. -/
theorem productOf_ne_neg (h : ∀ f ∈ fs, IsFactor f) (a : Expr) : Expr.productOf fs ≠ .neg a := by
  match fs, h with
  | [], _ => exact nofun
  | [f], h => exact (h f (by simp)).ne_neg a
  | _ :: _ :: _, _ => exact nofun

/-- A term without its sign is a term. -/
theorem IsTerm.of_neg (h : IsTerm (.neg a)) : IsTerm a := by
  generalize he : Expr.neg a = e at h
  cases h with
  | one h => cases he
  | product h => exact absurd he.symm (productOf_ne_neg h a)
  | neg ha =>
    obtain rfl := Expr.neg.inj he
    exact ha

/-- A term without a sign that is not one has factors. -/
theorem IsTerm.exists_productOf (h : IsTerm e) (hone : e.isOne = false) (hneg : ∀ a, e ≠ .neg a) :
    ∃ fs, fs ≠ [] ∧ (∀ f ∈ fs, IsFactor f) ∧ e = .productOf fs := by
  cases h with
  | one h => exact Bool.noConfusion (h.symm.trans hone)
  | @product fs h =>
    refine ⟨fs, ?_, h, rfl⟩
    rintro rfl
    exact Bool.noConfusion hone
  | neg ha => exact absurd rfl (hneg _)

/-! ## Products of terms -/

/-- Two operands without a sign, none of them one, are multiplied by joining their factors. -/
theorem multiplyRight_eq_productOf (ha : a.isOne = false) (hb : b.isOne = false)
    (hneg : ∀ x, b ≠ .neg x) : multiplyRight a b = .productOf (factors a ++ factors b) := by
  rw [multiplyRight.eq_def, ha, hb]
  cases b with
  | neg x => exact absurd rfl (hneg x)
  | _ => rfl

/-- Without a sign on the left, it is the right side that matters. -/
theorem multiply_eq_multiplyRight (h : ∀ x, a ≠ .neg x) (b : Expr) :
    multiply a b = multiplyRight a b := by
  cases a with
  | neg x => exact absurd rfl (h x)
  | _ => rfl

/-- Products of factors are multiplied by writing one behind the other. -/
theorem multiply_productOf (hgs : ∀ f ∈ gs, IsFactor f) (hfs : ∀ f ∈ fs, IsFactor f) :
    multiply (.productOf gs) (.productOf fs) = .productOf (gs ++ fs) := by
  rw [multiply_eq_multiplyRight (productOf_ne_neg hgs)]
  by_cases hg : gs = []
  · subst hg
    rw [multiplyRight.eq_def]
    rfl
  by_cases hf : fs = []
  · subst hf
    rw [multiplyRight.eq_def, isOne_productOf hg hgs, List.append_nil]
    rfl
  · rw [multiplyRight_eq_productOf (isOne_productOf hg hgs) (isOne_productOf hf hfs)
      (productOf_ne_neg hfs), factors_productOf hg hgs, factors_productOf hf hfs]

/-- The product of a term without a sign and a term is a term. -/
theorem IsTerm.multiplyRight (ha : IsTerm a) (hneg : ∀ x, a ≠ .neg x) (hb : IsTerm b) :
    IsTerm (multiplyRight a b) := by
  fun_induction Expansion.multiplyRight a b with
  | case1 b hone => exact hb
  | case2 b hone hone' => exact ha
  | case3 hone inner hone' ih => exact .neg (ih hb.of_neg)
  | case4 hone b hneg' hone' =>
    obtain ⟨gs, hg, hgs, rfl⟩ := ha.exists_productOf (Bool.eq_false_iff.mpr hone) hneg
    obtain ⟨fs, hf, hfs, rfl⟩ := hb.exists_productOf (Bool.eq_false_iff.mpr hone') hneg'
    rw [factors_productOf hg hgs, factors_productOf hf hfs]
    exact .product (List.forall_mem_append.mpr ⟨hgs, hfs⟩)

/-- The product of two terms is a term: their signs move to the front, and what is left of them are
products of factors. -/
theorem IsTerm.multiply (ha : IsTerm a) (hb : IsTerm b) : IsTerm (multiply a b) := by
  fun_induction Expansion.multiply a b with
  | case1 inner hone => exact ha
  | case2 inner hone ih => exact .neg (ih ha.of_neg)
  | case3 a hneg => exact ha.multiplyRight hneg hb

/-- The products of terms with terms are terms. -/
theorem isTerm_of_mem_distribute (hts : ∀ t ∈ ts, IsTerm t) (hus : ∀ u ∈ us, IsTerm u) :
    ∀ t ∈ distribute ts us, IsTerm t := by
  intro t ht
  obtain ⟨a, ha, ht⟩ := List.mem_flatMap.mp ht
  obtain ⟨b, hb, rfl⟩ := List.mem_map.mp ht
  exact (hts a ha).multiply (hus b hb)

/-- Multiplying out sums of terms gives a sum of terms. -/
theorem isTerm_of_mem_multiplyOut {operands : List (List Expr)}
    (h : ∀ ts ∈ operands, ∀ t ∈ ts, IsTerm t) : ∀ t ∈ multiplyOut operands, IsTerm t := by
  have hfoldl : ∀ acc : List Expr, (∀ t ∈ acc, IsTerm t) →
      ∀ t ∈ operands.foldl distribute acc, IsTerm t := by
    induction operands with
    | nil => exact fun acc hacc => hacc
    | cons ts operands ih =>
      obtain ⟨hts, hrest⟩ := List.forall_mem_cons.mp h
      exact fun acc hacc => ih hrest _ (isTerm_of_mem_distribute hacc hts)
  exact hfoldl [1] (List.forall_mem_singleton.mpr (.one rfl))

/-! ## Terms are expanded -/

/-- Factors are multiplied out to their product. -/
theorem multiplyOut_factors (h : ∀ f ∈ fs, IsFactor f) :
    multiplyOut (fs.map fun f => [f]) = [.productOf fs] := by
  have hfoldl : ∀ gs : List Expr, (∀ f ∈ gs, IsFactor f) →
      (fs.map fun f => [f]).foldl distribute [.productOf gs] = [.productOf (gs ++ fs)] := by
    induction fs with
    | nil => exact fun gs _ => by rw [List.append_nil]; rfl
    | cons f fs ih =>
      intro gs hgs
      obtain ⟨hf, hfs⟩ := List.forall_mem_cons.mp h
      have hmul : multiply (.productOf gs) (.productOf [f]) = .productOf (gs ++ [f]) :=
        multiply_productOf hgs (List.forall_mem_singleton.mpr hf)
      have hstep : distribute [.productOf gs] [f] = [.productOf (gs ++ [f])] :=
        congrArg (fun e => [e]) hmul
      rw [List.map_cons, List.foldl_cons, hstep, ih hfs, List.append_assoc, List.singleton_append]
      exact List.forall_mem_append.mpr ⟨hgs, List.forall_mem_singleton.mpr hf⟩
  exact hfoldl [] (by simp)

/-- A written product of factors expands to itself as the only term. -/
theorem expandTerms_productOf (h : ∀ f ∈ fs, IsFactor f) :
    (Expr.productOf fs).expandTerms = [.productOf fs] := by
  match fs, h with
  | [], _ => rfl
  | [f], h => exact (h f (by simp)).expandTerms_eq
  | f :: g :: fs, h =>
    have hself : Expr.expandAll (f :: g :: fs) = (f :: g :: fs).map fun f => [f] := by
      rw [Expr.expandAll_eq_map]
      exact List.map_congr_left fun e he => (h e he).expandTerms_eq
    change (Expr.product (f :: g :: fs)).expandTerms = _
    rw [Expr.expandTerms, hself, multiplyOut_factors h]

/-- A term is its own expansion. -/
theorem IsTerm.expandTerms_eq (h : IsTerm t) : t.expandTerms = [t] := by
  induction h with
  | one h => rw [Expr.expandTerms]
  | product h => exact expandTerms_productOf h
  | neg _ ih => rw [Expr.expandTerms, ih, List.map_singleton]

/-- The sum of terms has these terms. -/
theorem expandTerms_sumOf (hne : ts ≠ []) (h : ∀ t ∈ ts, IsTerm t) :
    (Expr.sumOf ts).expandTerms = ts := by
  match ts, hne, h with
  | [t], _, h => exact (h t (by simp)).expandTerms_eq
  | t :: u :: ts, _, h =>
    have hself : Expr.expandAll (t :: u :: ts) = (t :: u :: ts).map fun t => [t] := by
      rw [Expr.expandAll_eq_map]
      exact List.map_congr_left fun e he => (h e he).expandTerms_eq
    change (Expr.sum (t :: u :: ts)).expandTerms = _
    rw [Expr.expandTerms, hself, ← List.flatMap_def, List.flatMap_singleton']

/-- A written sum of terms expands to itself. -/
theorem expand_sumOf (h : ∀ t ∈ ts, IsTerm t) : (Expr.sumOf ts).expand = .sumOf ts := by
  by_cases hne : ts = []
  · subst hne
    rfl
  · rw [Expr.expand, expandTerms_sumOf hne h]

/-! ## Powers -/

/-- A power is kept when the exponent is not small or the base has no more than one term. -/
theorem powerTerms_eq_kept {x : Expr} (h : smallExponent? x = none ∨ ts.length ≤ 1) :
    powerTerms x ts [x] = [.power (.sumOf ts) x] := by
  unfold powerTerms
  dsimp only
  split
  · next n hn =>
    have hlen : ¬ 1 < ts.length := by simpa [hn] using h
    rw [if_neg hlen]
    rfl
  · rfl

/-- A power that was kept is kept again, and one that was multiplied out has terms. -/
theorem isTerm_of_mem_powerTerms (hts : ∀ t ∈ ts, IsTerm t) (n : Number) :
    ∀ t ∈ powerTerms (.number n) ts [.number n], IsTerm t := by
  by_cases h : smallExponent? (.number n) = none ∨ ts.length ≤ 1
  · have hsame : powerTerms (.number n) (Expr.sumOf ts).expandTerms [.number n] =
        [.power (.sumOf ts) (.number n)] := by
      by_cases hne : ts = []
      · subst hne
        -- No terms at all are written as zero.
        have hzero : powerTerms (.number n) [0] [.number n] = [.power (.sumOf [0]) (.number n)] :=
          powerTerms_eq_kept (.inr (le_refl 1))
        exact hzero
      · rw [expandTerms_sumOf hne hts, powerTerms_eq_kept h]
    have hfactor : IsFactor (.power (.sumOf ts) (.number n)) :=
      ⟨by rw [Expr.expandTerms, Expr.expandTerms, hsame], rfl, rfl, nofun⟩
    rw [powerTerms_eq_kept h]
    exact List.forall_mem_singleton.mpr hfactor.isTerm
  · obtain ⟨hsmall, hlen⟩ := not_or.mp h
    obtain ⟨k, hk⟩ := Option.ne_none_iff_exists'.mp hsmall
    rw [powerTerms, hk]
    dsimp only
    rw [if_pos (not_le.mp hlen)]
    exact isTerm_of_mem_multiplyOut fun us hus => List.eq_of_mem_replicate hus ▸ hts

end Expansion

/-! ## Sets -/

namespace SetExpr

/-- Replacing the points and bounds once more changes nothing if it changes none of the new ones. -/
theorem mapEntities_mapEntities {f : Expr → Expr} {s : SetExpr}
    (h : ∀ e ∈ s.entities, f (f e) = f e) : (s.mapEntities f).mapEntities f = s.mapEntities f := by
  induction s using SetExpr.entities.induct with
  | case1 => rfl
  | case2 es =>
    have hstay : ∀ e ∈ distinct (es.map f), f e = e := by
      intro e he
      obtain ⟨a, ha, rfl⟩ := List.mem_map.mp (mem_of_mem_distinct he)
      exact h a ha
    rw [mapEntities_finite, mapEntities_finite, List.map_congr_left hstay, List.map_id',
      distinct_eq_self (pairwise_distinct _)]
  | case3 l lc r rc =>
    rw [mapEntities_interval, mapEntities_interval, h l (by simp [entities]),
      h r (by simp [entities])]
  | case4 a b iha ihb =>
    obtain ⟨ha, hb⟩ := List.forall_mem_append.mp h
    rw [mapEntities_union, mapEntities_union, iha ha, ihb hb]
  | case5 a b iha ihb =>
    obtain ⟨ha, hb⟩ := List.forall_mem_append.mp h
    rw [mapEntities_intersection, mapEntities_intersection, iha ha, ihb hb]

end SetExpr

/-! ## Trees -/

namespace Expr

open Expansion

/-- The points and bounds of a set are expanded one by one. -/
theorem expandSet_eq_mapEntities (s : SetExpr) : expandSet s = s.mapEntities expand := by
  induction s using SetExpr.entities.induct with
  | case1 => rfl
  | case2 es =>
    rw [expandSet, expandAll_eq_map, List.map_map, SetExpr.mapEntities_finite]
    rfl
  | case3 l lc r rc => rfl
  | case4 a b iha ihb => rw [expandSet, iha, ihb, SetExpr.mapEntities_union]
  | case5 a b iha ihb => rw [expandSet, iha, ihb, SetExpr.mapEntities_intersection]

/-- The operands of a node are expanded one by one. -/
theorem map_sumOf_expandAll (es : List Expr) : (expandAll es).map sumOf = es.map expand := by
  rw [expandAll_eq_map, List.map_map]
  rfl

/-- Whether the exponent of every power is a number literal. -/
def hasLiteralExponents (e : Expr) : Bool :=
  e.fold fun node below =>
    (match node with
      | .power _ x => x.toNumber?.isSome
      | _ => true) && below.all id

/-- The children have literal exponents if the node has. -/
theorem hasLiteralExponents_of_mem_children {c e : Expr} (h : e.hasLiteralExponents = true)
    (hc : c ∈ e.children) : c.hasLiteralExponents = true := by
  rw [hasLiteralExponents, fold_eq, Bool.and_eq_true, List.all_map, List.all_eq_true] at h
  exact h.2 c hc

/-- The exponent of a power is one of the literal exponents. -/
theorem exists_number_of_hasLiteralExponents {b x : Expr}
    (h : (Expr.power b x).hasLiteralExponents = true) : ∃ n, x = .number n := by
  rw [hasLiteralExponents, fold_eq, Bool.and_eq_true] at h
  cases x with
  | number n => exact ⟨n, rfl⟩
  | _ => exact absurd h.1 Bool.false_ne_true

/-- The terms of an expansion have the form of terms, if all exponents are literals. -/
theorem isTerm_of_mem_expandTerms {e : Expr} (h : e.hasLiteralExponents = true) :
    ∀ t ∈ e.expandTerms, IsTerm t := by
  induction e using induction_children with
  | node e ih =>
    have hterms : ∀ c ∈ e.children, ∀ t ∈ c.expandTerms, IsTerm t := fun c hc =>
      ih c hc (hasLiteralExponents_of_mem_children h hc)
    have hexpand : ∀ c ∈ e.children,
        sumOf (sumOf c.expandTerms).expandTerms = sumOf c.expandTerms :=
      fun c hc => expand_sumOf (hterms c hc)
    cases e with
    | number n =>
      rw [expandTerms, List.forall_mem_singleton]
      by_cases hone : n.isOne = true
      · exact .one hone
      · exact IsFactor.isTerm
          ⟨by rw [expandTerms], rfl, Bool.eq_false_iff.mpr hone, fun _ => Expr.noConfusion⟩
    | var v | boolean b =>
      rw [expandTerms, List.forall_mem_singleton]
      exact IsFactor.isTerm ⟨by rw [expandTerms], rfl, rfl, fun _ => Expr.noConfusion⟩
    | sum es =>
      rw [expandTerms, expandAll_eq_map, ← List.flatMap_def]
      intro t ht
      obtain ⟨c, hc, ht⟩ := List.mem_flatMap.mp ht
      exact hterms c hc t ht
    | product es =>
      rw [expandTerms, expandAll_eq_map]
      exact isTerm_of_mem_multiplyOut (List.forall_mem_map.mpr hterms)
    | neg a =>
      rw [expandTerms]
      exact List.forall_mem_map.mpr fun t ht => .neg (hterms a (by simp [children]) t ht)
    | div a b =>
      rw [expandTerms]
      refine List.forall_mem_map.mpr fun t ht =>
        IsFactor.isTerm ⟨?_, rfl, rfl, fun _ => Expr.noConfusion⟩
      have ht : t.expandTerms = [t] := (hterms a (by simp [children]) t ht).expandTerms_eq
      change (Expr.div t (sumOf b.expandTerms)).expandTerms = _
      rw [expandTerms, ht, hexpand b (by simp [children]), List.map_singleton]
    | power b x =>
      obtain ⟨n, rfl⟩ := exists_number_of_hasLiteralExponents h
      rw [expandTerms]
      exact isTerm_of_mem_powerTerms (hterms b (by simp [children])) n
    -- The other nodes are kept, with expanded children, and so they stay the next time.
    | apply f es =>
      have hes : (es.map expand).map expand = es.map expand := by
        rw [List.map_map]
        exact List.map_congr_left hexpand
      rw [expandTerms, map_sumOf_expandAll, List.forall_mem_singleton]
      exact IsFactor.isTerm
        ⟨by rw [expandTerms, map_sumOf_expandAll, hes], rfl, rfl, fun _ => Expr.noConfusion⟩
    | not a =>
      have ha := hexpand a (by simp [children])
      rw [expandTerms, List.forall_mem_singleton]
      exact IsFactor.isTerm ⟨by rw [expandTerms, ha], rfl, rfl, fun _ => Expr.noConfusion⟩
    | and a b | or a b | compare r a b =>
      have ha := hexpand a (by simp [children])
      have hb := hexpand b (by simp [children])
      rw [expandTerms, List.forall_mem_singleton]
      exact IsFactor.isTerm ⟨by rw [expandTerms, ha, hb], rfl, rfl, fun _ => Expr.noConfusion⟩
    | set s =>
      have hs : (s.mapEntities expand).mapEntities expand = s.mapEntities expand :=
        SetExpr.mapEntities_mapEntities hexpand
      rw [expandTerms, expandSet_eq_mapEntities, List.forall_mem_singleton]
      exact IsFactor.isTerm
        ⟨by rw [expandTerms, expandSet_eq_mapEntities, hs], rfl, rfl, fun _ => Expr.noConfusion⟩
    | mem a s =>
      obtain ⟨ha, hentities⟩ := List.forall_mem_cons.mp hexpand
      have hs : (s.mapEntities expand).mapEntities expand = s.mapEntities expand :=
        SetExpr.mapEntities_mapEntities hentities
      rw [expandTerms, expandSet_eq_mapEntities, List.forall_mem_singleton]
      exact IsFactor.isTerm
        ⟨by rw [expandTerms, expandSet_eq_mapEntities, ha, hs], rfl, rfl, fun _ => Expr.noConfusion⟩

/-- An expansion is expanded already, if all exponents are literals. -/
theorem expand_expand {e : Expr} (h : e.hasLiteralExponents = true) :
    e.expand.expand = e.expand :=
  expand_sumOf (isTerm_of_mem_expandTerms h)

/-- The square is multiplied out, with its signs in front, and the two points become one. -/
theorem expand_expand_square_in_set :
    let e : Expr := .mem (.power (.sum [.var "x", .neg 1]) 2)
      (.finite [.product [2, .sum [.var "x", .var "y"]],
        .sum [.product [2, .var "x"], .product [2, .var "y"]]])
    e.hasLiteralExponents = true ∧
      e.expand = .mem
        (.sum [.product [.var "x", .var "x"], .neg (.var "x"), .neg (.var "x"), .neg (.neg 1)])
        (.finite [.sum [.product [2, .var "x"], .product [2, .var "y"]]]) ∧
      e.expand.expand = e.expand :=
  ⟨by decide, congrArg₂ Expr.mem (by rfl) (by cbv), expand_expand (by decide)⟩

/-- An exponent that is only expanded to a literal makes a second expansion go on. -/
example :
    let e : Expr := .power (.sum [.var "x", 1]) (.sum [2])
    e.expand = .power (.sum [.var "x", 1]) 2 ∧
      e.expand.expand = .sum [.product [.var "x", .var "x"], .var "x", .var "x", 1] :=
  ⟨by rfl, by rfl⟩

end Expr

end SymbolicAlgebra
