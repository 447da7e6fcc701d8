import Mathlib.Data.List.Find
import SymbolicAlgebra.Proofs.Simplify.Folding
import SymbolicAlgebra.Proofs.Simplify.TermForm

/-!
# Like terms

Folding a sum takes the sums among its operands apart, reads what is left as terms, and collects the
terms with the same factors. `Folding.Collects` says what has to come out: one term for each list of
factors whose coefficients do not add up to zero, in the order in which the lists occur first, and
the constant behind them. `Folding.foldSum_collects` says that it does.

The collection is known in closed form. After the terms `ts` have been put into it, it has a group
for each list of `FirstOccurrences ts`, with the sum of the coefficients that stand beside this list
in `ts`, `Folding.exists_collect_eq`.

Lists of factors are compared by structural equality, so that the factors have to be well-formed.
The products of two lists are the same just if the lists are, `Expr.same_productOf_eq`: a table of
groups may have either as its keys.
-/

namespace SymbolicAlgebra

/-! ## Lists of factors -/

namespace Expr

variable {as bs : List Expr}

/-- Lists of well-formed expressions are the same if they are the same as the same lists. -/
theorem sameAll_iff_eq (has : ∀ a ∈ as, a.WellFormed) :
    sameAll as bs = true ↔ sameAll as = sameAll bs := by
  constructor
  · intro h
    funext cs
    exact sameAll_congr (fun a ha => (has a ha).congruent) h cs
  · intro h
    rw [h]
    exact sameAll_refl bs

/-- Being the same up to the order of points is symmetric for lists of factors. -/
theorem sameAll_comm (has : ∀ a ∈ as, a.WellFormed) (hbs : ∀ b ∈ bs, b.WellFormed) :
    sameAll as bs = sameAll bs as := by
  rw [Bool.eq_iff_iff, sameAll_iff_eq has, sameAll_iff_eq hbs, eq_comm]

/-- No factors are not the same as some. -/
theorem sameAll_nil_left (h : as ≠ []) : sameAll [] as = false := by
  cases as with
  | nil => exact absurd rfl h
  | cons a as => simp [sameAll]

/-- Some factors are not the same as none. -/
theorem sameAll_nil_right (h : as ≠ []) : sameAll as [] = false := by
  cases as with
  | nil => exact absurd rfl h
  | cons a as => simp [sameAll]

/-- No single factor is a product, so that lists of factors are told apart by their products. -/
theorem same_productOf_eq (has : ∀ a ∈ as, a.isTermFactor = true)
    (hbs : ∀ b ∈ bs, b.isTermFactor = true) (ha : as ≠ []) (hb : bs ≠ []) :
    same (productOf as) (productOf bs) = sameAll as bs := by
  match as, bs, ha, hb with
  | [a], [b], _, _ => simp [productOf, sameAll]
  | [a], b :: b' :: bs, _, _ =>
    have ha := has a (List.mem_singleton_self a)
    cases a <;> simp_all [productOf, sameAll, same, isTermFactor]
  | a :: a' :: as, [b], _, _ =>
    have hb := hbs b (List.mem_singleton_self b)
    cases b <;> simp_all [productOf, sameAll, same, isTermFactor]
  | a :: a' :: as, b :: b' :: bs, _, _ => simp [productOf, same]

end Expr

namespace Folding

open SymbolicAlgebra.Expr

variable {t : Term} {ts gs : List Term} {fs hs : List Expr} {ks : List (List Expr)} {q : ℚ}

/-- The terms of a sum, the sums among them taken apart. -/
def flatTerms (e : Expr) : List Term := (flattenSum e).map Term.ofExpr

/-- The sum of the coefficients that stand beside the list of factors. In the terms of a sum with
exact literals all coefficients have a value. -/
def coefficientSum (ts : List Term) (fs : List Expr) : ℚ :=
  ((ts.filter fun t => sameAll t.factors fs).map fun t => t.coefficient.toRat?.getD 0).sum

/-- The place of the first term with these factors. -/
def firstIndex (ts : List Term) (fs : List Expr) : ℕ := ts.findIdx fun t => sameAll t.factors fs

/-- The factors of this term, as they are written there. -/
def firstFactors? (ts : List Term) (fs : List Expr) : Option (List Expr) :=
  (ts.find? fun t => sameAll t.factors fs).map Term.factors

/-- The terms `out` are the terms `ts` with like terms collected. -/
structure Collects (ts out : List Term) : Prop where
  /-- No term is zero. -/
  ne_zero : ∀ t ∈ out, t.coefficient ≠ 0
  /-- No two terms have the same factors. -/
  distinct : out.Pairwise fun s t => sameAll s.factors t.factors = false
  /-- A coefficient is the sum of those that stand beside the same factors. -/
  coefficient : ∀ t ∈ out, ∀ fs, sameAll t.factors fs = true →
    t.coefficient = .ofRat (coefficientSum ts fs)
  /-- Factors are left out just if their coefficients add up to zero. -/
  exists_iff : ∀ fs, (∃ t ∈ out, sameAll t.factors fs = true) ↔ coefficientSum ts fs ≠ 0
  /-- Factors are written as they are at their first occurrence. -/
  first : ∀ t ∈ out, t.factors ≠ [] → firstFactors? ts t.factors = some t.factors
  /-- The terms stand in the order of the first occurrences of their factors, a constant at the
  end. -/
  ordered : out.Pairwise fun s t =>
    s.factors ≠ [] ∧ (t.factors = [] ∨ firstIndex ts s.factors < firstIndex ts t.factors)

/-- A term as it is read from a well-formed expression with exact literals. -/
structure Collectable (t : Term) : Prop where
  coefficient : ∃ q, t.coefficient = .ofRat q
  factors : ∀ f ∈ t.factors, f.isTermFactor = true
  wellFormed : ∀ f ∈ t.factors, f.WellFormed

/-! ## Sums of coefficients -/

/-- Which terms are like depends on the factors up to sameness only. -/
theorem like_congr (ht : Collectable t) (h : sameAll fs = sameAll hs) :
    sameAll t.factors fs = sameAll t.factors hs := by
  rw [Bool.eq_iff_iff, sameAll_iff_eq ht.wellFormed, sameAll_iff_eq ht.wellFormed, h]

/-- Factors that are the same have the same sum of coefficients. -/
theorem coefficientSum_congr (hts : ∀ t ∈ ts, Collectable t) (h : sameAll fs = sameAll hs) :
    coefficientSum ts fs = coefficientSum ts hs := by
  have hfilter : ts.filter (fun t => sameAll t.factors fs) =
      ts.filter (fun t => sameAll t.factors hs) :=
    List.filter_congr fun t ht => like_congr (hts t ht) h
  rw [coefficientSum, hfilter, coefficientSum]

/-- Factors that are the same occur first in the same term. -/
theorem firstFactors?_congr (hts : ∀ t ∈ ts, Collectable t) (h : sameAll fs = sameAll hs) :
    firstFactors? ts fs = firstFactors? ts hs :=
  congrArg (Option.map Term.factors) (List.find?_congr fun t ht => like_congr (hts t ht) h)

/-- A further term adds its coefficient to the sum for like factors, and to no other one. -/
theorem coefficientSum_concat (hq : t.coefficient = .ofRat q) (fs : List Expr) :
    coefficientSum (ts ++ [t]) fs =
      coefficientSum ts fs + if sameAll t.factors fs then q else 0 := by
  rw [coefficientSum, List.filter_append, List.map_append, List.sum_append, ← coefficientSum,
    List.filter_cons, List.filter_nil]
  split_ifs with h
  · rw [List.map_singleton, List.sum_singleton, hq, Number.toRat?_ofRat, Option.getD_some]
  · rw [List.map_nil, List.sum_nil]

/-- Factors that no term has add up to zero. -/
theorem coefficientSum_eq_zero (h : ∀ t ∈ ts, sameAll t.factors fs = false) :
    coefficientSum ts fs = 0 := by
  have hnil : ts.filter (fun t => sameAll t.factors fs) = [] :=
    List.filter_eq_nil_iff.mpr fun t ht => Bool.eq_false_iff.mp (h t ht)
  rw [coefficientSum, hnil, List.map_nil, List.sum_nil]

/-! ## First occurrences -/

/-- The lists of factors that occur in the terms, each where it occurs first. -/
structure FirstOccurrences (ts : List Term) (ks : List (List Expr)) : Prop where
  ne_nil : ∀ fs ∈ ks, fs ≠ []
  first : ∀ fs ∈ ks, firstFactors? ts fs = some fs
  complete : ∀ t ∈ ts, t.factors ≠ [] → ∃ fs ∈ ks, sameAll fs t.factors = true
  ordered : ks.Pairwise fun fs hs => firstIndex ts fs < firstIndex ts hs

/-- The factors that are listed are those of a term. -/
theorem FirstOccurrences.exists_mem (h : FirstOccurrences ts ks) (hfs : fs ∈ ks) :
    ∃ t ∈ ts, t.factors = fs := by
  obtain ⟨t, ht, rfl⟩ := Option.map_eq_some_iff.mp (h.first fs hfs)
  exact ⟨t, List.mem_of_find?_eq_some ht, rfl⟩

/-- The factors that are listed are built properly, since they come from terms. -/
theorem FirstOccurrences.wellFormed (h : FirstOccurrences ts ks) (hts : ∀ t ∈ ts, Collectable t)
    (hfs : fs ∈ ks) : ∀ f ∈ fs, f.WellFormed := by
  obtain ⟨t, ht, rfl⟩ := h.exists_mem hfs
  exact (hts t ht).wellFormed

/-- Factors that are listed are the same as others exactly if they are like the same terms. -/
theorem FirstOccurrences.same_iff (h : FirstOccurrences ts ks) (hts : ∀ t ∈ ts, Collectable t)
    (hfs : fs ∈ ks) : sameAll fs hs = true ↔ sameAll fs = sameAll hs :=
  sameAll_iff_eq (h.wellFormed hts hfs)

/-- Lists that are the same are listed once. -/
theorem FirstOccurrences.eq_of_same (h : FirstOccurrences ts ks) (hts : ∀ t ∈ ts, Collectable t)
    (hfs : fs ∈ ks) (hhs : hs ∈ ks) (hsame : sameAll fs hs = true) : fs = hs := by
  have hfirst := firstFactors?_congr hts ((h.same_iff hts hfs).mp hsame)
  rw [h.first fs hfs, h.first hs hhs] at hfirst
  exact Option.some.inj hfirst

/-- Factors are like one entry of the list at most. -/
theorem FirstOccurrences.pairwise_like (h : FirstOccurrences ts ks)
    (hts : ∀ t ∈ ts, Collectable t) (cs : List Expr) :
    ks.Pairwise fun fs hs => sameAll fs cs = true → sameAll hs cs = false := by
  refine h.ordered.imp_of_mem fun {fs hs} hfs hhs hlt hsame => ?_
  by_contra hsame'
  rw [Bool.not_eq_false, h.same_iff hts hhs] at hsame'
  rw [h.same_iff hts hfs, ← hsame', ← h.same_iff hts hfs] at hsame
  rw [h.eq_of_same hts hfs hhs hsame] at hlt
  exact lt_irrefl _ hlt

/-- Factors that are not listed stand in no term. -/
theorem FirstOccurrences.not_like (h : FirstOccurrences ts ks) (hts : ∀ t ∈ ts, Collectable t)
    (hne : hs ≠ []) (hnone : ∀ fs ∈ ks, sameAll fs hs = false) :
    ∀ t ∈ ts, sameAll t.factors hs = false := by
  intro t ht
  by_contra hlike
  rw [Bool.not_eq_false] at hlike
  have hne' : t.factors ≠ [] := by
    intro hnil
    rw [hnil, sameAll_nil_left hne] at hlike
    exact Bool.noConfusion hlike
  obtain ⟨fs, hfs, hsame⟩ := h.complete t ht hne'
  rw [← (h.same_iff hts hfs).mp hsame, hnone fs hfs] at hlike
  exact Bool.noConfusion hlike

/-- Another term changes no first occurrence. -/
theorem FirstOccurrences.concat (h : FirstOccurrences ts ks) (t : Term) :
    (∀ fs ∈ ks, firstFactors? (ts ++ [t]) fs = some fs) ∧
      (∀ fs ∈ ks, firstIndex (ts ++ [t]) fs = firstIndex ts fs ∧ firstIndex ts fs < ts.length) := by
  refine ⟨fun fs hfs => ?_, fun fs hfs => ?_⟩
  · obtain ⟨s, hs, hfactors⟩ := Option.map_eq_some_iff.mp (h.first fs hfs)
    rw [firstFactors?, List.find?_append, hs, Option.some_or, Option.map_some, hfactors]
  · obtain ⟨s, hs, hfactors⟩ := h.exists_mem hfs
    have hlt : firstIndex ts fs < ts.length :=
      List.findIdx_lt_length_of_exists ⟨s, hs, hfactors ▸ sameAll_refl fs⟩
    refine ⟨?_, hlt⟩
    rw [firstIndex, List.findIdx_append]
    exact if_pos hlt

/-- A constant and a like term bring in no factors. -/
theorem FirstOccurrences.keep (h : FirstOccurrences ts ks)
    (ht : t.factors ≠ [] → ∃ fs ∈ ks, sameAll fs t.factors = true) :
    FirstOccurrences (ts ++ [t]) ks where
  ne_nil := h.ne_nil
  first := (h.concat t).1
  complete s hs hne := by
    rcases List.mem_append.mp hs with hs | hs
    · exact h.complete s hs hne
    · rw [List.mem_singleton.mp hs] at hne ⊢
      exact ht hne
  ordered := h.ordered.imp_of_mem fun {fs hs} hfs hhs hlt => by
    rw [((h.concat t).2 fs hfs).1, ((h.concat t).2 hs hhs).1]
    exact hlt

/-- New factors are listed behind the others. -/
theorem FirstOccurrences.push (h : FirstOccurrences ts ks) (hts : ∀ t ∈ ts, Collectable t)
    (hne : t.factors ≠ []) (hnone : ∀ fs ∈ ks, sameAll fs t.factors = false) :
    FirstOccurrences (ts ++ [t]) (ks ++ [t.factors]) where
  ne_nil := List.forall_mem_append.mpr ⟨h.ne_nil, List.forall_mem_singleton.mpr hne⟩
  first := by
    have hnew : ts.find? (fun s => sameAll s.factors t.factors) = none :=
      List.find?_eq_none.mpr fun s hs => Bool.eq_false_iff.mp (h.not_like hts hne hnone s hs)
    refine List.forall_mem_append.mpr ⟨(h.concat t).1, List.forall_mem_singleton.mpr ?_⟩
    have hfound : [t].find? (fun s => sameAll s.factors t.factors) = some t :=
      List.find?_cons_of_pos (sameAll_refl t.factors)
    rw [firstFactors?, List.find?_append, hnew, Option.none_or, hfound, Option.map_some]
  complete s hs hne := by
    rcases List.mem_append.mp hs with hs | hs
    · obtain ⟨fs, hfs, hsame⟩ := h.complete s hs hne
      exact ⟨fs, List.mem_append_left _ hfs, hsame⟩
    · rw [List.mem_singleton.mp hs]
      exact ⟨t.factors, List.mem_append_right _ (List.mem_singleton_self _), sameAll_refl _⟩
  ordered := by
    have hlast : firstIndex (ts ++ [t]) t.factors = ts.length := by
      have hlength : ts.findIdx (fun s => sameAll s.factors t.factors) = ts.length :=
        List.findIdx_eq_length_of_false (h.not_like hts hne hnone)
      have hhead : [t].findIdx (fun s => sameAll s.factors t.factors) = 0 := by
        rw [List.findIdx_cons, sameAll_refl, cond_true]
      rw [firstIndex, List.findIdx_append, if_neg (not_lt.mpr hlength.ge), hhead, zero_add]
    refine List.pairwise_append.mpr ⟨?_, List.pairwise_singleton _ _, fun fs hfs hs hhs => ?_⟩
    · refine h.ordered.imp_of_mem fun {fs hs} hfs hhs hlt => ?_
      rw [((h.concat t).2 fs hfs).1, ((h.concat t).2 hs hhs).1]
      exact hlt
    · obtain ⟨heq, hlt⟩ := (h.concat t).2 fs hfs
      rw [List.mem_singleton.mp hhs, hlast, heq]
      exact hlt

/-! ## Collecting -/

/-- The terms with these factors, added up. -/
def likeSum (ts : List Term) (fs : List Expr) : Term := ⟨.ofRat (coefficientSum ts fs), fs⟩

/-- A further like term adds to the coefficient. -/
theorem likeSum_concat_of_like (hq : t.coefficient = .ofRat q) (h : sameAll t.factors fs = true) :
    likeSum (ts ++ [t]) fs = ⟨.ofRat (coefficientSum ts fs) + t.coefficient, fs⟩ := by
  rw [likeSum, coefficientSum_concat hq, if_pos h, hq,
    Number.add_eq (Number.toRat?_ofRat _) (Number.toRat?_ofRat q)]

/-- A further term that is not like changes nothing. -/
theorem likeSum_concat_of_not_like (hq : t.coefficient = .ofRat q)
    (h : sameAll t.factors fs = false) : likeSum (ts ++ [t]) fs = likeSum ts fs := by
  rw [likeSum, coefficientSum_concat hq, if_neg (Bool.eq_false_iff.mp h), add_zero, likeSum]

/-- A term that is like no group becomes the last one. -/
theorem addLike_of_not_like (h : ∀ g ∈ gs, sameAll g.factors t.factors = false) :
    addLike gs t = gs ++ [t] := by
  induction gs with
  | nil => rfl
  | cons g gs ih =>
    obtain ⟨hg, hgs⟩ := List.forall_mem_cons.mp h
    rw [addLike, if_neg (Bool.eq_false_iff.mp hg), ih hgs, List.cons_append]

/-- A term goes into the one group with its factors. -/
theorem addLike_map_likeSum (hq : t.coefficient = .ofRat q)
    (hcomm : ∀ fs ∈ ks, sameAll t.factors fs = sameAll fs t.factors)
    (hone : ks.Pairwise fun fs hs => sameAll fs t.factors = true → sameAll hs t.factors = false)
    (hlike : ∃ fs ∈ ks, sameAll fs t.factors = true) :
    addLike (ks.map (likeSum ts)) t = ks.map (likeSum (ts ++ [t])) := by
  induction ks with
  | nil => simp at hlike
  | cons fs ks ih =>
    obtain ⟨hfs, hcomm⟩ := List.forall_mem_cons.mp hcomm
    obtain ⟨hrest, hone⟩ := List.pairwise_cons.mp hone
    rw [List.map_cons, addLike, List.map_cons]
    split_ifs with hsame
    · have hstay : ks.map (likeSum (ts ++ [t])) = ks.map (likeSum ts) :=
        List.map_congr_left fun hs hhs =>
          likeSum_concat_of_not_like hq ((hcomm hs hhs).trans (hrest hs hhs hsame))
      rw [likeSum_concat_of_like hq (hfs.trans hsame), hstay]
      rfl
    · have hnot : sameAll fs t.factors = false := Bool.eq_false_iff.mpr hsame
      have hlike : ∃ fs ∈ ks, sameAll fs t.factors = true := by
        obtain ⟨hs, hhs, h⟩ := hlike
        exact ⟨hs, (List.mem_cons.mp hhs).resolve_left fun heq => hsame (heq ▸ h), h⟩
      rw [ih hcomm hone hlike, likeSum_concat_of_not_like hq (hfs.trans hnot)]

/-- The collection of the terms `ts`, with a group for each of the listed factors. -/
def collected (ts : List Term) (ks : List (List Expr)) : Collected :=
  ⟨.ofRat (coefficientSum ts []), ks.map (likeSum ts)⟩

/-- Adding a term to a collection is to collect one term more. -/
theorem FirstOccurrences.exists_add (h : FirstOccurrences ts ks) (hts : ∀ t ∈ ts, Collectable t)
    (ht : Collectable t) :
    ∃ ks', FirstOccurrences (ts ++ [t]) ks' ∧
      (collected ts ks).add t = collected (ts ++ [t]) ks' := by
  obtain ⟨q, hq⟩ := ht.coefficient
  have hcomm : ∀ fs ∈ ks, sameAll t.factors fs = sameAll fs t.factors :=
    fun fs hfs => sameAll_comm ht.wellFormed (h.wellFormed hts hfs)
  by_cases hnil : t.factors = []
  · -- A constant is added to the constant, and stands in no group.
    have hconstant : likeSum (ts ++ [t]) [] = ⟨.ofRat (coefficientSum ts []) + t.coefficient, []⟩ :=
      likeSum_concat_of_like hq (by rw [hnil, sameAll_refl])
    have hstay : ks.map (likeSum (ts ++ [t])) = ks.map (likeSum ts) :=
      List.map_congr_left fun fs hfs =>
        likeSum_concat_of_not_like hq (by rw [hnil, sameAll_nil_left (h.ne_nil fs hfs)])
    refine ⟨ks, h.keep fun hne => absurd hnil hne, ?_⟩
    rw [Collected.add, if_pos (List.isEmpty_iff.mpr hnil), collected, collected, hstay]
    exact congrArg (Collected.mk · _) (congrArg Term.coefficient hconstant).symm
  · have hconstant : likeSum (ts ++ [t]) [] = likeSum ts [] :=
      likeSum_concat_of_not_like hq (sameAll_nil_right hnil)
    have hadd : (collected ts ks).add t =
        ⟨.ofRat (coefficientSum (ts ++ [t]) []), addLike (ks.map (likeSum ts)) t⟩ := by
      rw [Collected.add, if_neg (mt List.isEmpty_iff.mp hnil)]
      exact congrArg (Collected.mk · _) (congrArg Term.coefficient hconstant).symm
    rw [hadd]
    by_cases hlike : ∃ fs ∈ ks, sameAll fs t.factors = true
    · have hgroups : addLike (ks.map (likeSum ts)) t = ks.map (likeSum (ts ++ [t])) :=
        addLike_map_likeSum hq hcomm (h.pairwise_like hts t.factors) hlike
      exact ⟨ks, h.keep fun _ => hlike, congrArg _ hgroups⟩
    · have hnone : ∀ fs ∈ ks, sameAll fs t.factors = false :=
        fun fs hfs => Bool.eq_false_iff.mpr fun hsame => hlike ⟨fs, hfs, hsame⟩
      have hstay : ks.map (likeSum (ts ++ [t])) = ks.map (likeSum ts) :=
        List.map_congr_left fun fs hfs =>
          likeSum_concat_of_not_like hq ((hcomm fs hfs).trans (hnone fs hfs))
      have hnew : likeSum (ts ++ [t]) t.factors = t := by
        rw [likeSum, coefficientSum_concat hq, coefficientSum_eq_zero (h.not_like hts hnil hnone),
          if_pos (sameAll_refl _), zero_add, ← hq]
      refine ⟨ks ++ [t.factors], h.push hts hnil hnone, congrArg _ ?_⟩
      rw [addLike_of_not_like (List.forall_mem_map.mpr hnone), List.map_append, hstay,
        List.map_singleton, hnew]

/-- Collecting terms gives a group for each list of factors in them, with the sum of its
coefficients. -/
theorem exists_collect_eq (hts : ∀ t ∈ ts, Collectable t) :
    ∃ ks, FirstOccurrences ts ks ∧ collect ts = collected ts ks := by
  induction ts using List.reverseRecOn with
  | nil =>
    have hnil : FirstOccurrences [] [] := ⟨by simp, by simp, by simp, .nil⟩
    exact ⟨[], hnil, rfl⟩
  | append_singleton ts t ih =>
    obtain ⟨hts, ht⟩ := List.forall_mem_append.mp hts
    obtain ⟨ks, hks, hcollect⟩ := ih hts
    obtain ⟨ks', hks', hadd⟩ := hks.exists_add hts (ht t (List.mem_singleton_self t))
    refine ⟨ks', hks', ?_⟩
    rw [collect, List.foldl_append, ← collect, hcollect]
    exact hadd

/-! ## The terms that are written -/

/-- The number of a rational is zero if the rational is. -/
theorem isZero_ofRat (q : ℚ) : (Number.ofRat q).isZero = decide (q = 0) := by
  rw [Bool.eq_iff_iff, Number.isZero_iff (Number.toRat?_ofRat q), decide_eq_true_eq]

/-- The factors of the terms that are written; the constant has none. -/
def writtenFactors (ts : List Term) (ks : List (List Expr)) : List (List Expr) :=
  (ks ++ [[]]).filter fun fs => coefficientSum ts fs ≠ 0

/-- A collection is written as the sums of like terms that are not zero. -/
theorem toTerms_collected (ts : List Term) (ks : List (List Expr)) :
    (collected ts ks).toTerms = ((writtenFactors ts ks).map (likeSum ts)).map Term.toExpr := by
  have hgroups : (ks.map (likeSum ts)).filter (fun t => !t.coefficient.isZero) =
      (ks.filter fun fs => coefficientSum ts fs ≠ 0).map (likeSum ts) := by
    rw [List.filter_map]
    congr 1
    refine List.filter_congr fun fs _ => ?_
    simp [likeSum, isZero_ofRat]
  rw [Collected.toTerms, writtenFactors, List.filter_append, List.map_append, List.map_append,
    collected, hgroups]
  congr 1
  by_cases hzero : coefficientSum ts [] = 0
  · simp [hzero, isZero_ofRat]
  · simp [hzero, isZero_ofRat, likeSum, Term.toExpr]

/-- Factors are written if they occur, or are none, and if their coefficients do not add up to
zero. -/
theorem mem_writtenFactors :
    fs ∈ writtenFactors ts ks ↔ (fs ∈ ks ∨ fs = []) ∧ coefficientSum ts fs ≠ 0 := by
  rw [writtenFactors, List.mem_filter, List.mem_append, List.mem_singleton, decide_eq_true_eq]

namespace FirstOccurrences

/-- All factors that are written stand in some of the terms. -/
theorem forall_mem_written {P : Expr → Prop} (h : FirstOccurrences ts ks)
    (hP : ∀ t ∈ ts, ∀ f ∈ t.factors, P f) (hfs : fs ∈ writtenFactors ts ks) : ∀ f ∈ fs, P f := by
  rcases (mem_writtenFactors.mp hfs).1 with hfs | rfl
  · obtain ⟨t, ht, rfl⟩ := h.exists_mem hfs
    exact hP t ht
  · exact List.forall_mem_nil P

/-- The terms are read as they have been written. -/
theorem ofExpr_toExpr_likeSum (h : FirstOccurrences ts ks) (hts : ∀ t ∈ ts, Collectable t)
    (hfs : fs ∈ writtenFactors ts ks) : Term.ofExpr (likeSum ts fs).toExpr = likeSum ts fs :=
  Term.ofExpr_toExpr (h.forall_mem_written (fun t ht => (hts t ht).factors) hfs)
    (.inl (mem_writtenFactors.mp hfs).2)

/-- The sum for factors that are written is the sum for the same factors. -/
theorem coefficientSum_eq_of_same (h : FirstOccurrences ts ks) (hts : ∀ t ∈ ts, Collectable t)
    (hfs : fs ∈ writtenFactors ts ks) (hsame : sameAll fs hs = true) :
    coefficientSum ts fs = coefficientSum ts hs := by
  have hwf := h.forall_mem_written (fun t ht => (hts t ht).wellFormed) hfs
  exact coefficientSum_congr hts ((sameAll_iff_eq hwf).mp hsame)

/-- Factors whose coefficients do not add up to zero are written. -/
theorem exists_mem_written (h : FirstOccurrences ts ks) (hts : ∀ t ∈ ts, Collectable t)
    (hsum : coefficientSum ts hs ≠ 0) : ∃ fs ∈ writtenFactors ts ks, sameAll fs hs = true := by
  by_cases hnil : hs = []
  · exact ⟨[], mem_writtenFactors.mpr ⟨.inr rfl, hnil ▸ hsum⟩, by rw [hnil, sameAll_refl]⟩
  · obtain ⟨fs, hfs, hsame⟩ : ∃ fs ∈ ks, sameAll fs hs = true := by
      by_contra hnone
      refine hsum (coefficientSum_eq_zero (h.not_like hts hnil fun fs hfs => ?_))
      exact Bool.eq_false_iff.mpr fun hsame => hnone ⟨fs, hfs, hsame⟩
    refine ⟨fs, mem_writtenFactors.mpr ⟨.inl hfs, ?_⟩, hsame⟩
    rw [coefficientSum_congr hts ((h.same_iff hts hfs).mp hsame)]
    exact hsum

/-- Factors are written in the order in which they occur first, and those of the constant come
last. -/
theorem ordered_written (h : FirstOccurrences ts ks) : (writtenFactors ts ks).Pairwise fun fs hs =>
    fs ≠ [] ∧ (hs = [] ∨ firstIndex ts fs < firstIndex ts hs) := by
  refine List.Pairwise.filter _ (List.pairwise_append.mpr ⟨?_, List.pairwise_singleton _ _, ?_⟩)
  · exact h.ordered.imp_of_mem fun hfs _ hlt => ⟨h.ne_nil _ hfs, .inr hlt⟩
  · exact fun fs hfs hs hhs => ⟨h.ne_nil fs hfs, .inl (List.mem_singleton.mp hhs)⟩

/-- The sums that are written have what is asked of a collected sum. -/
theorem collects (h : FirstOccurrences ts ks) (hts : ∀ t ∈ ts, Collectable t) :
    Collects ts ((writtenFactors ts ks).map (likeSum ts)) where
  ne_zero := by
    refine List.forall_mem_map.mpr fun fs hfs hzero => (mem_writtenFactors.mp hfs).2 ?_
    exact Number.ofRat_injective (hzero.trans Number.zero_eq_ofRat)
  distinct := by
    rw [List.pairwise_map]
    refine h.ordered_written.imp_of_mem fun {fs hs} hfs hhs ⟨hne, hlt⟩ => ?_
    -- Only the constant has no factors, and it comes last.
    by_cases hnil : hs = []
    · exact hnil ▸ sameAll_nil_right hne
    · refine Bool.eq_false_iff.mpr fun hsame => ?_
      have hfs : fs ∈ ks := (mem_writtenFactors.mp hfs).1.resolve_right hne
      have hhs : hs ∈ ks := (mem_writtenFactors.mp hhs).1.resolve_right hnil
      -- Like factors are listed once, so these would have to come before themselves.
      rw [h.eq_of_same hts hfs hhs hsame] at hlt
      exact lt_irrefl _ (hlt.resolve_left hnil)
  coefficient := by
    refine List.forall_mem_map.mpr fun fs hfs hs hsame => ?_
    exact congrArg Number.ofRat (h.coefficientSum_eq_of_same hts hfs hsame)
  exists_iff hs := by
    constructor
    · rintro ⟨t, ht, hsame⟩
      obtain ⟨fs, hfs, rfl⟩ := List.mem_map.mp ht
      rw [← h.coefficientSum_eq_of_same hts hfs hsame]
      exact (mem_writtenFactors.mp hfs).2
    · intro hsum
      obtain ⟨fs, hfs, hsame⟩ := h.exists_mem_written hts hsum
      exact ⟨likeSum ts fs, List.mem_map_of_mem hfs, hsame⟩
  first := by
    refine List.forall_mem_map.mpr fun fs hfs hne => ?_
    exact h.first fs ((mem_writtenFactors.mp hfs).1.resolve_right hne)
  ordered := by
    rw [List.pairwise_map]
    exact h.ordered_written

end FirstOccurrences

/-! ## Folding a sum -/

/-- Sums are taken apart into parts of the expression. -/
theorem occurs_of_mem_flattenSum {e : Expr} : ∀ a ∈ flattenSum e, a.Occurs e := by
  induction e using Expr.induction_children with
  | node e ih =>
    cases e with
    | sum es =>
      intro a ha
      rw [flattenSum, flattenSums_eq_flatMap] at ha
      obtain ⟨c, hc, ha⟩ := List.mem_flatMap.mp ha
      exact .operand hc (ih c hc a ha)
    | _ => exact List.forall_mem_singleton.mpr .self

/-- The terms of a well-formed sum with exact literals can be collected. -/
theorem collectable_of_mem_flatTerms {e : Expr} (hwf : e.WellFormed) (he : e.HasExactLiterals) :
    ∀ t ∈ flatTerms e, Collectable t := by
  refine List.forall_mem_map.mpr fun a ha => ?_
  have hocc := occurs_of_mem_flattenSum a ha
  have hread := Term.readFrom_ofExpr (he.of_occurs hocc)
  exact ⟨hread.coefficient, fun f hf => (hread.factors f hf).1,
    fun f hf => (hwf.of_occurs hocc).of_occurs (hread.factors f hf).2⟩

/-- Folding a sum collects its like terms. -/
theorem foldSum_collects {es : List Expr} (hwf : (Expr.sum es).WellFormed)
    (hexact : (Expr.sum es).HasExactLiterals) :
    foldSum (.sum es) = .sumOf (collect (flatTerms (.sum es))).toTerms ∧
      (∀ e ∈ (collect (flatTerms (.sum es))).toTerms, (Term.ofExpr e).toExpr = e) ∧
      Collects (flatTerms (.sum es)) ((collect (flatTerms (.sum es))).toTerms.map Term.ofExpr) := by
  have hts := collectable_of_mem_flatTerms hwf hexact
  obtain ⟨ks, hks, hcollect⟩ := exists_collect_eq hts
  have hread : ∀ fs ∈ writtenFactors (flatTerms (.sum es)) ks,
      Term.ofExpr (likeSum (flatTerms (.sum es)) fs).toExpr = likeSum (flatTerms (.sum es)) fs :=
    fun fs hfs => hks.ofExpr_toExpr_likeSum hts hfs
  rw [hcollect, toTerms_collected]
  refine ⟨?_, ?_, ?_⟩
  · rw [foldSum, collectSum, ← flatTerms, hcollect, toTerms_collected]
  · refine List.forall_mem_map.mpr (List.forall_mem_map.mpr fun fs hfs => ?_)
    rw [hread fs hfs]
  · rw [List.map_map, List.map_map]
    have hmap := List.map_congr_left hread
    exact (hmap ▸ hks.collects hts :)

/-- In `x + (y + x + 3) + -y` the variable `x` is collected out of the inner sum, and `y` is left
out. -/
theorem foldSum_collects_nested_sum :
    foldSum (.sum [.var "x", .sum [.var "y", .var "x", 3], .neg (.var "y")]) =
        .sum [.product [2, .var "x"], 3] ∧
      Collects (flatTerms (.sum [.var "x", .sum [.var "y", .var "x", 3], .neg (.var "y")]))
        [⟨2, [.var "x"]⟩, ⟨3, []⟩] := by
  have hinner : (Expr.sum [.var "y", .var "x", 3]).IsField fun _ => True :=
    .sum (by simpa using ⟨.var "y", .var "x", .number rfl⟩)
  have hfield : (Expr.sum [.var "x", .sum [.var "y", .var "x", 3], .neg (.var "y")]).IsField
      fun _ => True :=
    .sum (by simpa using ⟨.var "x", hinner, .neg (.var "y")⟩)
  obtain ⟨hfold, -, hcollects⟩ := foldSum_collects hfield.wellFormed hfield.hasExactLiterals
  have hterms : (collect (flatTerms
      (.sum [.var "x", .sum [.var "y", .var "x", 3], .neg (.var "y")]))).toTerms =
        [.product [2, .var "x"], 3] := by
    cbv
  rw [hterms] at hfold hcollects
  have hread : [Expr.product [2, .var "x"], 3].map Term.ofExpr = [⟨2, [.var "x"]⟩, ⟨3, []⟩] := by
    cbv
  exact ⟨hfold, hread ▸ hcollects⟩

end Folding

end SymbolicAlgebra
