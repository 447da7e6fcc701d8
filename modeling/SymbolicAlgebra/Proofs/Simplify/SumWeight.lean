import SymbolicAlgebra.Proofs.Simplify.Folding
import SymbolicAlgebra.Proofs.Simplify.TermWeight

/-!
# Folding a sum makes it lighter

A folded sum is the sum itself or lighter, `Folding.foldSum_eqOrLighter`. It stays the same only if
there is nothing to take apart, no two terms are alike, no term is zero and a constant stands at the
end. Each of these takes some weight away, and nothing that happens on the way adds any.
-/

namespace SymbolicAlgebra

open SymbolicAlgebra.Expr

namespace Folding

variable {e : Expr} {es : List Expr} {t : Term} {ts gs : List Term} {c : Collected}

/-! ## Taking sums apart -/

/-- The terms of a sum are rational, and lighter than the sum. -/
theorem flattenSum_spec (he : e.IsRational) :
    (∀ t ∈ flattenSum e, t.IsRational) ∧ EqOrLess (total weight) (flattenSum e) [e] := by
  have hself : ∀ {e : Expr}, e.IsRational → flattenSum e = [e] →
      (∀ t ∈ flattenSum e, t.IsRational) ∧ EqOrLess (total weight) (flattenSum e) [e] := by
    intro e he heq
    exact ⟨by rw [heq]; exact List.forall_mem_singleton.mpr he, .inl heq⟩
  induction he with
  | @sum es h ih =>
    rw [flattenSum, flattenSums_eq_flatMap]
    have hle := (EqOrLess.flatMap fun e he => (ih e he).2).le
    refine ⟨fun t ht => ?_, .inr ?_⟩
    · obtain ⟨e, he, ht⟩ := List.mem_flatMap.mp ht
      exact (ih e he).1 t ht
    · rw [total_cons, weight_sum]
      omega
  | number h => exact hself (.number h) rfl
  | var v => exact hself (.var v) rfl
  | product h => exact hself (.product h) rfl
  | power hb hk => exact hself (.power hb hk) rfl
  | neg ha => exact hself (.neg ha) rfl
  | div ha hb => exact hself (.div ha hb) rfl

/-! ## Collecting like terms -/

/-- The coefficient is on its narrowest level, and no factor belongs to it. -/
structure Canonical (t : Term) : Prop where
  coefficient : ∃ q, t.coefficient = .ofRat q
  factors : ∀ f ∈ t.factors, f.IsFactor

/-- Terms read from rational expressions are canonical. -/
theorem canonical_ofExpr (he : e.IsRational) : Canonical (Term.ofExpr e) := by
  obtain ⟨r, fs, hr⟩ := he.exists_readsAs
  rw [hr.ofExpr_eq]
  exact ⟨⟨r, rfl⟩, hr.factors⟩

/-- A canonical term is written as a rational expression. -/
theorem Canonical.isRational (h : Canonical t) : t.toExpr.IsRational := by
  obtain ⟨c, fs⟩ := t
  obtain ⟨⟨q, rfl⟩, hfs⟩ := h
  exact isRational_toExpr q fun f hf => (hfs f hf).rational

/-- A term with factors. -/
structure Grouped (t : Term) : Prop extends Canonical t where
  ne_nil : t.factors ≠ []

/-- A term is put at the end, or is merged with a like one. -/
theorem addLike_spec (hgs : ∀ g ∈ gs, Grouped g) (ht : Grouped t) :
    (∀ g ∈ addLike gs t, Grouped g) ∧
      EqOrLess (total weight) ((addLike gs t).map Term.toExpr)
        (gs.map Term.toExpr ++ [t.toExpr]) := by
  induction gs with
  | nil => exact ⟨List.forall_mem_singleton.mpr ht, .inl rfl⟩
  | cons g gs ih =>
    obtain ⟨hg, hrest⟩ := List.forall_mem_cons.mp hgs
    rw [addLike]
    split_ifs with hsame
    · obtain ⟨c, fs⟩ := g
      obtain ⟨d, fs'⟩ := t
      obtain rfl : fs = fs' :=
        (sameAll_iff (fun f hf => (hg.factors f hf).rational.setFree) _).mp hsame
      obtain ⟨p, rfl⟩ : ∃ p, c = .ofRat p := hg.coefficient
      obtain ⟨q, rfl⟩ : ∃ q, d = .ofRat q := ht.coefficient
      have hadd : Number.ofRat p + .ofRat q = .ofRat (p + q) :=
        Number.add_eq (Number.toRat?_ofRat p) (Number.toRat?_ofRat q)
      -- Two like terms become one, with the sum of their coefficients.
      have hlt : (Term.toExpr ⟨.ofRat (p + q), fs⟩).weight
          < (Term.toExpr ⟨.ofRat p, fs⟩).weight + (Term.toExpr ⟨.ofRat q, fs⟩).weight :=
        weight_toExpr_add_lt p q hg.factors hg.ne_nil
      refine ⟨List.forall_mem_cons.mpr ⟨⟨⟨⟨_, hadd⟩, hg.factors⟩, hg.ne_nil⟩, hrest⟩, .inr ?_⟩
      simp only [hadd, List.map_cons, List.cons_append, total_cons, total_append, total_nil]
      omega
    · obtain ⟨hadded, hw⟩ := ih hrest
      exact ⟨List.forall_mem_cons.mpr ⟨hg, hadded⟩, hw.cons g.toExpr⟩

namespace Collected

/-- The constant is on its narrowest level, and the groups are terms with factors. -/
structure WellFormed (c : Collected) : Prop where
  constant : ∃ q, c.constant = .ofRat q
  groups : ∀ g ∈ c.groups, Grouped g

/-- The terms of a collection, those that are zero among them, but not the constant zero. -/
def allTerms (c : Collected) : List Expr :=
  c.groups.map Term.toExpr ++ if c.constant.isZero then [] else [.number c.constant]

/-- A constant is among the terms unless it is zero. -/
theorem allTerms_ofRat (p : ℚ) (gs : List Term) : allTerms ⟨.ofRat p, gs⟩ =
    gs.map Term.toExpr ++ if p = 0 then [] else [.number (.ofRat p)] := by
  simp only [allTerms, Number.isZero_iff (Number.toRat?_ofRat p)]

/-- A constant other than zero weighs three, as every literal does. -/
theorem total_allTerms_ofRat (p : ℚ) (gs : List Term) : total weight (allTerms ⟨.ofRat p, gs⟩) =
    total weight (gs.map Term.toExpr) + if p = 0 then 0 else 3 := by
  rw [allTerms_ofRat, total_append]
  split_ifs with hp
  · rfl
  · rw [total_cons, weight_number, literalWeight_ofRat, total_nil]

/-- The collection `c'` is `c` with `e` added to it: it weighs no more than both, and while there is
no constant, `e` is put at the end or adds less than its weight. -/
structure Adds (c : Collected) (e : Expr) (c' : Collected) : Prop where
  weight_le : total weight c'.allTerms ≤ total weight c.allTerms + e.weight
  put : c.constant = .ofRat 0 → EqOrLess (total weight) c'.allTerms (c.allTerms ++ [e])

/-- Adding a number to the constant weighs no more than writing both. -/
theorem adds_constant (p q : ℚ) (gs : List Term) :
    Adds ⟨.ofRat p, gs⟩ (.number (.ofRat q)) ⟨.ofRat (p + q), gs⟩ where
  weight_le := by
    rw [total_allTerms_ofRat, total_allTerms_ofRat, weight_number, literalWeight_ofRat]
    split_ifs <;> omega
  put hzero := by
    obtain rfl : p = 0 := Number.ofRat_injective hzero
    rw [zero_add]
    by_cases hq : q = 0
    · subst hq
      refine .inr ?_
      rw [total_append, total_cons, weight_number, literalWeight_ofRat]
      omega
    · rw [allTerms_ofRat, allTerms_ofRat, if_neg hq, if_pos rfl, List.append_nil]
      exact .refl _

/-- Adding a term with factors weighs no more than writing it at the end. -/
theorem adds_grouped (p : ℚ) (hgs : ∀ g ∈ gs, Grouped g) (ht : Grouped t) :
    Adds ⟨.ofRat p, gs⟩ t.toExpr ⟨.ofRat p, addLike gs t⟩ where
  weight_le := by
    have hle := (addLike_spec hgs ht).2.le
    rw [total_append, total_cons, total_nil] at hle
    rw [total_allTerms_ofRat, total_allTerms_ofRat]
    omega
  put hzero := by
    obtain rfl : p = 0 := Number.ofRat_injective hzero
    rw [allTerms_ofRat, allTerms_ofRat, if_pos rfl, List.append_nil, List.append_nil]
    exact (addLike_spec hgs ht).2

/-- Collecting a term adds it. -/
theorem WellFormed.add (hc : c.WellFormed) (ht : Canonical t) :
    (c.add t).WellFormed ∧ Adds c t.toExpr (c.add t) := by
  obtain ⟨n, gs⟩ := c
  obtain ⟨⟨p, rfl⟩, hgs⟩ : (∃ p, n = .ofRat p) ∧ ∀ g ∈ gs, Grouped g :=
    ⟨hc.constant, hc.groups⟩
  by_cases hnil : t.factors = []
  · obtain ⟨d, fs⟩ := t
    obtain rfl : fs = [] := hnil
    obtain ⟨q, rfl⟩ : ∃ q, d = .ofRat q := ht.coefficient
    have hadd : Collected.add ⟨.ofRat p, gs⟩ ⟨.ofRat q, []⟩ = ⟨.ofRat (p + q), gs⟩ := by
      rw [← Number.add_eq (Number.toRat?_ofRat p) (Number.toRat?_ofRat q)]
      rfl
    rw [hadd, toExpr_ofRat, if_pos (.inl rfl)]
    exact ⟨⟨⟨_, rfl⟩, hgs⟩, adds_constant p q gs⟩
  · have hadd : Collected.add ⟨.ofRat p, gs⟩ t = ⟨.ofRat p, addLike gs t⟩ := by
      rw [Collected.add, if_neg (by simpa using hnil)]
    have ht : Grouped t := ⟨ht, hnil⟩
    rw [hadd]
    exact ⟨⟨⟨p, rfl⟩, (addLike_spec hgs ht).1⟩, adds_grouped p hgs ht⟩

/-- The terms of a list are collected one after the other. They keep their order if a constant is
found in no place but the last. -/
theorem WellFormed.foldl_add (hc : c.WellFormed) (hts : ∀ t ∈ ts, Canonical t) :
    (ts.foldl Collected.add c).WellFormed ∧
      total weight (ts.foldl Collected.add c).allTerms
        ≤ total weight c.allTerms + total weight (ts.map Term.toExpr) ∧
      (c.constant = .ofRat 0 → (∀ t ∈ ts.dropLast, t.factors ≠ []) →
        EqOrLess (total weight) (ts.foldl Collected.add c).allTerms
          (c.allTerms ++ ts.map Term.toExpr)) := by
  induction ts generalizing c with
  | nil => exact ⟨hc, le_rfl, fun _ _ => .inl (List.append_nil _).symm⟩
  | cons t ts ih =>
    obtain ⟨ht, hts⟩ := List.forall_mem_cons.mp hts
    obtain ⟨hadded, hle, hput⟩ := hc.add ht
    obtain ⟨hwf, hle', hput'⟩ := ih hadded hts
    rw [List.foldl_cons]
    refine ⟨hwf, ?_, fun hzero hlast => ?_⟩
    · rw [List.map_cons, total_cons]
      omega
    -- A constant can only come last, so there is none before the later terms.
    · cases ts with
      | nil => exact hput hzero
      | cons s ts =>
        rw [List.dropLast_cons_cons] at hlast
        obtain ⟨hne, hlast⟩ := List.forall_mem_cons.mp hlast
        have hconstant : (c.add t).constant = .ofRat 0 := by
          rw [Collected.add, if_neg (by simpa using hne)]
          exact hzero
        have happend := (hput hzero).append (.refl ((s :: ts).map Term.toExpr))
        rw [List.append_assoc] at happend
        exact (hput' hconstant hlast).trans happend

end Collected

/-! ## Writing the sum -/

/-- Terms that are zero are left out. -/
theorem map_filter_eqOrLess (hgs : ∀ g ∈ gs, Grouped g) (p : Term → Bool) :
    EqOrLess (total weight) ((gs.filter p).map Term.toExpr) (gs.map Term.toExpr) := by
  induction gs with
  | nil => exact .refl _
  | cons g gs ih =>
    obtain ⟨hg, hgs⟩ := List.forall_mem_cons.mp hgs
    rw [List.filter_cons]
    split_ifs
    · exact (ih hgs).cons g.toExpr
    · have hthree := hg.isRational.three_le_weight
      refine (ih hgs).trans (.inr ?_)
      rw [List.map_cons, total_cons]
      omega

/-- The terms that are written down are rational, and a constant is the last of them. -/
theorem Collected.WellFormed.toTerms (hc : c.WellFormed) :
    (∀ e ∈ c.toTerms, e.IsRational) ∧ (∀ e ∈ c.toTerms.dropLast, e.isLiteral = false) ∧
      EqOrLess (total weight) c.toTerms c.allTerms := by
  obtain ⟨p, hp⟩ := hc.constant
  have hgroups : ∀ e ∈ (c.groups.filter fun t => !t.coefficient.isZero).map Term.toExpr,
      e.IsRational ∧ e.isLiteral = false := by
    intro e he
    obtain ⟨⟨d, fs⟩, hg, rfl⟩ := List.mem_map.mp he
    obtain ⟨hg, hzero⟩ := List.mem_filter.mp hg
    obtain ⟨⟨⟨q, rfl⟩, hfs⟩, hne⟩ := hc.groups _ hg
    have hq : q ≠ 0 := by
      rw [Ne, ← Number.isZero_iff (Number.toRat?_ofRat q)]
      simpa using hzero
    exact ⟨isRational_toExpr q fun f hf => (hfs f hf).rational, isLiteral_toExpr hq hfs hne⟩
  have hlast := (map_filter_eqOrLess hc.groups fun t => !t.coefficient.isZero).append
    (.refl (if c.constant.isZero then [] else [.number c.constant]))
  refine ⟨fun e he => ?_, fun e he => ?_, hlast⟩
  · rcases List.mem_append.mp he with he | he
    · exact (hgroups e he).1
    · split_ifs at he
      · exact absurd he (List.not_mem_nil)
      · rw [List.mem_singleton.mp he, hp]
        exact .number (Number.toRat?_ofRat p)
  · refine (hgroups e ?_).2
    rw [Collected.toTerms] at he
    split_ifs at he
    · rw [List.append_nil] at he
      exact List.dropLast_subset _ he
    · rwa [List.dropLast_concat] at he

/-- Fewer than two terms are not written as a sum, and lighter than one. -/
theorem sumOf_spec (hes : ∀ e ∈ es, e.IsRational) : (sumOf es).IsRational ∧
    (sumOf es = .sum es ∨ (sumOf es).weight + 1 < 9 + total weight es) := by
  match es, hes with
  | [], _ => exact ⟨.number (q := 0) rfl, .inr (by decide)⟩
  | [e], hes => exact ⟨hes e (by simp), .inr (by simp only [sumOf, total_cons, total_nil]; omega)⟩
  | _ :: _ :: _, hes => exact ⟨.sum hes, .inl rfl⟩

/-- The expressions are written for the terms: a constant comes last, and none weighs more than its
term. Where no constant stands before another term, the order is the one of the terms. -/
structure Written (ts : List Term) (es : List Expr) : Prop where
  rational : ∀ e ∈ es, e.IsRational
  literal : ∀ e ∈ es.dropLast, e.isLiteral = false
  weight_le : total weight es ≤ total weight (ts.map Term.toExpr)
  eqOrLess : (∀ t ∈ ts.dropLast, t.factors ≠ []) →
    EqOrLess (total weight) es (ts.map Term.toExpr)

/-- What is collected from canonical terms is written for them. -/
theorem written_collect (hts : ∀ t ∈ ts, Canonical t) : Written ts (collect ts).toTerms := by
  have hempty : Collected.WellFormed ⟨0, []⟩ := ⟨⟨0, rfl⟩, by simp⟩
  obtain ⟨hwf, hle, hput⟩ := hempty.foldl_add hts
  obtain ⟨hrational, hliteral, hzeros⟩ := hwf.toTerms
  refine ⟨hrational, hliteral, ?_, fun h => hzeros.trans (hput rfl h)⟩
  have hnil : total weight (Collected.allTerms ⟨0, []⟩) = 0 := rfl
  rw [hnil, zero_add] at hle
  exact hzeros.le.trans hle

/-- What is written for the terms of the operands are these operands, or it makes a lighter sum. -/
theorem Written.sum_eqOrLess {es' : List Expr} (hw : Written ts es')
    (hread : EqOrLess (total weight) (ts.map Term.toExpr) es) :
    EqOrLess (fun es => weight (.sum es)) es' es := by
  by_cases hsame : es' = es
  · exact .inl hsame
  right
  have hle := hw.weight_le
  simp only [weight_sum, total_toNat_eq_zero_iff.mpr hw.literal, add_zero]
  rcases hread with rfl | hread
  · by_cases hpenalty : ∀ e ∈ (ts.map Term.toExpr).dropLast, e.isLiteral = false
    · -- Constants stand at the end already, so that only merged and left out terms matter.
      have hput := hw.eqOrLess fun t ht hnil => by
        rw [← List.map_dropLast] at hpenalty
        have := hpenalty _ (List.mem_map_of_mem ht)
        simp [Term.toExpr, hnil, isLiteral, toNumber?] at this
      have := hput.resolve_left hsame
      omega
    · have := mt total_toNat_eq_zero_iff.mp hpenalty
      omega
  · omega

/-- The folded sum is rational, and the same or lighter. -/
theorem foldSum_eqOrLighter (he : e.IsRational) :
    (foldSum e).IsRational ∧ EqOrLighter (foldSum e) e := by
  cases he with
  | @sum es hes =>
    have hflat : ∀ t ∈ flattenSums es, t.IsRational := by
      intro t ht
      rw [flattenSums_eq_flatMap] at ht
      obtain ⟨e, he, ht⟩ := List.mem_flatMap.mp ht
      exact (flattenSum_spec (hes e he)).1 t ht
    -- Reading the terms and writing them again costs nothing, even if none is merged.
    have hread : EqOrLess (total weight)
        (((flattenSums es).map Term.ofExpr).map Term.toExpr) es := by
      rw [List.map_map]
      refine (EqOrLess.map fun e he => toExpr_ofExpr (hflat e he)).trans ?_
      rw [flattenSums_eq_flatMap]
      exact .flatMap fun e he => (flattenSum_spec (hes e he)).2
    have hwritten : Written ((flattenSums es).map Term.ofExpr)
        (collect ((flattenSums es).map Term.ofExpr)).toTerms :=
      written_collect (List.forall_mem_map.mpr fun e he => canonical_ofExpr (hflat e he))
    obtain ⟨hsum, hone⟩ := sumOf_spec hwritten.rational
    have hw := hwritten.sum_eqOrLess hread
    refine ⟨hsum, ?_⟩
    rw [foldSum, collectSum, flattenSum]
    rcases hone with hone | hone
    · rw [hone]
      rcases hw with hw | hw
      · exact .inl (by rw [hw])
      · exact .of_weight_lt hw rfl rfl
    -- With fewer than two terms no sum is written, which saves the node.
    · have hle := hw.le
      rw [weight_sum] at hle
      exact .inr (.of_succ_lt (by omega))
  | number h => exact ⟨.number h, .refl _⟩
  | var v => exact ⟨.var v, .refl _⟩
  | product h => exact ⟨.product h, .refl _⟩
  | power hb hk => exact ⟨.power hb hk, .refl _⟩
  | neg ha => exact ⟨.neg ha, .refl _⟩
  | div ha hb => exact ⟨.div ha hb, .refl _⟩

end Folding

end SymbolicAlgebra
