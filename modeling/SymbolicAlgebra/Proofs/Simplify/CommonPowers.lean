import Mathlib.Algebra.BigOperators.Finsupp.Basic
import Mathlib.Data.Finsupp.Basic
import Mathlib.Tactic.NormNum
import SymbolicAlgebra.Proofs.Simplify.Term
import SymbolicAlgebra.Simplify.Content

/-!
# Common powers

The common powers of a sum are those powers of the first term whose base all other terms have too,
each with the least exponent that the base has first in a term. They are put in front of the sum, and
what they take out of a term is left out of its powers. Three views of a term have to agree here: the
list of its powers, the first power with a given base, and the powers less the common ones.

All three are read off one list, `exponentsOf`, the exponents of a base in their order:

* looking up a base gives the head of the list, `exponentIn?_eq`;
* the least exponent is the least of such heads, `leastExponent?_eq_some`;
* the common powers have the least exponents of the list of the first term,
  `exponentsOf_commonPowers`;
* the powers that are left have the list less what is taken out,
  `taken_add_totalExponent_leftPowers`.

A term that has a base once is split by its common powers. A base may stand in a term more than once,
though, since products are not merged before, and then the views need not agree: from `x * x + x * y`
the square of `x` is put in front, but only `x` is taken out of `x * y`. `SharesAlike` is the
condition on the exponents under which they do, `SharesAlike.totalExponent_eq`. It holds if no shared
base is repeated, `sharesAlike_of_merged`, and for terms of variables it is exact,
`sharesAlike_iff_forall_value_eq`.
-/

namespace SymbolicAlgebra

namespace Content

variable {ρ : Assignment} {ps qs common : List (Expr × ℤ)} {base : Expr} {k l m : ℤ} {ks : List ℤ}
  {first t : PowerTerm} {rest ts : List PowerTerm}

/-! ## Exponents of a base -/

/-- The exponents that the base has in the powers, in their order. -/
def exponentsOf (ps : List (Expr × ℤ)) (base : Expr) : List ℤ :=
  (ps.filter fun p => p.1 == base).map Prod.snd

/-- The sum of the exponents of a base. -/
def totalExponent (ps : List (Expr × ℤ)) (base : Expr) : ℤ := (exponentsOf ps base).sum

/-- The bases have values, and the exponents are positive. -/
def PowersDefined (ρ : Assignment) (ps : List (Expr × ℤ)) : Prop :=
  ∀ p ∈ ps, p.1.Defined ρ ∧ 0 < p.2

theorem powersDefined_cons {p : Expr × ℤ} :
    PowersDefined ρ (p :: ps) ↔ (p.1.Defined ρ ∧ 0 < p.2) ∧ PowersDefined ρ ps :=
  List.forall_mem_cons

theorem powersDefined_append (hp : PowersDefined ρ ps) (hq : PowersDefined ρ qs) :
    PowersDefined ρ (ps ++ qs) :=
  List.forall_mem_append.mpr ⟨hp, hq⟩

/-- Looking up a base finds the first of its exponents. -/
theorem exponentIn?_eq (ps : List (Expr × ℤ)) (base : Expr) :
    exponentIn? ps base = (exponentsOf ps base).head? := by
  rw [exponentIn?, exponentsOf, List.head?_map, List.head?_filter]

/-- The powers of a base without sets are found by equality. -/
theorem exponentsOf_cons {b : Expr} (hd : b.Defined ρ) (k : ℤ) (ps : List (Expr × ℤ)) (base : Expr)
    [Decidable (b = base)] :
    exponentsOf ((b, k) :: ps) base =
      if b = base then k :: exponentsOf ps base else exponentsOf ps base := by
  have hsame : (b == base) = true ↔ b = base := hd.setFree.beq_iff base
  rw [exponentsOf, List.filter_cons]
  by_cases hb : b = base
  · rw [if_pos (hsame.mpr hb), if_pos hb, List.map_cons, exponentsOf]
  · rw [if_neg (fun h => hb (hsame.mp h)), if_neg hb, exponentsOf]

theorem totalExponent_cons {b : Expr} (hd : b.Defined ρ) (k : ℤ) (ps : List (Expr × ℤ))
    (base : Expr) [Decidable (b = base)] :
    totalExponent ((b, k) :: ps) base = (if b = base then k else 0) + totalExponent ps base := by
  rw [totalExponent, exponentsOf_cons hd, totalExponent]
  split_ifs
  · rw [List.sum_cons]
  · rw [zero_add]

theorem totalExponent_append (ps qs : List (Expr × ℤ)) (base : Expr) :
    totalExponent (ps ++ qs) base = totalExponent ps base + totalExponent qs base := by
  simp only [totalExponent, exponentsOf, List.filter_append, List.map_append, List.sum_append]

/-- An exponent of a base belongs to a power with this base. -/
theorem mem_of_mem_exponentsOf (hps : PowersDefined ρ ps) (hk : k ∈ exponentsOf ps base) :
    (base, k) ∈ ps := by
  obtain ⟨⟨b, j⟩, hfound, rfl⟩ := List.mem_map.mp hk
  obtain ⟨hp, hb⟩ := List.mem_filter.mp hfound
  obtain rfl : b = base := ((hps _ hp).1.setFree.beq_iff base).mp hb
  exact hp

/-- A power gives its base an exponent. -/
theorem exponentsOf_ne_nil {p : Expr × ℤ} (hp : p ∈ ps) : exponentsOf ps p.1 ≠ [] :=
  List.ne_nil_of_mem (List.mem_map_of_mem (List.mem_filter.mpr ⟨hp, Expr.same_refl p.1⟩))

/-- A base that is listed has a first exponent, the one that is looked up. -/
theorem exists_head_exponentsOf {p : Expr × ℤ} (hp : p ∈ ps) :
    ∃ k, (exponentsOf ps p.1).head? = some k :=
  Option.isSome_iff_exists.mp (List.isSome_head?.mpr (exponentsOf_ne_nil hp))

/-- Changing and leaving out exponents leaves no other bases. -/
theorem exists_of_mem_filterMap (f : Expr → ℤ → Option ℤ) {p : Expr × ℤ}
    (hp : p ∈ ps.filterMap fun p => (f p.1 p.2).map fun k => (p.1, k)) :
    ∃ q ∈ ps, q.1 = p.1 ∧ f q.1 q.2 = some p.2 := by
  obtain ⟨q, hq, hp⟩ := List.mem_filterMap.mp hp
  obtain ⟨k, hk, rfl⟩ := Option.map_eq_some_iff.mp hp
  exact ⟨q, hq, rfl, hk⟩

/-- Changing and leaving out exponents of each base does so in its list. -/
theorem exponentsOf_filterMap (hps : PowersDefined ρ ps) (f : Expr → ℤ → Option ℤ) (base : Expr) :
    exponentsOf (ps.filterMap fun p => (f p.1 p.2).map fun k => (p.1, k)) base =
      (exponentsOf ps base).filterMap (f base) := by
  classical
  induction ps with
  | nil => rfl
  | cons p ps ih =>
    obtain ⟨b, k⟩ := p
    obtain ⟨⟨hd, -⟩, hps⟩ := powersDefined_cons.mp hps
    have hd : b.Defined ρ := hd
    rw [List.filterMap_cons, exponentsOf_cons hd]
    cases hf : f b k with
    | none =>
      rw [Option.map_none, ih hps]
      split_ifs with hb
      · rw [List.filterMap_cons_none (hb ▸ hf)]
      · rfl
    | some l =>
      rw [Option.map_some]
      dsimp only
      rw [exponentsOf_cons hd, ih hps]
      split_ifs with hb
      · rw [List.filterMap_cons_some (hb ▸ hf)]
      · rfl

/-! ## Products of powers -/

/-- The product of the powers. -/
def powersValue (ρ : Assignment) (ps : List (Expr × ℤ)) : ℚ :=
  (ps.map fun p => p.1.value ρ ^ p.2).prod

/-- The exponents as a function of the base. -/
noncomputable def exponents (ps : List (Expr × ℤ)) : Expr →₀ ℕ :=
  (ps.map fun p => Finsupp.single p.1 p.2.toNat).sum

theorem powersValue_append (ps qs : List (Expr × ℤ)) :
    powersValue ρ (ps ++ qs) = powersValue ρ ps * powersValue ρ qs := by
  rw [powersValue, List.map_append, List.prod_append]
  rfl

/-- Where all exponents are positive, the finitely supported exponents lose no sign. -/
theorem exponents_apply (hps : PowersDefined ρ ps) (base : Expr) :
    (exponents ps base : ℤ) = totalExponent ps base := by
  classical
  induction ps with
  | nil => rfl
  | cons p ps ih =>
    obtain ⟨⟨hd, hk⟩, hrest⟩ := powersDefined_cons.mp hps
    obtain ⟨b, k⟩ := p
    rw [exponents, List.map_cons, List.sum_cons, Finsupp.add_apply, Nat.cast_add,
      totalExponent_cons hd, ← ih hrest, Finsupp.single_apply]
    split_ifs
    · rw [Int.toNat_of_nonneg hk.le]
      rfl
    · rfl

/-- The product of powers as a product over their bases. -/
theorem powersValue_eq_prod (hps : PowersDefined ρ ps) :
    powersValue ρ ps = (exponents ps).prod fun b k => b.value ρ ^ k := by
  classical
  induction ps with
  | nil => exact Finsupp.prod_zero_index.symm
  | cons p ps ih =>
    obtain ⟨⟨-, hk⟩, hrest⟩ := powersDefined_cons.mp hps
    have hpow : p.1.value ρ ^ p.2 = p.1.value ρ ^ p.2.toNat := by
      rw [← zpow_natCast, Int.toNat_of_nonneg hk.le]
    have hsingle : (Finsupp.single p.1 p.2.toNat).prod (fun b k => b.value ρ ^ k)
        = p.1.value ρ ^ p.2.toNat := Finsupp.prod_single_index (pow_zero _)
    have hadd : (exponents (p :: ps)).prod (fun b k => b.value ρ ^ k)
        = (Finsupp.single p.1 p.2.toNat).prod (fun b k => b.value ρ ^ k)
          * (exponents ps).prod (fun b k => b.value ρ ^ k) :=
      Finsupp.prod_add_index' (fun b => pow_zero _) (fun b k l => pow_add _ k l)
    rw [hadd, hsingle, ← ih hrest, ← hpow, powersValue, List.map_cons, List.prod_cons, powersValue]

/-- The product of powers depends on the total exponent of each base. -/
theorem powersValue_eq_of_totalExponent_eq (hps : PowersDefined ρ ps) (hqs : PowersDefined ρ qs)
    (h : ∀ b, totalExponent ps b = totalExponent qs b) : powersValue ρ ps = powersValue ρ qs := by
  have hexp : exponents ps = exponents qs := by
    ext b
    have hb := h b
    rw [← exponents_apply hps, ← exponents_apply hqs] at hb
    exact Int.ofNat_inj.mp hb
  rw [powersValue_eq_prod hps, powersValue_eq_prod hqs, hexp]

/-! ## Least exponents -/

/-- There is no least exponent if a term does not have the base. -/
theorem leastExponent?_eq_none_iff :
    leastExponent? base k ts = none ↔ ∃ t ∈ ts, exponentsOf t.powers base = [] := by
  induction ts generalizing k with
  | nil => simp [leastExponent?]
  | cons t ts ih =>
    rw [leastExponent?, exponentIn?_eq, List.exists_mem_cons_iff]
    cases hhead : (exponentsOf t.powers base).head? with
    | none => simp [List.head?_eq_none_iff.mp hhead]
    | some other =>
      have hne : exponentsOf t.powers base ≠ [] := by
        intro hnil
        simp [hnil] at hhead
      rw [or_iff_right hne]
      exact ih

/-- The least exponent is at most the given one and all that the base has first in a term, and it is
one of them. -/
theorem leastExponent?_eq_some (h : leastExponent? base k ts = some l) :
    (l ≤ k ∧ ∀ t ∈ ts, ∃ j, (exponentsOf t.powers base).head? = some j ∧ l ≤ j) ∧
      (l = k ∨ ∃ t ∈ ts, (exponentsOf t.powers base).head? = some l) := by
  induction ts generalizing k with
  | nil =>
    obtain rfl : k = l := Option.some.inj h
    exact ⟨⟨le_rfl, List.forall_mem_nil _⟩, .inl rfl⟩
  | cons t ts ih =>
    rw [leastExponent?, exponentIn?_eq] at h
    cases hhead : (exponentsOf t.powers base).head? with
    | none => simp [hhead] at h
    | some j =>
      simp only [hhead] at h
      obtain ⟨⟨hle, hall⟩, hattained⟩ := ih h
      -- The rest starts from the lesser of the two.
      have hmin : (if j < k then j else k) ≤ k ∧ (if j < k then j else k) ≤ j := by
        split_ifs <;> omega
      refine ⟨⟨hle.trans hmin.1, List.forall_mem_cons.mpr ⟨⟨j, hhead, hle.trans hmin.2⟩, hall⟩⟩, ?_⟩
      rcases hattained with heq | ⟨t', ht', hl⟩
      · split_ifs at heq with hlt
        · exact .inr ⟨t, List.mem_cons_self, heq ▸ hhead⟩
        · exact .inl heq
      · exact .inr ⟨t', List.mem_cons_of_mem _ ht', hl⟩

/-- Where all terms have the base, there is a least exponent. -/
theorem exists_leastExponent? (hall : ∀ t ∈ ts, exponentsOf t.powers base ≠ []) (k : ℤ) :
    ∃ l, leastExponent? base k ts = some l := by
  refine Option.ne_none_iff_exists'.mp fun hnone => ?_
  obtain ⟨t, ht, hnil⟩ := leastExponent?_eq_none_iff.mp hnone
  exact hall t ht hnil

/-- A bound of the first exponents, cut at the given one, bounds the least exponent. -/
theorem min_le_leastExponent?
    (hheads : ∀ t ∈ ts, ∃ j, (exponentsOf t.powers base).head? = some j ∧ m ≤ j)
    (h : leastExponent? base k ts = some l) : min m k ≤ l := by
  rcases (leastExponent?_eq_some h).2 with rfl | ⟨t, ht, hl⟩
  · exact min_le_right m l
  · obtain ⟨j, hj, hmj⟩ := hheads t ht
    obtain rfl : l = j := Option.some.inj (hl.symm.trans hj)
    exact (min_le_left m k).trans hmj

/-- The least of positive exponents is positive. -/
theorem leastExponent?_pos (hts : ∀ t ∈ ts, PowersDefined ρ t.powers) (hk : 0 < k)
    (h : leastExponent? base k ts = some l) : 0 < l := by
  rcases (leastExponent?_eq_some h).2 with rfl | ⟨t, ht, hl⟩
  · exact hk
  · exact (hts t ht _ (mem_of_mem_exponentsOf (hts t ht) (List.mem_of_head? hl))).2

/-! ## Powers in front -/

/-- The common powers, read as a filter on the powers of the first term. -/
theorem commonPowers_eq (first : PowerTerm) (rest : List PowerTerm) :
    commonPowers first rest =
      first.powers.filterMap fun p => (leastExponent? p.1 p.2 rest).map fun k => (p.1, k) := rfl

/-- The common powers have bases of the first term and positive exponents. -/
theorem powersDefined_commonPowers (hfirst : PowersDefined ρ first.powers)
    (hrest : ∀ t ∈ rest, PowersDefined ρ t.powers) :
    PowersDefined ρ (commonPowers first rest) := by
  intro p hp
  rw [commonPowers_eq] at hp
  obtain ⟨q, hq, hbase, hleast⟩ := exists_of_mem_filterMap (leastExponent? · · rest) hp
  exact ⟨hbase ▸ (hfirst q hq).1, leastExponent?_pos hrest (hfirst q hq).2 hleast⟩

/-- The common powers of a base have the least exponents for those of the first term. -/
theorem exponentsOf_commonPowers (hfirst : PowersDefined ρ first.powers) (rest : List PowerTerm)
    (base : Expr) :
    exponentsOf (commonPowers first rest) base =
      (exponentsOf first.powers base).filterMap fun k => leastExponent? base k rest :=
  exponentsOf_filterMap hfirst (fun b k => leastExponent? b k rest) base

/-- A base that a term does not have is not put in front. -/
theorem exponentsOf_commonPowers_eq_nil (hfirst : PowersDefined ρ first.powers)
    (h : ∃ t ∈ first :: rest, exponentsOf t.powers base = []) :
    exponentsOf (commonPowers first rest) base = [] := by
  rw [exponentsOf_commonPowers hfirst, List.filterMap_eq_nil_iff]
  intro k hk
  obtain ⟨t, ht, hnil⟩ := h
  rcases List.mem_cons.mp ht with rfl | ht
  · simp [hnil] at hk
  · exact leastExponent?_eq_none_iff.mpr ⟨t, ht, hnil⟩

/-! ## Powers that are left -/

/-- The exponent that is left of an exponent of a base, if it is positive. -/
def leftExponent (common : List (Expr × ℤ)) (base : Expr) (k : ℤ) : Option ℤ :=
  let left := k - (exponentIn? common base).getD 0
  if 0 < left then some left else none

/-- The powers of a term that are left when common powers are taken out. -/
def leftPowers (common ps : List (Expr × ℤ)) : List (Expr × ℤ) :=
  ps.filterMap fun p => (leftExponent common p.1 p.2).map fun k => (p.1, k)

/-- The cofactor is written from the powers that are left. -/
theorem cofactor_eq (content : Option ℚ) (common : List (Expr × ℤ)) (t : PowerTerm) :
    cofactor content common t = Term.toExpr
      ⟨content.elim t.coefficient fun c => t.coefficient / .ofRat c,
        (leftPowers common t.powers).map toFactor⟩ := by
  have hfactors : (leftPowers common t.powers).map toFactor =
      t.powers.filterMap fun p => (leftExponent common p.1 p.2).map fun k => toFactor (p.1, k) := by
    rw [leftPowers, List.map_filterMap]
    exact List.filterMap_congr fun p _ => Option.map_map ..
  rw [hfactors]
  refine congrArg₂ (fun c fs => Term.toExpr ⟨c, fs⟩) ?_ (List.filterMap_congr fun p _ => ?_)
  · cases content <;> rfl
  · dsimp only [leftExponent]
    cases exponentIn? common p.1 with
    | none =>
      rw [Option.getD_none, sub_zero]
      split_ifs <;> rfl
    | some least =>
      rw [Option.getD_some]
      split_ifs <;> rfl

/-- The powers that are left have bases of the term and positive exponents. -/
theorem PowersDefined.leftPowers (hps : PowersDefined ρ ps) (common : List (Expr × ℤ)) :
    PowersDefined ρ (leftPowers common ps) := by
  intro p hp
  obtain ⟨q, hq, hbase, hk⟩ := exists_of_mem_filterMap (leftExponent common) hp
  rw [leftExponent] at hk
  split_ifs at hk with hpos
  exact ⟨hbase ▸ (hps q hq).1, Option.some.inj hk ▸ hpos⟩

/-- What is taken out of powers with these exponents, when each gives at most `m`. -/
def taken (m : ℤ) (ks : List ℤ) : ℤ := (ks.map (min m)).sum

theorem taken_cons (m k : ℤ) (ks : List ℤ) : taken m (k :: ks) = min m k + taken m ks := by
  rw [taken, List.map_cons, List.sum_cons, taken]

/-- Nothing is taken out of positive exponents when there is nothing to take. -/
theorem taken_zero (h : ∀ k ∈ ks, 0 < k) : taken 0 ks = 0 := by
  induction ks with
  | nil => rfl
  | cons k ks ih =>
    obtain ⟨hk, hks⟩ := List.forall_mem_cons.mp h
    rw [taken_cons, ih hks, min_eq_left hk.le, add_zero]

/-- What is taken out and what is left add up. -/
theorem taken_add_sum_leftExponent (common : List (Expr × ℤ)) (base : Expr) (ks : List ℤ) :
    taken ((exponentIn? common base).getD 0) ks + (ks.filterMap (leftExponent common base)).sum
      = ks.sum := by
  induction ks with
  | nil => rfl
  | cons k ks ih =>
    rw [taken_cons, List.filterMap_cons, leftExponent, List.sum_cons, ← ih]
    split_ifs with hpos
    · rw [List.sum_cons]
      omega
    · dsimp only
      omega

/-- A base loses what the first of the common powers takes out of each of its powers. -/
theorem taken_add_totalExponent_leftPowers (hps : PowersDefined ρ ps) (common : List (Expr × ℤ))
    (base : Expr) :
    taken ((exponentIn? common base).getD 0) (exponentsOf ps base)
      + totalExponent (leftPowers common ps) base = totalExponent ps base := by
  rw [totalExponent, leftPowers, exponentsOf_filterMap hps]
  exact taken_add_sum_leftExponent common base (exponentsOf ps base)

/-! ## Terms that share alike -/

/-- All terms have the base, and those that are not zero lose as much of it as is put in front. Here
`m` is the least of the exponents that the base has first in a term. -/
structure SplitsAt (first : PowerTerm) (rest : List PowerTerm) (base : Expr) (m : ℤ) : Prop where
  /-- No term has the base with a lesser exponent first. -/
  le_head : ∀ t ∈ first :: rest, ∃ k, (exponentsOf t.powers base).head? = some k ∧ m ≤ k
  /-- Another term bounds what is put in front, or the first term has no exponent above its first
  one. -/
  bounds : (∃ t ∈ rest, (exponentsOf t.powers base).head? = some m) ∨
    (exponentsOf first.powers base).head? = some m ∧ ∀ k ∈ exponentsOf first.powers base, k ≤ m
  /-- As much is taken out of each term as of the first one. -/
  taken_eq : ∀ t ∈ rest, t.coefficient.isZero = false →
    taken m (exponentsOf t.powers base) = taken m (exponentsOf first.powers base)

/-- Each base of the first term is missing in another one, or splits. -/
def SharesAlike : List PowerTerm → Prop
  | [] => True
  | first :: rest => ∀ p ∈ first.powers,
    (∃ t ∈ rest, exponentsOf t.powers p.1 = []) ∨ ∃ m, SplitsAt first rest p.1 m

/-- The least exponent of a base that splits is an exponent, cut at `m`. -/
theorem SplitsAt.leastExponent?_eq (h : SplitsAt first rest base m)
    (hk : k ∈ exponentsOf first.powers base) : leastExponent? base k rest = some (min m k) := by
  have hheads := (List.forall_mem_cons.mp h.le_head).2
  have hall : ∀ t ∈ rest, exponentsOf t.powers base ≠ [] := by
    intro t ht hnil
    obtain ⟨j, hj, -⟩ := hheads t ht
    simp [hnil] at hj
  obtain ⟨l, hl⟩ := exists_leastExponent? hall k
  obtain ⟨⟨hle, hleast⟩, -⟩ := leastExponent?_eq_some hl
  have hupper : l ≤ min m k := by
    rcases h.bounds with ⟨t, ht, hhead⟩ | ⟨-, hmax⟩
    · obtain ⟨j, hj, hlj⟩ := hleast t ht
      obtain rfl : m = j := Option.some.inj (hhead.symm.trans hj)
      exact le_min hlj hle
    · exact le_min (hle.trans (hmax k hk)) hle
  rw [hl, le_antisymm hupper (min_le_leastExponent? hheads hl)]

/-- In front a base that splits has the exponents of the first term, cut at `m`. -/
theorem SplitsAt.exponentsOf_commonPowers (h : SplitsAt first rest base m)
    (hfirst : PowersDefined ρ first.powers) :
    exponentsOf (commonPowers first rest) base = (exponentsOf first.powers base).map (min m) := by
  rw [Content.exponentsOf_commonPowers hfirst, ← List.filterMap_eq_map]
  exact List.filterMap_congr fun k hk => h.leastExponent?_eq hk

/-- For a base that splits, what is put in front and what is left add up to each term. -/
theorem SplitsAt.totalExponent_eq (h : SplitsAt first rest base m)
    (hdefined : ∀ t ∈ first :: rest, PowersDefined ρ t.powers) (ht : t ∈ first :: rest)
    (hz : t.coefficient.isZero = false) :
    totalExponent (commonPowers first rest) base
      + totalExponent (leftPowers (commonPowers first rest) t.powers) base
      = totalExponent t.powers base := by
  have hcommon := h.exponentsOf_commonPowers (hdefined first List.mem_cons_self)
  -- The first exponent in front is the least of all, since no other is cut below it.
  have hhead : (exponentIn? (commonPowers first rest) base).getD 0 = m := by
    obtain ⟨k, hk, hmk⟩ := h.le_head first List.mem_cons_self
    rw [exponentIn?_eq, hcommon, List.head?_map, hk, Option.map_some, Option.getD_some,
      min_eq_left hmk]
  have htaken : taken m (exponentsOf t.powers base) = taken m (exponentsOf first.powers base) := by
    rcases List.mem_cons.mp ht with rfl | ht
    · rfl
    · exact h.taken_eq t ht hz
  have hleft := taken_add_totalExponent_leftPowers (hdefined t ht) (commonPowers first rest) base
  rw [hhead, htaken] at hleft
  rw [← hleft, totalExponent, hcommon]
  rfl

/-- A base that a term does not have stays in all of them. -/
theorem totalExponent_eq_of_missing (hdefined : ∀ t ∈ first :: rest, PowersDefined ρ t.powers)
    (hmissing : ∃ t ∈ first :: rest, exponentsOf t.powers base = []) (ht : t ∈ first :: rest) :
    totalExponent (commonPowers first rest) base
      + totalExponent (leftPowers (commonPowers first rest) t.powers) base
      = totalExponent t.powers base := by
  have hcommon :=
    exponentsOf_commonPowers_eq_nil (hdefined first List.mem_cons_self) hmissing
  have hleft := taken_add_totalExponent_leftPowers (hdefined t ht) (commonPowers first rest) base
  have hnothing : taken 0 (exponentsOf t.powers base) = 0 :=
    taken_zero fun k hk => (hdefined t ht _ (mem_of_mem_exponentsOf (hdefined t ht) hk)).2
  rw [exponentIn?_eq, hcommon, List.head?_nil, Option.getD_none, hnothing] at hleft
  rw [totalExponent, hcommon, List.sum_nil, hleft]

/-- Where the terms share alike, the common powers and those that are left add up to each term that
is not zero. -/
theorem SharesAlike.totalExponent_eq (h : SharesAlike (first :: rest))
    (hdefined : ∀ t ∈ first :: rest, PowersDefined ρ t.powers) (ht : t ∈ first :: rest)
    (hz : t.coefficient.isZero = false) (base : Expr) :
    totalExponent (commonPowers first rest) base
      + totalExponent (leftPowers (commonPowers first rest) t.powers) base
      = totalExponent t.powers base := by
  by_cases hnil : exponentsOf first.powers base = []
  · exact totalExponent_eq_of_missing hdefined ⟨first, List.mem_cons_self, hnil⟩ ht
  · obtain ⟨k, hk⟩ := List.exists_mem_of_ne_nil _ hnil
    have hmem := mem_of_mem_exponentsOf (hdefined first List.mem_cons_self) hk
    rcases h _ hmem with ⟨t', ht', hmissing⟩ | ⟨m, hsplits⟩
    · exact totalExponent_eq_of_missing hdefined ⟨t', List.mem_cons_of_mem _ ht', hmissing⟩ ht
    · exact hsplits.totalExponent_eq hdefined ht hz

/-- The common powers times those that are left give each term that is not zero. -/
theorem SharesAlike.powersValue_eq (h : SharesAlike (first :: rest))
    (hdefined : ∀ t ∈ first :: rest, PowersDefined ρ t.powers) (ht : t ∈ first :: rest)
    (hz : t.coefficient.isZero = false) :
    powersValue ρ (commonPowers first rest)
        * powersValue ρ (leftPowers (commonPowers first rest) t.powers)
      = powersValue ρ t.powers := by
  obtain ⟨hfirst, hrest⟩ := List.forall_mem_cons.mp hdefined
  have hcommon : PowersDefined ρ (commonPowers first rest) :=
    powersDefined_commonPowers hfirst hrest
  have hall := powersDefined_append hcommon ((hdefined t ht).leftPowers (commonPowers first rest))
  rw [← powersValue_append]
  refine powersValue_eq_of_totalExponent_eq hall (hdefined t ht) fun b => ?_
  rw [totalExponent_append]
  exact h.totalExponent_eq hdefined ht hz b

/-! ## Merged terms -/

/-- A base that all terms have stands once in each of them. -/
def Merged (ts : List PowerTerm) : Prop :=
  ∀ base, (∀ t ∈ ts, exponentsOf t.powers base ≠ []) →
    ∀ t ∈ ts, (exponentsOf t.powers base).length = 1

/-- Terms without a repeated shared base share alike. -/
theorem sharesAlike_of_merged (h : Merged ts) : SharesAlike ts := by
  cases ts with
  | nil => trivial
  | cons first rest =>
    intro p hp
    by_cases hmissing : ∃ t ∈ rest, exponentsOf t.powers p.1 = []
    · exact .inl hmissing
    have hrest : ∀ t ∈ rest, exponentsOf t.powers p.1 ≠ [] :=
      fun t ht hnil => hmissing ⟨t, ht, hnil⟩
    have hall : ∀ t ∈ first :: rest, exponentsOf t.powers p.1 ≠ [] :=
      List.forall_mem_cons.mpr ⟨exponentsOf_ne_nil hp, hrest⟩
    obtain ⟨k, hk⟩ := exists_head_exponentsOf hp
    obtain ⟨m, hm⟩ := exists_leastExponent? hrest k
    obtain ⟨⟨hle, hheads⟩, hattained⟩ := leastExponent?_eq_some hm
    -- A shared base is listed once, so that its first exponent is the only one.
    have hsingle : ∀ t ∈ first :: rest, ∀ j, (exponentsOf t.powers p.1).head? = some j →
        exponentsOf t.powers p.1 = [j] := by
      intro t ht j hj
      obtain ⟨i, hi⟩ := List.length_eq_one_iff.mp (h p.1 hall t ht)
      rw [hi] at hj ⊢
      rw [Option.some.inj hj]
    have hfirst := hsingle first List.mem_cons_self k hk
    refine .inr ⟨m, List.forall_mem_cons.mpr ⟨⟨k, hk, hle⟩, hheads⟩, ?_, fun t ht _ => ?_⟩
    · rcases hattained with rfl | hattained
      · exact .inr ⟨hk, by simp [hfirst]⟩
      · exact .inl hattained
    · obtain ⟨j, hj, hmj⟩ := hheads t ht
      rw [hfirst, hsingle t (List.mem_cons_of_mem _ ht) j hj, taken, taken, List.map_singleton,
        List.map_singleton, min_eq_left hmj, min_eq_left hle]

/-! ## Exactness -/

/-- Exponents that are at least cut at `m`, and add up as if they were, are. -/
theorem eq_min_of_sum_eq_taken {f : ℤ → Option ℤ}
    (hf : ∀ k ∈ ks, ∃ l, f k = some l ∧ min m k ≤ l) :
    taken m ks ≤ (ks.filterMap f).sum ∧
      ((ks.filterMap f).sum = taken m ks → ∀ k ∈ ks, f k = some (min m k)) := by
  induction ks with
  | nil => exact ⟨le_rfl, fun _ => List.forall_mem_nil _⟩
  | cons k ks ih =>
    obtain ⟨⟨l, hl, hle⟩, hks⟩ := List.forall_mem_cons.mp hf
    obtain ⟨htaken, heq⟩ := ih hks
    rw [taken_cons, List.filterMap_cons_some hl, List.sum_cons]
    refine ⟨add_le_add hle htaken, fun hsum => ?_⟩
    have hk : l = min m k := by omega
    exact List.forall_mem_cons.mpr ⟨hk ▸ hl, heq (by omega)⟩

/-- If what is put in front and what is left add up to each term, the terms share alike. -/
theorem sharesAlike_iff (hdefined : ∀ t ∈ first :: rest, PowersDefined ρ t.powers)
    (hz : first.coefficient.isZero = false) :
    SharesAlike (first :: rest) ↔
      ∀ t ∈ first :: rest, t.coefficient.isZero = false → ∀ base,
        totalExponent (commonPowers first rest) base
          + totalExponent (leftPowers (commonPowers first rest) t.powers) base
          = totalExponent t.powers base := by
  refine ⟨fun h t ht hz => h.totalExponent_eq hdefined ht hz, fun h p hp => ?_⟩
  by_cases hmissing : ∃ t ∈ rest, exponentsOf t.powers p.1 = []
  · exact .inl hmissing
  have hfirst : PowersDefined ρ first.powers := hdefined first List.mem_cons_self
  have hrest : ∀ t ∈ rest, exponentsOf t.powers p.1 ≠ [] :=
    fun t ht hnil => hmissing ⟨t, ht, hnil⟩
  obtain ⟨k, hk⟩ := exists_head_exponentsOf hp
  obtain ⟨m, hm⟩ := exists_leastExponent? hrest k
  obtain ⟨⟨hle, hheads⟩, hattained⟩ := leastExponent?_eq_some hm
  have hcommon := exponentsOf_commonPowers hfirst rest p.1
  have hhead : (exponentIn? (commonPowers first rest) p.1).getD 0 = m := by
    obtain ⟨ks, hks⟩ := List.head?_eq_some_iff.mp hk
    have hcons : (k :: ks).filterMap (fun k => leastExponent? p.1 k rest) =
        m :: ks.filterMap fun k => leastExponent? p.1 k rest := List.filterMap_cons_some hm
    rw [exponentIn?_eq, hcommon, hks, hcons, List.head?_cons, Option.getD_some]
  have htaken : ∀ t ∈ first :: rest, t.coefficient.isZero = false →
      totalExponent (commonPowers first rest) p.1 = taken m (exponentsOf t.powers p.1) := by
    intro t ht hz
    have hleft := taken_add_totalExponent_leftPowers (hdefined t ht) (commonPowers first rest) p.1
    rw [hhead, ← h t ht hz p.1] at hleft
    exact (add_right_cancel hleft).symm
  -- In front the exponents of the first term are cut at `m`, for nothing else is taken out of it.
  have hcut : ∀ j ∈ exponentsOf first.powers p.1, leastExponent? p.1 j rest = some (min m j) := by
    have hsum := htaken first List.mem_cons_self hz
    rw [totalExponent, hcommon] at hsum
    refine (eq_min_of_sum_eq_taken fun j _ => ?_).2 hsum
    obtain ⟨l, hl⟩ := exists_leastExponent? hrest j
    exact ⟨l, hl, min_le_leastExponent? hheads hl⟩
  refine .inr ⟨m, List.forall_mem_cons.mpr ⟨⟨k, hk, hle⟩, hheads⟩, ?_, fun t ht hz' => ?_⟩
  · by_cases hother : ∃ t ∈ rest, (exponentsOf t.powers p.1).head? = some m
    · exact .inl hother
    · obtain rfl : m = k := hattained.resolve_right hother
      refine .inr ⟨hk, fun j hj => ?_⟩
      by_contra hlt
      rw [not_le] at hlt
      have hm' := hcut j hj
      rw [min_eq_left hlt.le] at hm'
      rcases (leastExponent?_eq_some hm').2 with heq | hother'
      · exact hlt.ne heq
      · exact hother hother'
  · rw [← htaken t (List.mem_cons_of_mem _ ht) hz', htaken first List.mem_cons_self hz]

/-- The powers of variables at the assignment of two to one variable and one to all others. -/
theorem powersValue_at_two (v : String) (hps : ∀ p ∈ ps, ∃ w, p.1 = .var w) :
    powersValue (fun w => if w = v then 2 else 1) ps = 2 ^ totalExponent ps (.var v) := by
  classical
  induction ps with
  | nil => rfl
  | cons p ps ih =>
    obtain ⟨⟨w, hw⟩, hrest⟩ := List.forall_mem_cons.mp hps
    obtain ⟨base, k⟩ := p
    obtain rfl : base = .var w := hw
    have hvalue : powersValue (fun w => if w = v then 2 else 1) ((.var w, k) :: ps) =
        (if w = v then 2 else 1) ^ k * powersValue (fun w => if w = v then 2 else 1) ps := rfl
    rw [hvalue, ih hrest, totalExponent_cons (ρ := fun _ => 0) (.var w)]
    simp only [Expr.var.injEq]
    split_ifs with heq
    · rw [zpow_add₀ two_ne_zero]
    · rw [one_zpow, one_mul, zero_add]

/-- The condition is exact for terms of variables: where it fails, the value of a term that is not
zero is not kept. -/
theorem sharesAlike_iff_forall_value_eq (hz : first.coefficient.isZero = false)
    (hpos : ∀ t ∈ first :: rest, ∀ p ∈ t.powers, 0 < p.2)
    (hvars : ∀ t ∈ first :: rest, ∀ p ∈ t.powers, ∃ v, p.1 = .var v) :
    SharesAlike (first :: rest) ↔
      ∀ t ∈ first :: rest, t.coefficient.isZero = false → ∀ ρ,
        powersValue ρ (commonPowers first rest)
          * powersValue ρ (leftPowers (commonPowers first rest) t.powers)
          = powersValue ρ t.powers := by
  have hdefined : ∀ ρ, ∀ t ∈ first :: rest, PowersDefined ρ t.powers := by
    intro ρ t ht p hp
    obtain ⟨v, hv⟩ := hvars t ht p hp
    exact ⟨hv ▸ .var v, hpos t ht p hp⟩
  refine ⟨fun h t ht hz ρ => h.powersValue_eq (hdefined ρ) ht hz, fun h => ?_⟩
  rw [sharesAlike_iff (hdefined fun _ => 0) hz]
  intro t ht hz base
  have hcommon : ∀ p ∈ commonPowers first rest, ∃ v, p.1 = .var v := by
    intro p hp
    rw [commonPowers_eq] at hp
    obtain ⟨q, hq, hbase, -⟩ := exists_of_mem_filterMap (leastExponent? · · rest) hp
    exact hbase ▸ hvars first List.mem_cons_self q hq
  have hleft : ∀ p ∈ leftPowers (commonPowers first rest) t.powers, ∃ v, p.1 = .var v := by
    intro p hp
    obtain ⟨q, hq, hbase, -⟩ :=
      exists_of_mem_filterMap (leftExponent (commonPowers first rest)) hp
    exact hbase ▸ hvars t ht q hq
  by_cases hv : ∃ v, base = .var v
  · obtain ⟨v, rfl⟩ := hv
    -- With two for the variable and one for all others, the value shows the exponents of this base.
    have htwo := h t ht hz fun w => if w = v then 2 else 1
    rw [powersValue_at_two v hcommon, powersValue_at_two v hleft,
      powersValue_at_two v (hvars t ht), ← zpow_add₀ two_ne_zero] at htwo
    exact zpow_right_injective₀ two_pos (by norm_num) htwo
  -- Whatever is no variable is the base of no power.
  · have hnone : ∀ {ps : List (Expr × ℤ)}, (∀ p ∈ ps, ∃ v, p.1 = .var v) →
        totalExponent ps base = 0 := by
      intro ps hps
      have hnil : ps.filter (fun p => p.1 == base) = [] := by
        refine List.filter_eq_nil_iff.mpr fun p hp hsame => ?_
        obtain ⟨w, hw⟩ := hps p hp
        rw [hw, (Expr.SetFree.var w).beq_iff] at hsame
        exact hv ⟨w, hsame.symm⟩
      rw [totalExponent, exponentsOf, hnil, List.map_nil, List.sum_nil]
    rw [hnone hcommon, hnone hleft, hnone (hvars t ht), zero_add]

end Content

end SymbolicAlgebra
