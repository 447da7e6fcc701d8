import Mathlib
import SymbolicAlgebra.Proofs.Expr.Children
import SymbolicAlgebra.Proofs.Expr.FieldExpression
import SymbolicAlgebra.Proofs.Simplify.CommonPowers

/-!
# When pulling out the content keeps the value

A sum is factored into its content, its common powers and the sum of the cofactors. The content is
not zero, `Content.ofCoefficients_ne_zero`, and so the coefficients keep their values. The powers do
where the terms share alike, `Content.factorSum_refines`: what is put in front of the sum is then
taken out of each of its terms.

`Expr.factorize` goes through a tree from the bottom up, and the sums that it meets have operands
that have been factored themselves. `Expr.SharesAlike` asks the terms of each of these sums to share
alike, and under this condition factoring refines the expression, `Expr.factorize_refines`. Terms in
which no common base is repeated do, `Content.sharesAlike_of_merged`. For sums without sums in their
terms this is seen in the expression as it is written, `Expr.IsField.sharesAlike_of_merged`. The
condition cannot be dropped: `Expr.factorize_square_of_var` is the counterexample.
-/

namespace SymbolicAlgebra

variable {ρ : Assignment}

namespace Content

/-! ## Factors and terms of powers -/

/-- A power and the factor that is written for it have the same value. -/
theorem defined_toFactor {p : Expr × ℤ} (hd : p.1.Defined ρ) (hk : 0 < p.2) :
    (toFactor p).Defined ρ ∧ (toFactor p).value ρ = p.1.value ρ ^ p.2 := by
  rw [toFactor]
  split_ifs with hone
  · exact ⟨hd, by rw [hone, zpow_one]⟩
  · exact ⟨.power hd fun _ => hk.le, Expr.value_power _ _⟩

/-- Powers written as factors keep their values. -/
theorem PowersDefined.map_toFactor {ps : List (Expr × ℤ)} (hps : PowersDefined ρ ps) :
    (∀ e ∈ ps.map toFactor, e.Defined ρ) ∧
      ((ps.map toFactor).map (Expr.value ρ)).prod = powersValue ρ ps := by
  constructor
  · intro e he
    obtain ⟨p, hp, rfl⟩ := List.mem_map.mp he
    exact (defined_toFactor (hps p hp).1 (hps p hp).2).1
  · rw [powersValue, List.map_map]
    exact congrArg List.prod
      (List.map_congr_left fun p hp => (defined_toFactor (hps p hp).1 (hps p hp).2).2)

/-- The coefficient is exact, and the powers have values. -/
structure PowerTerm.Defined (ρ : Assignment) (t : PowerTerm) : Prop where
  coefficient : ∃ q, t.coefficient.toRat? = some q
  powers : PowersDefined ρ t.powers

/-- The product of the coefficient and the powers. -/
def PowerTerm.value (ρ : Assignment) (t : PowerTerm) : ℚ :=
  t.coefficient.toRat?.getD 0 * powersValue ρ t.powers

/-- Reading a factor as a power with a positive exponent keeps its value. -/
theorem defined_positivePower {e : Expr} (he : e.Defined ρ) :
    ((positivePower e).1.Defined ρ ∧ 0 < (positivePower e).2) ∧
      (positivePower e).1.value ρ ^ (positivePower e).2 = e.value ρ := by
  have hone : (e.Defined ρ ∧ (0 : ℤ) < 1) ∧ e.value ρ ^ (1 : ℤ) = e.value ρ :=
    ⟨⟨he, one_pos⟩, zpow_one _⟩
  cases he with
  | @power b k hb hk =>
    have hpower : positivePower (.power b (.int k)) =
        if 0 < k then (b, k) else (.power b (.int k), 1) := rfl
    rw [hpower]
    split_ifs with hpos
    · exact ⟨⟨hb, hpos⟩, rfl⟩
    · exact hone
  | _ => exact hone

/-- An expression and the term of powers that it is read as have the same value. -/
theorem PowerTerm.defined_ofExpr {e : Expr} (he : e.Defined ρ) :
    (PowerTerm.ofExpr e).Defined ρ ∧ (PowerTerm.ofExpr e).value ρ = e.value ρ := by
  obtain ⟨ht, htv⟩ := Term.defined_ofExpr he
  refine ⟨⟨ht.coefficient, ?_⟩, ?_⟩
  · intro p hp
    obtain ⟨f, hf, rfl⟩ := List.mem_map.mp hp
    exact (defined_positivePower (ht.factors f hf)).1
  · rw [← htv, PowerTerm.value, Term.value, PowerTerm.ofExpr, powersValue, List.map_map]
    congr 2
    exact List.map_congr_left fun f hf => (defined_positivePower (ht.factors f hf)).2

/-! ## Contents -/

/-- A coefficient is taken in, unless it is zero and so is all before it. The divisor of the
numerators is positive then. -/
theorem divisors_cons {c : Number} {q : ℚ} {num : ℤ} (hc : c.toRat? = some q)
    (h : num ≠ 0 ∨ q ≠ 0) (den : ℤ) (cs : List Number) :
    divisors num den (c :: cs) =
        divisors (Int.gcd num q.num) (leastCommonMultiple den q.den) cs ∧
      (0 : ℤ) < Int.gcd num q.num := by
  have hnum : num ≠ 0 ∨ q.num ≠ 0 := h.imp_right Rat.num_ne_zero.mpr
  have hgcd : greatestCommonDivisor num q.num = .ok (Int.gcd num q.num) :=
    if_neg fun hzero => hnum.elim (· hzero.1) (· hzero.2)
  refine ⟨?_, Int.natCast_pos.mpr (Int.gcd_pos_iff.mpr hnum)⟩
  rw [divisors, hc]
  dsimp only
  rw [hgcd]
  rfl

/-- The divisor of the denominators is not zero if the one at the start is not. -/
theorem divisors_den_ne_zero {cs : List Number} {num den n d : ℤ} (hden : den ≠ 0)
    (h : divisors num den cs = .ok (some (n, d))) : d ≠ 0 := by
  induction cs generalizing num den with
  | nil =>
    obtain ⟨rfl, rfl⟩ : num = n ∧ den = d := by simpa [divisors, Except.ok.injEq] using h
    exact hden
  | cons c cs ih =>
    rw [divisors] at h
    cases hc : c.toRat? with
    | none => simp [hc] at h
    | some r =>
      rw [hc] at h
      obtain ⟨g, -, h⟩ := bind_eq_ok h
      refine ih ?_ h
      have hlcm : Int.lcm den r.den ≠ 0 :=
        Int.lcm_ne_zero hden (Int.natCast_ne_zero.mpr r.den_ne_zero)
      exact Int.natCast_ne_zero.mpr hlcm

/-- The content of coefficients is not zero. -/
theorem ofCoefficients_ne_zero {cs : List Number} {c : ℚ} (h : ofCoefficients cs = .ok (some c)) :
    c ≠ 0 := by
  unfold ofCoefficients at h
  obtain ⟨o, hd, h⟩ := bind_eq_ok h
  cases o with
  | none => cases h
  | some nd =>
    obtain ⟨num, den⟩ := nd
    have hden : den ≠ 0 := divisors_den_ne_zero one_ne_zero hd
    simp only [pure, Except.pure] at h
    split_ifs at h with hnum hneg
    · cases h
    · obtain rfl := Option.some.inj (Except.ok.inj h)
      simpa [Rat.divInt_eq_div] using ⟨hnum, hden⟩
    · obtain rfl := Option.some.inj (Except.ok.inj h)
      simpa [Rat.divInt_eq_div] using ⟨hnum, hden⟩

/-! ## Sums -/

/-- The content, the common powers and the cofactor give the term. The powers of a term that is zero
may be split in any way. -/
theorem PowerTerm.Defined.cofactor {content : Option ℚ} {common : List (Expr × ℤ)} {t : PowerTerm}
    (hcontent : ∀ c ∈ content, c ≠ 0) (ht : t.Defined ρ)
    (hsplit : t.coefficient.isZero = false →
      powersValue ρ common * powersValue ρ (leftPowers common t.powers)
        = powersValue ρ t.powers) :
    (cofactor content common t).Defined ρ ∧
      content.getD 1 * powersValue ρ common * (cofactor content common t).value ρ = t.value ρ := by
  obtain ⟨q, hq⟩ := ht.coefficient
  obtain ⟨hl, hlv⟩ := (ht.powers.leftPowers common).map_toFactor
  obtain ⟨r, hr, hrq⟩ : ∃ r, (content.elim t.coefficient fun c => t.coefficient / .ofRat c).toRat?
      = some r ∧ content.getD 1 * r = q := by
    cases content with
    | none => exact ⟨q, hq, one_mul q⟩
    | some c =>
      have hc : c ≠ 0 := hcontent c rfl
      exact ⟨q / c, Number.toRat?_div hq (Number.toRat?_ofRat c) hc, mul_div_cancel₀ q hc⟩
  have hterm : Term.Defined ρ ⟨content.elim t.coefficient fun c => t.coefficient / .ofRat c,
      (leftPowers common t.powers).map toFactor⟩ := ⟨⟨r, hr⟩, hl⟩
  have hpowers : q * (powersValue ρ common * powersValue ρ (leftPowers common t.powers))
      = q * powersValue ρ t.powers := by
    cases hz : t.coefficient.isZero with
    | true => rw [(Number.isZero_iff hq).mp hz, zero_mul, zero_mul]
    | false => rw [hsplit hz]
  rw [cofactor_eq]
  refine ⟨hterm.toExpr.1, ?_⟩
  rw [hterm.toExpr.2, Term.value_mk hr, hlv, PowerTerm.value, hq, Option.getD_some, ← hpowers, ← hrq]
  ring

/-- The content as a list of factors. -/
theorem defined_content (content : Option ℚ) :
    (∀ e ∈ content.toList.map Expr.rat, e.Defined ρ) ∧
      ((content.toList.map Expr.rat).map (Expr.value ρ)).prod = content.getD 1 := by
  cases content with
  | none => simp
  | some c => exact ⟨by simpa using .rat c, by simp⟩

/-- The factored sum has the value of the sum when the common powers and those that are left give
each term. -/
theorem defined_factored {content : Option ℚ} {common : List (Expr × ℤ)} {ts : List PowerTerm}
    (hcontent : ∀ c ∈ content, c ≠ 0) (hcommon : PowersDefined ρ common)
    (hts : ∀ t ∈ ts, t.Defined ρ) (hsplit : ∀ t ∈ ts, t.coefficient.isZero = false →
      powersValue ρ common * powersValue ρ (leftPowers common t.powers)
        = powersValue ρ t.powers) :
    (Expr.productOf (content.toList.map .rat ++ common.map toFactor
        ++ [.sumOf (ts.map (cofactor content common))])).Defined ρ ∧
      (Expr.productOf (content.toList.map .rat ++ common.map toFactor
        ++ [.sumOf (ts.map (cofactor content common))])).value ρ
        = (ts.map (PowerTerm.value ρ)).sum := by
  have hco := fun t ht => (hts t ht).cofactor hcontent (hsplit t ht)
  have hcofactors : ∀ e ∈ ts.map (cofactor content common), e.Defined ρ := by
    intro e he
    obtain ⟨t, ht, rfl⟩ := List.mem_map.mp he
    exact (hco t ht).1
  obtain ⟨hc, hcv⟩ := defined_content content
  obtain ⟨hp, hpv⟩ := hcommon.map_toFactor
  obtain ⟨hs, hsv⟩ := Expr.defined_sumOf hcofactors
  obtain ⟨hd, hv⟩ := Expr.defined_productOf (List.forall_mem_append.mpr
    ⟨List.forall_mem_append.mpr ⟨hc, hp⟩, List.forall_mem_singleton.mpr hs⟩)
  refine ⟨hd, ?_⟩
  rw [hv, List.map_append, List.map_append, List.prod_append, List.prod_append, hcv, hpv,
    List.map_singleton, List.prod_singleton, hsv, List.map_map, ← List.sum_map_mul_left]
  exact congrArg List.sum (List.map_congr_left fun t ht => (hco t ht).2)

/-- Factoring a sum whose terms share alike refines it. -/
theorem factorSum_refines {terms : List Expr} {e : Expr} (h : factorSum terms = .ok e)
    (halike : SharesAlike (terms.map PowerTerm.ofExpr)) : e.Refines (.sum terms) := by
  intro ρ hd
  have hterms := fun t ht => PowerTerm.defined_ofExpr (hd.of_mem_sum t ht)
  have hts : ∀ t ∈ terms.map PowerTerm.ofExpr, t.Defined ρ := by
    intro t ht
    obtain ⟨a, ha, rfl⟩ := List.mem_map.mp ht
    exact (hterms a ha).1
  have hvalue : ((terms.map PowerTerm.ofExpr).map (PowerTerm.value ρ)).sum
      = (Expr.sum terms).value ρ := by
    rw [Expr.value_sum, List.map_map]
    exact congrArg List.sum (List.map_congr_left fun t ht => (hterms t ht).2)
  rw [factorSum] at h
  cases hmap : terms.map PowerTerm.ofExpr with
  | nil =>
    simp only [hmap] at h
    obtain rfl := Except.ok.inj h
    exact ⟨hd, rfl⟩
  | cons first rest =>
    rw [hmap] at halike hts
    simp only [hmap] at h
    obtain ⟨o, hof, h⟩ := bind_eq_ok h
    simp only [pure, Except.pure] at h
    split_ifs at h with hnothing
    -- Without a content or common powers the sum is given back.
    · obtain rfl := Except.ok.inj h
      exact ⟨hd, rfl⟩
    · obtain rfl := Except.ok.inj h
      have hcontent : ∀ c ∈ o.filter fun c => !(Number.ofRat c).isOne, c ≠ 0 := by
        intro c hc
        obtain ⟨hc, -⟩ := Option.mem_filter_iff.mp hc
        exact ofCoefficients_ne_zero (hof.trans (congrArg _ hc))
      have hcommon : PowersDefined ρ (commonPowers first rest) :=
        powersDefined_commonPowers (hts first List.mem_cons_self).powers
          fun t ht => (hts t (List.mem_cons_of_mem _ ht)).powers
      rw [← hvalue, hmap]
      exact defined_factored hcontent hcommon hts fun t ht hz =>
        halike.powersValue_eq (fun t ht => (hts t ht).powers) ht hz

end Content

namespace Expr

variable {e e' : Expr}

/-! ## Trees -/

/-- Operands that are refined one by one keep their values together. -/
theorem values_of_mapM {ε : Type} {g : Expr → Except ε Expr} {es es' : List Expr}
    (hg : ∀ e ∈ es, ∀ e', g e = .ok e' → e'.Refines e) (hes : ∀ e ∈ es, e.Defined ρ)
    (h : es.mapM g = .ok es') :
    (∀ e ∈ es', e.Defined ρ) ∧ es'.map (value ρ) = es.map (value ρ) := by
  induction es generalizing es' with
  | nil =>
    obtain rfl := Except.ok.inj h
    exact ⟨List.forall_mem_nil _, rfl⟩
  | cons e es ih =>
    obtain ⟨hge, hges⟩ := List.forall_mem_cons.mp hg
    obtain ⟨hde, hdes⟩ := List.forall_mem_cons.mp hes
    rw [List.mapM_cons] at h
    obtain ⟨e', he, h⟩ := bind_eq_ok h
    obtain ⟨rest, hrest, h⟩ := bind_eq_ok h
    obtain rfl := Except.ok.inj h
    obtain ⟨hd, hv⟩ := hge e' he ρ hde
    obtain ⟨hds, hvs⟩ := ih hges hdes hrest
    exact ⟨List.forall_mem_cons.mpr ⟨hd, hds⟩, by rw [List.map_cons, List.map_cons, hv, hvs]⟩

/-- A node is refined when its children are. Numbers have to stay, since an exponent that is no
literal has no meaning. -/
theorem refines_of_mapChildrenM {ε : Type} {g : Expr → Except ε Expr}
    (hg : ∀ c ∈ e.children, ∀ c', g c = .ok c' → c'.Refines c)
    (hn : ∀ n, g (.number n) = .ok (.number n)) (h : e.mapChildrenM g = .ok e') :
    e'.Refines e := by
  intro ρ hd
  cases hd with
  | number hq =>
    obtain rfl := Except.ok.inj h
    exact ⟨.number hq, rfl⟩
  | var v =>
    obtain rfl := Except.ok.inj h
    exact ⟨.var v, rfl⟩
  | @sum es hes =>
    obtain ⟨es', hes', h⟩ := bind_eq_ok h
    obtain rfl := Except.ok.inj h
    obtain ⟨hds, hvs⟩ : (∀ e ∈ es', e.Defined ρ) ∧ es'.map (value ρ) = es.map (value ρ) :=
      values_of_mapM hg hes hes'
    exact ⟨.sum hds, by rw [value_sum, value_sum, hvs]⟩
  | @product es hes =>
    obtain ⟨es', hes', h⟩ := bind_eq_ok h
    obtain rfl := Except.ok.inj h
    obtain ⟨hds, hvs⟩ : (∀ e ∈ es', e.Defined ρ) ∧ es'.map (value ρ) = es.map (value ρ) :=
      values_of_mapM hg hes hes'
    exact ⟨.product hds, by rw [value_product, value_product, hvs]⟩
  | @power b k hb hk =>
    obtain ⟨b', hb', h⟩ := bind_eq_ok h
    obtain ⟨x', hx', h⟩ := bind_eq_ok h
    obtain rfl := Except.ok.inj h
    obtain rfl : Expr.int k = x' := Except.ok.inj ((hn (.int k)).symm.trans hx')
    exact (hg b List.mem_cons_self b' hb').power ρ (.power hb hk)
  | neg ha =>
    obtain ⟨a', ha', h⟩ := bind_eq_ok h
    obtain rfl := Except.ok.inj h
    exact (hg _ (List.mem_singleton_self _) a' ha').neg ρ (.neg ha)
  | @div a b ha hb hne =>
    obtain ⟨a', ha', h⟩ := bind_eq_ok h
    obtain ⟨b', hb', h⟩ := bind_eq_ok h
    obtain rfl := Except.ok.inj h
    exact (hg a List.mem_cons_self a' ha').div
      (hg b (List.mem_cons_of_mem a (List.mem_singleton_self b)) b' hb') ρ (.div ha hb hne)

/-- Factoring a tree factors the children of its root and then the node made of them. -/
theorem factorize_eq_bind (e : Expr) :
    e.factorize = e.mapChildrenM factorize >>= Content.factorNode :=
  mapBottomUpM_eq_bind Content.factorNode e

/-- A node of another kind is left as it is, whatever its children become. -/
theorem mapChildrenM_bind_factorNode (g : Expr → Except ArithmeticFault Expr)
    (h : ∀ es, e ≠ .sum es) : e.mapChildrenM g >>= Content.factorNode = e.mapChildrenM g := by
  cases e with
  | sum es => exact absurd rfl (h es)
  | number n | var v | boolean b => rfl
  | _ => simp only [mapChildrenM, bind_assoc, pure_bind, Content.factorNode]; rfl

/-- In every sum of the expression, with its operands factored, the terms share alike. -/
def SharesAlike (e : Expr) : Prop :=
  ∀ es es', (Expr.sum es).Occurs e → es.mapM factorize = .ok es' →
    Content.SharesAlike (es'.map Content.PowerTerm.ofExpr)

/-- Operands share alike if the expression does. -/
theorem SharesAlike.of_mem_children {c : Expr} (h : e.SharesAlike) (hc : c ∈ e.children) :
    c.SharesAlike :=
  fun es es' hocc hes => h es es' (.operand hc hocc) hes

/-- A node other than a sum shares alike as soon as its children do. -/
theorem SharesAlike.of_children (h : ∀ c ∈ e.children, c.SharesAlike) (hne : ∀ es, e ≠ .sum es) :
    e.SharesAlike := by
  intro es es' hocc hes
  cases hocc with
  | self => exact absurd rfl (hne es)
  | operand hc hocc => exact h _ hc es es' hocc hes

/-- A sum shares alike if its operands do, and so do the terms that these are factored into. -/
theorem SharesAlike.sum {es es' : List Expr} (h : ∀ e ∈ es, e.SharesAlike)
    (hes : es.mapM factorize = .ok es')
    (halike : Content.SharesAlike (es'.map Content.PowerTerm.ofExpr)) :
    (Expr.sum es).SharesAlike := by
  intro ds ds' hocc hds
  cases hocc with
  | self =>
    obtain rfl : es' = ds' := Except.ok.inj (hes.symm.trans hds)
    exact halike
  | operand hc hocc => exact h _ hc ds ds' hocc hds

/-- It is enough that no operand of a sum, once it is factored, repeats a base that all have. -/
theorem SharesAlike.of_merged
    (h : ∀ es es', (Expr.sum es).Occurs e → es.mapM factorize = .ok es' →
      Content.Merged (es'.map Content.PowerTerm.ofExpr)) : e.SharesAlike :=
  fun es es' hocc hes => Content.sharesAlike_of_merged (h es es' hocc hes)

/-! ## Sums of products -/

/-- Expressions that are factored already stay as they are. -/
theorem mapM_factorize_eq_self {es : List Expr} (h : ∀ e ∈ es, e.factorize = .ok e) :
    es.mapM factorize = .ok es := by
  have hpure : es.mapM (fun e => (pure e : Except ArithmeticFault Expr)) = .ok (es.map id) :=
    List.mapM_pure
  rw [List.map_id] at hpure
  exact (mapM_congr h).trans hpure

/-- Where there is no sum, nothing is factored. -/
theorem IsField.factorize_eq_self {K : ℤ → Prop} (he : e.IsField K)
    (hsum : ∀ es, ¬ (Expr.sum es).Occurs e) : e.factorize = .ok e := by
  have hoperand : ∀ {c e : Expr}, c ∈ e.children → (∀ es, ¬ (Expr.sum es).Occurs e) →
      ∀ es, ¬ (Expr.sum es).Occurs c := fun hc h es hocc => h es (.operand hc hocc)
  induction he with
  | number _ => rfl
  | var v => rfl
  | sum _ _ => exact absurd .self (hsum _)
  | @product es _ ih =>
    have hes : es.mapM factorize = .ok es :=
      mapM_factorize_eq_self fun e he => ih e he (hoperand (e := .product es) he hsum)
    rw [factorize_eq_bind, mapChildrenM, hes]
    rfl
  | @power b k _ _ ih =>
    rw [factorize_eq_bind, mapChildrenM,
      ih (hoperand (e := .power b (.int k)) List.mem_cons_self hsum)]
    rfl
  | @neg a _ ih =>
    rw [factorize_eq_bind, mapChildrenM,
      ih (hoperand (e := .neg a) (List.mem_singleton_self a) hsum)]
    rfl
  | @div a b _ _ iha ihb =>
    rw [factorize_eq_bind, mapChildrenM, iha (hoperand (e := .div a b) List.mem_cons_self hsum),
      ihb (hoperand (e := .div a b) (List.mem_cons_of_mem a (List.mem_singleton_self b)) hsum)]
    rfl

/-- Sums of terms without sums in them share alike, if no term repeats a base that all have. Their
operands are factored already, so that this is seen in the expression as it is written. -/
theorem IsField.sharesAlike_of_merged {K : ℤ → Prop} (he : e.IsField K)
    (hflat : ∀ es, (Expr.sum es).Occurs e → ∀ t ∈ es, ∀ ds, ¬ (Expr.sum ds).Occurs t)
    (hmerged : ∀ es, (Expr.sum es).Occurs e →
      Content.Merged (es.map Content.PowerTerm.ofExpr)) : e.SharesAlike := by
  have hpart : ∀ {c : Expr}, c.Occurs e → c.IsField K := by
    intro c hc
    induction hc with
    | self => exact he
    | operand hd _ ih =>
      exact ih (he.of_mem_children hd) (fun es hocc => hflat es (.operand hd hocc))
        fun es hocc => hmerged es (.operand hd hocc)
  refine .of_merged fun es es' hocc hes' => ?_
  have hself : es.mapM factorize = .ok es := mapM_factorize_eq_self fun t ht =>
    ((hpart hocc).of_mem_children ht).factorize_eq_self (hflat es hocc t ht)
  obtain rfl : es = es' := Except.ok.inj (hself.symm.trans hes')
  exact hmerged es hocc

/-! ## Factoring -/

/-- Pulling out the content keeps every value, as long as the terms of each sum share alike. -/
theorem factorize_refines (h : e.factorize = .ok e') (hs : e.SharesAlike) : e'.Refines e := by
  induction e using induction_children generalizing e' with
  | node e ih =>
    have hstep : ∀ {e₁}, e.mapChildrenM factorize = .ok e₁ → e₁.Refines e :=
      refines_of_mapChildrenM
        (fun c hc _ hc' => ih c hc hc' (hs.of_mem_children hc)) fun n => rfl
    rw [factorize_eq_bind] at h
    by_cases hsum : ∃ es, e = .sum es
    · obtain ⟨es, rfl⟩ := hsum
      obtain ⟨e₁, he₁, h⟩ := bind_eq_ok h
      have hrefines := hstep he₁
      obtain ⟨es', hes', he₁⟩ := bind_eq_ok he₁
      obtain rfl := Except.ok.inj he₁
      exact (Content.factorSum_refines h (hs es es' .self hes')).trans hrefines
    · rw [mapChildrenM_bind_factorNode factorize fun es hes => hsum ⟨es, hes⟩] at h
      exact hstep h

/-- In `x * x * y + x * x * (6 * z + 9)` both terms have the factor `x` twice, and the inner sum is
factored before. -/
theorem factorize_refines_repeated_base :
    (Expr.product [.var "x", .var "x", .sum [.var "y",
        .product [3, .sum [.product [2, .var "z"], 3]]]]).Refines
      (.sum [.product [.var "x", .var "x", .var "y"],
        .product [.var "x", .var "x", .sum [.product [6, .var "z"], 9]]]) := by
  have hvar : ∀ v, (Expr.var v).SharesAlike := fun v => .of_children (List.forall_mem_nil _) nofun
  have hnumber : ∀ n, (Expr.number n).SharesAlike :=
    fun n => .of_children (List.forall_mem_nil _) nofun
  have hproduct : ∀ {es}, (∀ e ∈ es, e.SharesAlike) → (Expr.product es).SharesAlike :=
    fun h => .of_children h nofun
  have hinner : (Expr.sum [.product [6, .var "z"], 9]).SharesAlike := by
    have hoperands : ∀ e ∈ [Expr.product [6, .var "z"], 9], e.SharesAlike := by
      simpa using ⟨hproduct (by simpa using ⟨hnumber 6, hvar "z"⟩), hnumber 9⟩
    have hfactored : [Expr.product [6, .var "z"], 9].mapM factorize
        = .ok [.product [6, .var "z"], 9] := by cbv
    have hterms : [Expr.product [6, .var "z"], 9].map Content.PowerTerm.ofExpr
        = [⟨6, [(.var "z", 1)]⟩, ⟨9, []⟩] := by cbv
    refine .sum hoperands hfactored (hterms ▸ List.forall_mem_singleton.mpr (.inl ?_))
    exact ⟨_, List.mem_singleton_self _, rfl⟩
  have hoperands : ∀ e ∈ [Expr.product [.var "x", .var "x", .var "y"],
      .product [.var "x", .var "x", .sum [.product [6, .var "z"], 9]]], e.SharesAlike := by
    simpa using ⟨hproduct (by simpa using ⟨hvar "x", hvar "y"⟩),
      hproduct (by simpa using ⟨hvar "x", hinner⟩)⟩
  have hfactored : [Expr.product [.var "x", .var "x", .var "y"],
        .product [.var "x", .var "x", .sum [.product [6, .var "z"], 9]]].mapM factorize
      = .ok [.product [.var "x", .var "x", .var "y"],
        .product [.var "x", .var "x", .product [3, .sum [.product [2, .var "z"], 3]]]] := by cbv
  have hterms : [Expr.product [.var "x", .var "x", .var "y"], .product [.var "x", .var "x",
        .product [3, .sum [.product [2, .var "z"], 3]]]].map Content.PowerTerm.ofExpr
      = [⟨1, [(.var "x", 1), (.var "x", 1), (.var "y", 1)]⟩,
        ⟨3, [(.var "x", 1), (.var "x", 1), (.sum [.product [2, .var "z"], 3], 1)]⟩] := by cbv
  have hx : Content.SplitsAt ⟨1, [(.var "x", 1), (.var "x", 1), (.var "y", 1)]⟩
      [⟨3, [(.var "x", 1), (.var "x", 1), (.sum [.product [2, .var "z"], 3], 1)]⟩] (.var "x") 1 := by
    have hfirst : Content.exponentsOf [(.var "x", 1), (.var "x", 1), (.var "y", 1)] (.var "x")
        = [1, 1] := by cbv
    have hsecond : Content.exponentsOf
        [(.var "x", 1), (.var "x", 1), (.sum [.product [2, .var "z"], 3], 1)] (.var "x")
        = [1, 1] := by cbv
    refine ⟨?_, .inl ⟨_, List.mem_singleton_self _, ?_⟩, ?_⟩
    · simp [hfirst, hsecond]
    · rw [hsecond, List.head?_cons]
    · simp [hfirst, hsecond]
  refine factorize_refines (by cbv) (.sum hoperands hfactored (hterms ▸ ?_))
  refine List.forall_mem_cons.mpr ⟨.inr ⟨1, hx⟩, List.forall_mem_cons.mpr ⟨.inr ⟨1, hx⟩, ?_⟩⟩
  exact List.forall_mem_singleton.mpr (.inl ⟨_, List.mem_singleton_self _, by cbv⟩)

/-- The square of `x` is pulled out of `x * x + x * y`, which has the value 10 at 2 and 3. -/
theorem factorize_square_of_var :
    factorize (.sum [.product [.var "x", .var "x"], .product [.var "x", .var "y"]])
        = .ok (.product [.var "x", .var "x", .sum [1, .var "y"]]) ∧
      ¬ (Expr.product [.var "x", .var "x", .sum [1, .var "y"]]).Refines
        (.sum [.product [.var "x", .var "x"], .product [.var "x", .var "y"]]) := by
  refine ⟨by cbv, fun h => ?_⟩
  obtain ⟨ρ, hx, hy⟩ : ∃ ρ : Assignment, ρ "x" = 2 ∧ ρ "y" = 3 :=
    ⟨fun v => if v = "x" then 2 else 3, rfl, rfl⟩
  have hproduct : ∀ v w, (Expr.product [.var v, .var w]).Defined ρ := by
    refine fun v w => .product fun e he => ?_
    rcases List.mem_pair.mp he with rfl | rfl <;> exact .var _
  obtain ⟨-, hv⟩ := h ρ (.sum (by simpa using ⟨hproduct _ _, hproduct _ _⟩))
  have hone : (1 : Expr).value ρ = 1 := value_ofNat 1
  norm_num [hone, hx, hy] at hv

end Expr

end SymbolicAlgebra
