import SymbolicAlgebra.Proofs.Expr.Variables
import SymbolicAlgebra.Proofs.Simplify.Normalization

/-!
# Patterns bring in no variables

No pattern of the library makes a variable or a set out of an expression without it. So the normal
form of an expression over some variables is again one over these variables, `Expr.Over.normalForm`.
In particular a variable that is not in an expression is not in its normal form, and structural
equality is equality on the normal form of an expression without sets. The latter is what keeps lists
of roots in order that have no exact values.
-/

namespace SymbolicAlgebra

variable {V : String → Prop} {e : Expr} {es : List Expr}

namespace Expr.Over

/-- The terms of a sum have no other variables than the sum. -/
theorem of_mem_sum (h : (Expr.sum es).Over V) : ∀ e ∈ es, e.Over V := by
  cases h with
  | sum h => exact h

/-- An expression with a sign has the variables of the operand. -/
theorem of_neg {a : Expr} (h : (Expr.neg a).Over V) : a.Over V := by
  cases h with
  | neg ha => exact ha

/-- Base and exponent have no other variables than the power. -/
theorem of_power {b k : Expr} (h : (Expr.power b k).Over V) : b.Over V ∧ k.Over V := by
  cases h with
  | power hb hk => exact ⟨hb, hk⟩

/-- The argument of a function has no other variables than the call. -/
theorem of_argOf? {f : Func} {a : Expr} (h : e.Over V) (ha : e.argOf? f = some a) :
    a.Over V := by
  unfold argOf? at ha
  split at ha
  · next g a' =>
    split_ifs at ha
    obtain rfl := Option.some.inj ha
    cases h with
    | apply _ hes => exact hes a' (by simp)
  · cases ha

/-- A call has the variables of its argument. -/
theorem call (f : Func) {a : Expr} (ha : a.Over V) : (Expr.call f a).Over V :=
  .apply f (List.forall_mem_singleton.mpr ha)

/-- A written sum has the variables of its terms. -/
theorem sumOf (h : ∀ e ∈ es, e.Over V) : (Expr.sumOf es).Over V := by
  match es, h with
  | [], _ => exact .number 0
  | [e], h => exact h e (by simp)
  | _ :: _ :: _, h => exact .sum h

/-- A written product has the variables of its factors. -/
theorem productOf (h : ∀ e ∈ es, e.Over V) : (Expr.productOf es).Over V := by
  match es, h with
  | [], _ => exact .number 1
  | [e], h => exact h e (by simp)
  | _ :: _ :: _, h => exact .product h

/-- An answer, or else the expression itself. -/
theorem getD {o : Option Expr} (he : e.Over V) (h : ∀ r, o = some r → r.Over V) :
    (o.getD e).Over V := by
  cases o with
  | none => exact he
  | some r => exact h r rfl

end Expr.Over

/-! ## Terms -/

namespace Term

/-- All factors are over the variables in `V`. -/
def Over (V : String → Prop) (t : Term) : Prop := ∀ f ∈ t.factors, f.Over V

/-- A further factor of a term brings in its own variables only. -/
theorem Over.append {t : Term} (ht : t.Over V) (he : e.Over V) :
    Over V ⟨t.coefficient, t.factors ++ [e]⟩ :=
  List.forall_mem_append.mpr ⟨ht, List.forall_mem_singleton.mpr he⟩

/-- Multiplying by an expression brings in the variables of this expression only. -/
theorem Over.times {t : Term} (ht : t.Over V) (he : e.Over V) : (t.times e).Over V := by
  induction he generalizing t with
  | number n => exact ht
  | neg _ ih => exact ih (t := ⟨-t.coefficient, t.factors⟩) ht
  | @product es h ih =>
    rw [Term.times, timesAll_eq_foldl]
    clear h
    induction es generalizing t with
    | nil => exact ht
    | cons e es ihes =>
      obtain ⟨he, hes⟩ := List.forall_mem_cons.mp ih
      exact ihes (fun e' he' => ih e' (by simp [he'])) (he ht)
  -- Anything else becomes a factor as it is.
  | _ => exact ht.append (by constructor <;> assumption)

/-- The coefficient and the factors have the variables of the expression. -/
theorem over_ofExpr (he : e.Over V) : (ofExpr e).Over V :=
  Over.times (t := ⟨1, []⟩) (by simp [Over]) he

/-- A written term has the variables of its factors. -/
theorem Over.toExpr {t : Term} (ht : t.Over V) : t.toExpr.Over V := by
  rw [Term.toExpr]
  split_ifs
  · exact .number _
  · exact .productOf ht
  · exact .neg (.productOf ht)
  · exact .productOf (List.forall_mem_cons.mpr ⟨.number _, ht⟩)

end Term

/-! ## Arithmetic patterns -/

namespace Folding

/-- Taking a sum apart brings in no variables. -/
theorem over_flattenSum (he : e.Over V) : ∀ t ∈ flattenSum e, t.Over V := by
  induction he with
  | sum _ ih =>
    rw [flattenSum, flattenSums_eq_flatMap]
    intro t ht
    obtain ⟨a, ha, hta⟩ := List.mem_flatMap.mp ht
    exact ih a ha t hta
  | _ => exact List.forall_mem_singleton.mpr (by constructor <;> assumption)

/-- Adding to the like term brings in no variables, since the factors are those of one of the two.
-/
theorem over_addLike {gs : List Term} {t : Term} (hgs : ∀ g ∈ gs, g.Over V)
    (ht : t.Over V) : ∀ g ∈ addLike gs t, g.Over V := by
  induction gs with
  | nil => exact List.forall_mem_singleton.mpr ht
  | cons g gs ih =>
    obtain ⟨hg, hgs⟩ := List.forall_mem_cons.mp hgs
    rw [addLike]
    split_ifs
    · exact List.forall_mem_cons.mpr ⟨hg, hgs⟩
    · exact List.forall_mem_cons.mpr ⟨hg, ih hgs⟩

/-- Collecting terms brings in no variables. -/
theorem over_foldl_add {c : Collected} {ts : List Term} (hc : ∀ g ∈ c.groups, g.Over V)
    (hts : ∀ t ∈ ts, t.Over V) : ∀ g ∈ (ts.foldl Collected.add c).groups, g.Over V := by
  induction ts generalizing c with
  | nil => exact hc
  | cons t ts ih =>
    obtain ⟨ht, hts⟩ := List.forall_mem_cons.mp hts
    refine ih ?_ hts
    rw [Collected.add]
    split_ifs
    · exact hc
    · exact over_addLike hc ht

/-- A collection is written with the variables of its groups. -/
theorem over_toTerms {c : Collected} (hc : ∀ g ∈ c.groups, g.Over V) :
    ∀ e ∈ c.toTerms, e.Over V := by
  rw [Collected.toTerms]
  refine List.forall_mem_append.mpr ⟨List.forall_mem_map.mpr fun g hg => ?_, ?_⟩
  · exact (hc g (List.mem_of_mem_filter hg)).toExpr
  · split_ifs
    · simp
    · exact List.forall_mem_singleton.mpr (.number _)

/-- Folding a sum brings in no variables. -/
theorem over_foldSum (he : e.Over V) : (foldSum e).Over V := by
  cases e with
  | sum es =>
    refine .sumOf (over_toTerms (over_foldl_add (by simp) ?_))
    exact List.forall_mem_map.mpr fun t ht => Term.over_ofExpr (over_flattenSum he t ht)
  | _ => exact he

/-- The base and the exponents are over the variables in `V`. -/
structure PowerGroup.Over (V : String → Prop) (g : PowerGroup) : Prop where
  base : g.base.Over V
  exponents : ∀ k ∈ g.exponents, k.Over V

/-- A factor has the variables of its base and its exponent. -/
theorem over_baseAndExponent (he : e.Over V) :
    PowerGroup.Over V ⟨(baseAndExponent e).1, [(baseAndExponent e).2]⟩ := by
  cases e with
  | power b k =>
    obtain ⟨hb, hk⟩ := he.of_power
    exact ⟨hb, List.forall_mem_singleton.mpr hk⟩
  | _ => exact ⟨he, List.forall_mem_singleton.mpr (.number 1)⟩

/-- Adding a power to its group brings in no variables. -/
theorem over_addPower {gs : List PowerGroup} {b k : Expr} (hgs : ∀ g ∈ gs, g.Over V)
    (h : PowerGroup.Over V ⟨b, [k]⟩) : ∀ g ∈ addPower gs (b, k), g.Over V := by
  induction gs with
  | nil => exact List.forall_mem_singleton.mpr h
  | cons g gs ih =>
    obtain ⟨hg, hgs⟩ := List.forall_mem_cons.mp hgs
    rw [addPower]
    split_ifs
    · exact List.forall_mem_cons.mpr
        ⟨⟨hg.base, List.forall_mem_append.mpr ⟨hg.exponents, h.exponents⟩⟩, hgs⟩
    · exact List.forall_mem_cons.mpr ⟨hg, ih hgs⟩

/-- A group is written with the variables of its base and its exponents. -/
theorem PowerGroup.Over.toFactor? {g : PowerGroup} (hg : g.Over V) {f : Expr}
    (hf : g.toFactor? = some f) : f.Over V := by
  rw [PowerGroup.toFactor?] at hf
  split_ifs at hf
  · exact Option.some.inj hf ▸ hg.base
  · refine Option.some.inj hf ▸ .power hg.base ?_
    -- A single exponent is kept as it is, several are added up.
    split
    · next k hk => exact hg.exponents k (by simp [hk])
    · exact over_foldSum (.sumOf hg.exponents)

/-- Merging powers brings in no variables. -/
theorem over_mergePowers (hes : ∀ e ∈ es, e.Over V) : ∀ f ∈ mergePowers es, f.Over V := by
  have hgroups : ∀ gs : List PowerGroup, (∀ g ∈ gs, g.Over V) →
      ∀ g ∈ (es.map baseAndExponent).foldl addPower gs, g.Over V := by
    induction es with
    | nil => exact fun gs hgs => hgs
    | cons e es ih =>
      obtain ⟨he, hes⟩ := List.forall_mem_cons.mp hes
      exact fun gs hgs => ih hes _ (over_addPower hgs (over_baseAndExponent he))
  intro f hf
  obtain ⟨g, hg, hfactor⟩ := List.mem_filterMap.mp hf
  exact (hgroups [] (by simp) g hg).toFactor? hfactor

/-- Folding a product brings in no variables. -/
theorem over_foldProduct (he : e.Over V) : (foldProduct e).Over V := by
  cases e with
  | product es =>
    rw [foldProduct]
    split_ifs
    · exact .number 0
    · exact Term.Over.toExpr (over_mergePowers (Term.over_ofExpr he))
  | _ => exact he

/-- Folding a power brings in no variables, whether it is computed or merged with the one below. -/
theorem over_foldPower (he : e.Over V) : (foldPower e).Over V := by
  cases e with
  | power b k =>
    obtain ⟨hb, -⟩ := he.of_power
    unfold foldPower
    dsimp only
    split_ifs
    · exact .number 1
    · exact hb
    · split
      · cases foldNumericPower? _ _ with
        | none => exact he
        | some n => exact .number n
      · refine .getD he fun r hr => ?_
        unfold foldNestedPower? at hr
        split at hr
        · obtain ⟨k, -, rfl⟩ := Option.map_eq_some_iff.mp hr
          exact .power hb.of_power.1 (.number _)
        · cases hr
      · exact he
  | _ => exact he

/-- Folding a sign brings in no variables. -/
theorem over_foldNeg (he : e.Over V) : (foldNeg e).Over V := by
  unfold foldNeg
  split
  · exact he.of_neg.of_neg
  · exact (Term.over_ofExpr he).toExpr
  · exact he

/-- Folding a quotient brings in no variables. -/
theorem over_foldDiv (he : e.Over V) : (foldDiv e).Over V := by
  cases e with
  | div a b =>
    have ha : a.Over V := by
      cases he with
      | div ha _ => exact ha
    unfold foldDiv
    dsimp only
    split
    · exact ha
    · split
      · split_ifs
        · exact he
        · exact Term.Over.toExpr (Term.over_ofExpr ha)
      · split_ifs
        · exact .number 0
        · exact .number 1
        · exact he
  | _ => exact he

/-- Taking the root of a number brings in no variables. -/
theorem over_foldSqrt (he : e.Over V) : (foldSqrt e).Over V := by
  rw [foldSqrt]
  split
  · refine .getD he fun r hr => ?_
    rw [foldedRoot?] at hr
    split_ifs at hr
    · exact Option.some.inj hr ▸ .number _
    · exact Option.some.inj hr ▸ .number _
    · obtain ⟨-, -, rfl⟩ := Option.map_eq_some_iff.mp hr
      exact .productOf (by simpa using ⟨.number _, .call .sqrt (.number _)⟩)
  · exact he

/-- The absolute value of a number has no variables. -/
theorem over_foldAbs (he : e.Over V) : (foldAbs e).Over V := by
  rw [foldAbs]
  split
  · exact .number _
  · exact he

end Folding

/-! ## Patterns about functions -/

namespace Totient

/-- The totient of a power of a prime has the variables of the exponent. -/
theorem over_ofPrimePower (he : e.Over V) : (ofPrimePower e).Over V := by
  unfold ofPrimePower
  split
  · next b k harg =>
    obtain ⟨hb, hk⟩ := (he.of_argOf? harg).of_power
    split
    · next p k' _ hlower =>
      have hk' : k'.Over V := by
        unfold loweredExponent? at hlower
        split at hlower
        · split_ifs at hlower
          exact Option.some.inj hlower ▸ .number _
        · cases hlower
        · exact Option.some.inj hlower ▸ .sumOf (by simpa using ⟨hk, .number _⟩)
      exact .productOf (by simpa using ⟨.power hb hk', .number _⟩)
    · exact he
  · exact he

/-- The totient of a prime has no variables. -/
theorem over_ofPrime (he : e.Over V) : (ofPrime e).Over V := by
  unfold ofPrime
  split
  · exact .number _
  · exact he

/-- The totient of an integer has no variables. -/
theorem over_ofInteger (he : e.Over V) : (ofInteger e).Over V := by
  unfold ofInteger
  split
  · exact .number _
  · exact he

end Totient

/-- The argument of an argument. -/
theorem Expr.Over.of_bind_argOf? {f g : Func} {a : Expr} (he : e.Over V)
    (h : (e.argOf? f).bind (Expr.argOf? g) = some a) : a.Over V := by
  obtain ⟨b, hb, ha⟩ := Option.bind_eq_some_iff.mp h
  exact (he.of_argOf? hb).of_argOf? ha

namespace ExpLog

/-- The known values of the exponential function have no variables. -/
theorem over_expSpecial (he : e.Over V) : (expSpecial e).Over V := by
  unfold expSpecial
  split
  · split_ifs
    · exact .number 1
    · exact he
  · exact he

/-- The known values of the logarithm have no variables. -/
theorem over_lnSpecial (he : e.Over V) : (lnSpecial e).Over V := by
  unfold lnSpecial
  split
  · split_ifs
    · exact .number 0
    · exact .number 1
    · exact he
  · exact he

end ExpLog

namespace Trigonometry

/-- The known values of trigonometric functions have no variables. -/
theorem over_specialValues (he : e.Over V) : (specialValues e).Over V := by
  unfold specialValues
  split
  · next f a =>
    have hzero : ∀ r, atZero? f = some r → r.Over V := by
      intro r hr
      unfold atZero? at hr
      split at hr <;> cases hr <;> exact .number _
    have hpi : ∀ r, atPi? f = some r → r.Over V := by
      intro r hr
      unfold atPi? at hr
      split at hr <;> cases hr <;> exact .number _
    split_ifs
    · exact .getD he hzero
    · exact .getD he hpi
    · exact he
  · exact he

/-- A sign that is moved out of an argument brings in no variables. -/
theorem over_parity (he : e.Over V) : (parity e).Over V := by
  unfold parity
  split
  · next f a =>
    have ha : a.Over V := by
      cases he with
      | apply _ hes => exact (hes (.neg a) (by simp)).of_neg
    split
    all_goals first | exact .neg (.call _ ha) | exact .call _ ha | exact he
  · exact he

/-- What is left of a function and its inverse has the variables of the argument. -/
theorem over_inverseComposition (he : e.Over V) : (inverseComposition e).Over V := by
  refine .getD he fun r hr => ?_
  obtain ⟨⟨f, g⟩, -, h⟩ := List.exists_of_findSome?_eq_some hr
  exact he.of_bind_argOf? h

/-- The rest of a sum in which two squares add up to one has no new variables. -/
theorem over_pythagorean (he : e.Over V) : (pythagorean e).Over V := by
  unfold pythagorean
  split
  · next terms =>
    split
    · refine .sumOf (List.forall_mem_append.mpr ⟨List.forall_mem_map.mpr ?_, ?_⟩)
      · rintro ⟨t, i⟩ ht
        obtain ⟨hi, hget⟩ := List.mem_zipIdx' (List.mem_of_mem_filter ht)
        exact he.of_mem_sum t (hget ▸ List.getElem_mem hi)
      · exact List.forall_mem_singleton.mpr (.number 1)
    · exact he
  · exact he

end Trigonometry

/-! ## Passes -/

/-- A bottom-up transformation brings in no variables when it does not at any node. -/
theorem Expr.Over.mapBottomUp {f : Expr → Expr} (hf : ∀ e, e.Over V → (f e).Over V)
    (he : e.Over V) : (e.mapBottomUp f).Over V := by
  induction he with
  | number n => exact hf _ (.number n)
  | var hv => exact hf _ (.var hv)
  | boolean b => exact hf _ (.boolean b)
  | sum _ ih =>
    rw [mapBottomUp_sum]
    exact hf _ (.sum (List.forall_mem_map.mpr ih))
  | product _ ih =>
    rw [mapBottomUp_product]
    exact hf _ (.product (List.forall_mem_map.mpr ih))
  | apply g _ ih =>
    rw [mapBottomUp_apply]
    exact hf _ (.apply g (List.forall_mem_map.mpr ih))
  | neg _ ih => exact hf _ (.neg ih)
  | not _ ih => exact hf _ (.not ih)
  | power _ _ iha ihb => exact hf _ (.power iha ihb)
  | div _ _ iha ihb => exact hf _ (.div iha ihb)
  | and _ _ iha ihb => exact hf _ (.and iha ihb)
  | or _ _ iha ihb => exact hf _ (.or iha ihb)
  | compare r _ _ iha ihb => exact hf _ (.compare r iha ihb)

namespace Pattern

/-- No pattern of the library brings in variables. -/
theorem over_apply {p : Pattern} (hp : p ∈ library) (he : e.Over V) : (p.apply e).Over V := by
  simp only [library, numberTheory, arithmetic, expLog, trigonometry, List.cons_append,
    List.nil_append, List.mem_cons, List.not_mem_nil, or_false] at hp
  rcases hp with rfl | rfl | rfl | rfl | rfl | rfl | rfl | rfl | rfl | rfl | rfl | rfl | rfl | rfl
    | rfl | rfl | rfl | rfl
  · exact Totient.over_ofPrimePower he
  · exact Totient.over_ofPrime he
  · exact Totient.over_ofInteger he
  · exact Folding.over_foldSum he
  · exact Folding.over_foldProduct he
  · exact Folding.over_foldPower he
  · exact Folding.over_foldNeg he
  · exact Folding.over_foldDiv he
  · exact Folding.over_foldSqrt he
  · exact Folding.over_foldAbs he
  · exact ExpLog.over_expSpecial he
  · exact ExpLog.over_lnSpecial he
  · exact .getD he fun _ => he.of_bind_argOf?
  · exact .getD he fun _ => he.of_bind_argOf?
  · exact Trigonometry.over_specialValues he
  · exact Trigonometry.over_parity he
  · exact Trigonometry.over_inverseComposition he
  · exact Trigonometry.over_pythagorean he

/-- Visiting a node brings in no variables. -/
theorem over_foldl_step {ps : List Pattern} (hps : ∀ p ∈ ps, p ∈ library) (he : e.Over V) :
    (ps.foldl step e).Over V :=
  foldl_step_induction (P := Expr.Over V) (fun p hp _ => over_apply (hps p hp)) he

/-- A pass brings in no variables. -/
theorem over_pass (he : e.Over V) : (pass library e).Over V :=
  he.mapBottomUp fun _ => over_foldl_step fun _ => id

/-- Repeated passes bring in no variables. -/
theorem over_normalizeWithin (limit : ℕ) (he : e.Over V) :
    (normalizeWithin library limit e).expr.Over V :=
  normalizeWithin_induction (P := Expr.Over V) (fun _ => over_pass) limit he

end Pattern

namespace Expr

/-- The normal form has no other variables than the expression. -/
theorem Over.normalForm (he : e.Over V) : e.normalForm.Over V := Pattern.over_normalizeWithin _ he

/-- The normal form has no sets if the expression has none. -/
theorem SetFree.normalForm (he : e.SetFree) : e.normalForm.SetFree :=
  (he.over (V := fun _ => True) fun _ _ => trivial).normalForm.setFree

end Expr

end SymbolicAlgebra
