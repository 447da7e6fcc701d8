import Mathlib.Data.Rat.Sqrt
import SymbolicAlgebra.Proofs.Expr.Specialization
import SymbolicAlgebra.Proofs.Simplify.RootForm

/-!
# Normal forms with a square root

The square root of a field expression has no value in the rationals in general, but it has one where
the expression under it is the square of a rational. `Expr.rootValue?` is the exact value where such
roots count.

`Expr.IsRadical ρ w s v e` says how an expression with at most one square root comes to its value `v`:
it is a field expression with this value, or one with the square root in the place of the variable
`w`, and `s` is what the square root is worth. Patterns keep this, in passes of any number. As long as
the expression under the square root is no number, a pass goes on around it as around a variable. Once
it is a number, it is the square of `s`, and the pass replaces the square root by `s`. So the normal
form has the value of the expression, whichever pass that happens in.
-/

namespace SymbolicAlgebra

variable {ρ : Assignment} {w : String} {s v : ℚ} {d e : Expr}

/-- The nonnegative root of the square of a rational. -/
def rationalRoot? (q : ℚ) : Option ℚ :=
  if Rat.sqrt q * Rat.sqrt q = q then some (Rat.sqrt q) else none

/-- The root of a square is the nonnegative one. -/
theorem rationalRoot?_mul_self (hs : 0 ≤ s) : rationalRoot? (s * s) = some s := by
  rw [rationalRoot?, Rat.sqrt_eq, abs_of_nonneg hs, if_pos rfl]

namespace Expr

/-! ## Values of square roots -/

/-- A square root with a rational value is replaced by this value; other nodes stay. -/
def takeRoot (ρ : Assignment) (node : Expr) : Expr :=
  match (node.argOf? .sqrt).bind fun d => (d.exactValue? ρ).bind rationalRoot? with
  | some s => .rat s
  | none => node

/-- The value in exact arithmetic, where the square roots of squares have their values too. -/
def rootValue? (ρ : Assignment) (e : Expr) : Option ℚ :=
  (e.mapBottomUp (takeRoot ρ)).exactValue? ρ

/-- A field expression is no square root. -/
theorem Defined.takeRoot_eq_self (h : e.Defined ρ) : takeRoot ρ e = e := by
  rw [takeRoot, h.isField.argOf?_eq_none]
  rfl

/-- The square root of a square is replaced by the nonnegative root. -/
theorem takeRoot_sqrt (hd : d.Defined ρ) (hv : d.value ρ = s * s) (hs : 0 ≤ s) :
    takeRoot ρ (.call .sqrt d) = .rat s := by
  have harg : (Expr.call .sqrt d).argOf? .sqrt = some d := rfl
  rw [takeRoot, harg, Option.bind_some, hd.exactValue?_eq, Option.bind_some, hv,
    rationalRoot?_mul_self hs]

/-- There are no roots to be taken in a field expression. -/
theorem Defined.rootValue?_eq (h : e.Defined ρ) : e.rootValue? ρ = some (e.value ρ) := by
  rw [rootValue?, h.mapBottomUp_eq_self fun e he => he.takeRoot_eq_self, h.exactValue?_eq]

/-- A square root counts as its value. -/
theorem Defined.rootValue?_withRoot (h : e.Defined (Function.update ρ w s)) (hd : d.Defined ρ)
    (hv : d.value ρ = s * s) (hs : 0 ≤ s) :
    (e.withRoot w d).rootValue? ρ = some (e.value (Function.update ρ w s)) := by
  obtain ⟨hdef, hvalue⟩ := Defined.substitute_update (.rat s) (value_rat s) h
  have hself : ∀ e : Expr, e.Defined ρ → takeRoot ρ e = e := fun e he => he.takeRoot_eq_self
  have hroot : mapBottomUp (takeRoot ρ) (.call .sqrt d) = mapBottomUp (takeRoot ρ) (.rat s) := by
    rw [call, mapBottomUp_apply, List.map_singleton, hd.mapBottomUp_eq_self hself,
      Defined.mapBottomUp_eq_self hself (.rat s)]
    exact takeRoot_sqrt hd hv hs
  have hsame : (e.withRoot w d).mapBottomUp (takeRoot ρ) =
      (e.substitute w (.rat s)).mapBottomUp (takeRoot ρ) := h.mapBottomUpM_substitute hroot
  rw [rootValue?, hsame, ← hvalue]
  exact hdef.rootValue?_eq

/-- Roots in roots count too, but not the one of a number that is no square. -/
example : (1 + .call .sqrt (.var "x" + .call .sqrt (.var "x")) : Expr).rootValue? (fun _ => 9 / 16) =
    none ∧ (1 + .call .sqrt (.var "x" * .call .sqrt 16) : Expr).rootValue? (fun _ => 9 / 16) =
      some (5 / 2) := by
  decide +kernel

/-! ## Expressions with at most one square root -/

/-- The expression is defined with the value `v`, or it has a square root with the value `s` in the
place of the variable `w`, and the value `v` where `w` is `s`. -/
inductive IsRadical (ρ : Assignment) (w : String) (s v : ℚ) : Expr → Prop
  | plain {e : Expr} (he : e.Defined ρ) (hv : e.value ρ = v) : IsRadical ρ w s v e
  | root {e d : Expr} (he : e.Defined (Function.update ρ w s))
      (hv : e.value (Function.update ρ w s) = v) (hd : d.Defined ρ) (hs : d.value ρ = s * s) :
      IsRadical ρ w s v (e.withRoot w d)

namespace IsRadical

/-- What has a value in this sense is evaluated to it. -/
theorem rootValue?_eq (h : e.IsRadical ρ w s v) (hs : 0 ≤ s) : e.rootValue? ρ = some v := by
  cases h with
  | plain he hv => rw [he.rootValue?_eq, hv]
  | root he hv hd hsq => rw [he.rootValue?_withRoot hd hsq hs, hv]

/-- The square root itself. -/
theorem sqrt (hd : d.Defined ρ) (hs : d.value ρ = s * s) :
    (Expr.call .sqrt d).IsRadical ρ w s s := by
  rw [← withRoot_var_self (w := w)]
  exact .root (.var w) (by rw [value_var, Function.update_self]) hd hs

/-- A sign can stand before the square root. -/
theorem neg (h : e.IsRadical ρ w s v) : (-e).IsRadical ρ w s (-v) := by
  cases h with
  | plain he hv => exact .plain he.neg (by rw [← hv]; rfl)
  | @root e d he hv hd hs =>
    rw [show -e.withRoot w d = (-e).withRoot w d from (withRoot_neg e).symm]
    exact .root he.neg (by rw [← hv]; rfl) hd hs

/-- Operands without the variable can stand around the square root. -/
theorem add_div {a b : Expr} (h : e.IsRadical ρ w s v) (ha : a.Defined ρ) (hb : b.Defined ρ)
    (hwa : a.containsVar w = false) (hwb : b.containsVar w = false) (hne : b.value ρ ≠ 0) :
    ((a + e) / b).IsRadical ρ w s ((a.value ρ + v) / b.value ρ) := by
  -- The value of the quotient, at any assignment.
  have hquotient : ∀ {σ : Assignment} {e : Expr}, a.Defined σ → e.Defined σ → b.Defined σ →
      b.value σ ≠ 0 → ((a + e) / b).Defined σ ∧
        ((a + e) / b).value σ = (a.value σ + e.value σ) / b.value σ := by
    intro σ e ha he hb hne
    refine ⟨.div (.sum (by simpa using ⟨ha, he⟩)) hb hne, ?_⟩
    change (Expr.div (.sum [a, e]) b).value σ = _
    rw [value_div, value_sum, List.map_cons, List.map_singleton, List.sum_pair]
  cases h with
  | plain he hv =>
    obtain ⟨hd, hval⟩ := hquotient ha he hb hne
    exact .plain hd (by rw [hval, hv])
  | @root e d he hv hd hs =>
    obtain ⟨ha', hva⟩ := ha.update hwa s
    obtain ⟨hb', hvb⟩ := hb.update hwb s
    have hroot : (a + e.withRoot w d) / b = ((a + e) / b).withRoot w d := by
      change Expr.div (.sum [a, e.withRoot w d]) b = (Expr.div (.sum [a, e]) b).withRoot w d
      rw [withRoot_div, withRoot_sum, List.map_cons, List.map_singleton, withRoot, withRoot,
        substitute_of_not_containsVar w _ hwa, withRoot, substitute_of_not_containsVar w _ hwb]
    obtain ⟨hd', hval⟩ := hquotient ha' he hb' (by rwa [hvb])
    rw [hroot]
    exact .root hd' (by rw [hval, hva, hvb, hv]) hd hs

end IsRadical

end Expr

/-! ## Passes -/

namespace Pattern

/-- Patterns that do not fit a node leave it alone, one after the other. -/
theorem foldlM_checkedStep_eq_self {ps : List Pattern} {node : Expr}
    (hps : ∀ p ∈ ps, p.apply node = node) (ho : Folding.overflows node = false) :
    ps.foldlM checkedStep node = some node := by
  induction ps with
  | nil => rfl
  | cons p ps ih =>
    obtain ⟨hp, hps⟩ := List.forall_mem_cons.mp hps
    have hstep : checkedStep node p = some node :=
      checkedStep_eq_some_iff.mpr ⟨fun _ => ho, by rw [step, hp, ite_self]⟩
    rw [List.foldlM_cons, hstep]
    exact ih hps

/-- The first pattern that fits a node has the last word when it makes a number of it. -/
theorem foldlM_checkedStep_eq_number {before after : List Pattern} {p : Pattern} {node : Expr}
    {n : Number} (hlib : library = before ++ p :: after) (hbefore : ∀ q ∈ before, q.apply node = node)
    (ho : Folding.overflows node = false) (hp : p.apply node = .number n) :
    library.foldlM checkedStep node = some (.number n) := by
  have hstep : step node p = .number n := by
    rw [step, hp]
    split_ifs with hsame
    · exact (((Expr.SetFree.number n).beq_iff node).mp hsame).symm
    · rfl
  have hafter : ∀ q ∈ after, q ∈ library := fun q hq => by rw [hlib]; simp [hq]
  rw [hlib, List.foldlM_append, foldlM_checkedStep_eq_self hbefore ho, Option.bind_eq_bind,
    Option.bind_some, List.foldlM_cons, checkedStep_eq_some_iff.mpr ⟨fun _ => ho, hstep⟩]
  exact foldlM_checkedStep_number hafter n

/-- The square root of a square becomes a number. -/
theorem foldlM_checkedStep_sqrt {n : Number} (hn : n.toRat? = some (s * s)) (hs : 0 ≤ s) :
    library.foldlM checkedStep (.call .sqrt (.number n)) = some (.rat s) := by
  have hnumberTheory : ∀ p ∈ numberTheory,
      p.apply (.call .sqrt (.number n)) = .call .sqrt (.number n) := by
    intro p hp
    have hself := apply_withRoot_of_function (p := p) (w := "w") (d := .number n) (by simp [hp])
      (.var (ρ := fun _ => 0) "w")
    rwa [Expr.withRoot_var_self] at hself
  have hlib : library = (numberTheory ++ [⟨"fold-sum", Folding.foldSum⟩,
      ⟨"fold-product", Folding.foldProduct⟩, ⟨"fold-power", Folding.foldPower⟩,
      ⟨"fold-neg", Folding.foldNeg⟩, ⟨"fold-div", Folding.foldDiv⟩]) ++
      ⟨"fold-sqrt", Folding.foldSqrt⟩ :: ⟨"fold-abs", Folding.foldAbs⟩ ::
        (expLog ++ trigonometry) := rfl
  refine foldlM_checkedStep_eq_number hlib (List.forall_mem_append.mpr ⟨hnumberTheory, ?_⟩) rfl ?_
  · simp [Expr.call, Folding.foldSum, Folding.foldProduct, Folding.foldPower, Folding.foldNeg,
      Folding.foldDiv]
  · exact (Folding.foldSqrt_square hn).trans (by rw [abs_of_nonneg hs]; rfl)

theorem checkedPass_number (n : Number) : checkedPass library (.number n) = some (.number n) :=
  foldlM_checkedStep_number (fun _ => id) n

/-- A pass over a call visits its argument first and then the call. -/
theorem checkedPass_call (ps : List Pattern) (f : Func) (d : Expr) :
    checkedPass ps (.call f d) =
      (checkedPass ps d).bind fun d' => ps.foldlM checkedStep (.call f d') := by
  change ((checkedPass ps d >>= fun d' => some [d']) >>= fun es =>
    ps.foldlM checkedStep (.apply f es)) = _
  cases checkedPass ps d <;> rfl

/-- Once the expression under a square root is a number, the pass makes the square root one too. -/
theorem checkedPass_sqrt {n : Number} (hd : checkedPass library d = some (.number n))
    (hn : n.toRat? = some (s * s)) (hs : 0 ≤ s) :
    checkedPass library (.call .sqrt d) = checkedPass library (.rat s) := by
  rw [checkedPass_call, hd, Option.bind_some, foldlM_checkedStep_sqrt hn hs]
  exact (checkedPass_number _).symm

/-- A pass does not tell apart what it makes the same of. -/
theorem checkedPass_substitute {ps : List Pattern} {ρ : Assignment} {e t t' : Expr}
    (he : e.Defined ρ) (h : checkedPass ps t = checkedPass ps t') :
    checkedPass ps (e.substitute w t) = checkedPass ps (e.substitute w t') :=
  he.mapBottomUpM_substitute h

/-- A pass keeps what the expression is worth. -/
theorem checkedPass_isRadical {e' : Expr} (h : e.IsRadical ρ w s v) (hs : 0 ≤ s)
    (hpass : checkedPass library e = some e') : e'.IsRadical ρ w s v := by
  have hplain : ∀ {e : Expr}, e.Defined ρ → e.value ρ = v → checkedPass library e = some e' →
      e'.IsRadical ρ w s v := by
    intro e he hv hpass
    obtain ⟨hdef, hval⟩ := checkedPass_refines hpass ρ he
    exact .plain hdef (hval.trans hv)
  cases h with
  | plain he hv => exact hplain he hv hpass
  | @root e d he hv hd hsq =>
    -- With `d'` in the place of `d`, if the pass does not make a number of it.
    have hkept : ∀ {d' : Expr}, (∀ x, checkedPass library d = some x → x = d') → d'.Defined ρ →
        d'.value ρ = s * s → d'.toNumber? = none → e'.IsRadical ρ w s v := by
      intro d' hx hd' hsq' hnum
      obtain ⟨r, hr, rfl⟩ := exists_checkedPass_withRoot hd'.setFree hnum hx he hpass
      obtain ⟨hdef, hval⟩ := checkedPass_refines hr _ he
      exact .root hdef (hval.trans hv) hd' hsq'
    cases hpassd : checkedPass library d with
    | none =>
      refine hkept (by simp [hpassd]) hd hsq ?_
      cases hd with
      | @number n q hq => exact absurd hpassd (by simp [checkedPass_number])
      | _ => rfl
    | some d' =>
      obtain ⟨hd', hsq'⟩ := checkedPass_refines hpassd ρ hd
      rw [hsq] at hsq'
      cases hnum : d'.toNumber? with
      | none => exact hkept (by simp [hpassd]) hd' hsq' hnum
      | some n =>
        -- The pass folds the square root to `s`, as if `s` had been there before.
        obtain rfl := Expr.eq_number_of_toNumber? hnum
        obtain ⟨q, hq⟩ := hd'.exists_toRat?
        obtain rfl : q = s * s := (Expr.value_number hq).symm.trans hsq'
        obtain ⟨hdef, hval⟩ := Expr.Defined.substitute_update (.rat s) (Expr.value_rat s) he
        refine hplain hdef (hval.trans hv) ?_
        rw [← checkedPass_substitute he (checkedPass_sqrt hpassd hq hs)]
        exact hpass

/-- Passes that are repeated keep what the expression is worth. -/
theorem checkedNormalize_isRadical {e' : Expr} {limit : ℕ} (h : e.IsRadical ρ w s v) (hs : 0 ≤ s)
    (hn : checkedNormalize library limit e = some e') : e'.IsRadical ρ w s v := by
  induction limit generalizing e with
  | zero =>
    obtain rfl : e = e' := Option.some.inj hn
    exact h
  | succ limit ih =>
    obtain ⟨next, hpass, hn⟩ := Option.bind_eq_some_iff.mp hn
    split_ifs at hn
    · obtain rfl : e = e' := Option.some.inj hn
      exact h
    · exact ih (checkedPass_isRadical h hs hpass) hn

end Pattern

/-- The normal form of an expression with a square root is worth what the expression is. -/
theorem Expr.IsRadical.normalForm (h : e.IsRadical ρ w s v) (hs : 0 ≤ s)
    (hexact : e.normalizesExactly = true) : e.normalForm.IsRadical ρ w s v :=
  Pattern.checkedNormalize_isRadical h hs (checkedNormalize_of_normalizesExactly hexact)

end SymbolicAlgebra
