import SymbolicAlgebra.Proofs.Arithmetic.Decimal
import SymbolicAlgebra.Proofs.Arithmetic.ExactNumber

/-!
# The order of the tower

Exact numbers are compared as rationals. Where a real takes part, both numbers are compared as
decimals, and an exact number is rounded to fifty digits first. So the order of the tower is the
order of the values on the exact numbers, on the numbers that decimals hold, and wherever the values
are farther apart than the rounding; on each of the first two families it is a total preorder.
Across them it is not: `1 / 3` and its decimal are equal, although the decimal is smaller.
-/

namespace SymbolicAlgebra

/-- Approximations of numbers that are far enough apart have the order of the numbers. -/
theorem Approximates.cmp_eq {ε x y x' y' : ℚ} (hx : Approximates ε x x') (hy : Approximates ε y y')
    (hfar : ε * (|x| + |y|) < |x - y|) : cmp x' y' = cmp x y := by
  rw [Approximates, abs_le] at hx hy
  rcases lt_or_ge x y with hlt | hle
  · rw [abs_of_neg (sub_neg.mpr hlt)] at hfar
    rw [(cmp_eq_lt_iff _ _).mpr hlt, cmp_eq_lt_iff]
    linarith
  · rw [abs_of_nonneg (sub_nonneg.mpr hle)] at hfar
    have hlt' : y' < x' := by linarith
    have hlt : y < x := by
      refine hle.lt_of_ne ?_
      rintro rfl
      linarith
    rw [(cmp_eq_gt_iff _ _).mpr hlt, (cmp_eq_gt_iff _ _).mpr hlt']

namespace Number

variable {a b c : Number} {p q r : ℚ}

/-- The value of a finite number on the real line. A real stands for its decimal. -/
def value? : Number → Option ℚ
  | .real (.finite d) => some d.toRat
  | a => a.toRat?

/-- Decimals hold the number: its conversion to a real does not change the value. -/
def IsDecimal (a : Number) : Prop :=
  ∃ d : Decimal, a.toReal? = some (.finite d) ∧ a.value? = some d.toRat

/-- The first number is ordered, and not after the second one. -/
def atMost (a b : Number) : Bool := (a.compare? b).any Ordering.isLE

theorem value?_of_toRat? (ha : a.toRat? = some p) : a.value? = some p := by
  obtain ⟨n, rfl, rfl⟩ | rfl := eq_int_or_eq_rat ha <;> rfl

/-- A finite number is exact or a decimal. -/
theorem toRat?_or_real (ha : a.value? = some p) :
    a.toRat? = some p ∨ ∃ d : Decimal, a = .real (.finite d) ∧ d.toRat = p := by
  cases a with
  | int n => exact .inl ha
  | rat s => exact .inl ha
  | real x =>
    cases x with
    | finite d => exact .inr ⟨d, rfl, Option.some.inj ha⟩
    | posInf | negInf | nan => exact absurd ha nofun
  | complex z => exact absurd ha nofun

/-- The decimal of a finite number is accurate, and exact if fifty digits are enough. -/
theorem exists_decimal (ha : a.value? = some p) :
    ∃ d : Decimal, a.toReal? = some (.finite d) ∧ Approximates (2 / 10 ^ 49) p d.toRat ∧
      (a.toRat? = none ∨
        Representable 10 Decimal.precision p ∧ Representable 10 Decimal.precision p.den →
        d.toRat = p) := by
  rcases toRat?_or_real ha with hexact | ⟨d, rfl, rfl⟩
  · have hne : a.toRat? ≠ none := by rw [hexact]; exact Option.some_ne_none p
    obtain ⟨n, rfl, rfl⟩ | rfl := eq_int_or_eq_rat hexact
    · refine ⟨Decimal.ofInt n, rfl, (Decimal.approximates_ofInt n).mono ?_, fun h => ?_⟩
      · rw [Decimal.roundoff_precision]
        norm_num
      · exact Decimal.toRat_ofInt (h.resolve_left hne).1
    · refine ⟨Decimal.ofRat p, rfl, Decimal.approximates_ofRat p, fun h => ?_⟩
      exact Decimal.toRat_ofRat (h.resolve_left hne).2 (h.resolve_left hne).1
  · exact ⟨d, rfl, .refl (by norm_num) _, fun _ => rfl⟩

/-! ## Comparison -/

/-- Numbers that are not both exact are compared as decimals. -/
theorem compare?_eq_of_decimals {x y : Decimal} (hexact : ¬ (a.toRat?.isSome ∧ b.toRat?.isSome))
    (ha : a.toReal? = some (.finite x)) (hb : b.toReal? = some (.finite y)) :
    a.compare? b = some (cmp x.toRat y.toRat) := by
  have horder : a.compare? b = some (x.order y) := by
    rw [compare?]
    split
    · rename_i p q hp hq
      exact absurd ⟨Option.isSome_of_mem hp, Option.isSome_of_mem hq⟩ hexact
    · rw [ha, hb]
      rfl
  rw [horder, Floating.order_eq]

/-- The order of the tower is the order of the values where no rounding can change it. -/
theorem compare?_eq_cmp_value (ha : a.value? = some p) (hb : b.value? = some q)
    (h : a.toRat?.isSome ∧ b.toRat?.isSome ∨ a.IsDecimal ∧ b.IsDecimal ∨
      2 / 10 ^ 49 * (|p| + |q|) < |p - q|) : a.compare? b = some (cmp p q) := by
  by_cases hexact : a.toRat?.isSome ∧ b.toRat?.isSome
  · obtain ⟨p', hp⟩ := Option.isSome_iff_exists.mp hexact.1
    obtain ⟨q', hq⟩ := Option.isSome_iff_exists.mp hexact.2
    obtain rfl : p' = p := Option.some.inj ((value?_of_toRat? hp).symm.trans ha)
    obtain rfl : q' = q := Option.some.inj ((value?_of_toRat? hq).symm.trans hb)
    exact compare?_eq hp hq
  · rcases h.resolve_left hexact with ⟨⟨x, hx, hax⟩, y, hy, hby⟩ | hfar
    · obtain rfl : x.toRat = p := Option.some.inj (hax.symm.trans ha)
      obtain rfl : y.toRat = q := Option.some.inj (hby.symm.trans hb)
      exact compare?_eq_of_decimals hexact hx hy
    · obtain ⟨x, hx, hpx, -⟩ := exists_decimal ha
      obtain ⟨y, hy, hqy, -⟩ := exists_decimal hb
      rw [compare?_eq_of_decimals hexact hx hy, hpx.cmp_eq hqy hfar]

/-- Finite numbers are compared by rationals that stand for them, in both directions. -/
theorem exists_compare?_eq_cmp (ha : a.value? = some p) (hb : b.value? = some q) :
    ∃ x y : ℚ, a.compare? b = some (cmp x y) ∧ b.compare? a = some (cmp y x) := by
  by_cases hexact : a.toRat?.isSome ∧ b.toRat?.isSome
  · exact ⟨p, q, compare?_eq_cmp_value ha hb (.inl hexact),
      compare?_eq_cmp_value hb ha (.inl hexact.symm)⟩
  · obtain ⟨x, hx, -⟩ := exists_decimal ha
    obtain ⟨y, hy, -⟩ := exists_decimal hb
    exact ⟨x.toRat, y.toRat, compare?_eq_of_decimals hexact hx hy,
      compare?_eq_of_decimals (fun h => hexact h.symm) hy hx⟩

theorem atMost_iff (h : a.compare? b = some (cmp p q)) : a.atMost b = true ↔ p ≤ q := by
  rw [atMost, h, Option.any_some, Ordering.isLE_iff_ne_gt, cmp_eq_gt_iff, not_lt]

/-- The order of the tower is the order of the values for two exact numbers, for two numbers that
decimals hold, and for values that are far enough apart. Reals are such decimals, and so are exact
numbers with fifty digits; any other rational stands for its approximation when it is compared with
a real. The order is total, and transitive on exact numbers and on decimals. -/
theorem compare?_isPreorder (ha : a.value? = some p) (hb : b.value? = some q)
    (hc : c.value? = some r) :
    (a.toRat?.isSome ∧ b.toRat?.isSome ∨ a.IsDecimal ∧ b.IsDecimal ∨
      2 / 10 ^ 49 * (|p| + |q|) < |p - q| → a.compare? b = some (cmp p q)) ∧
    (a.toRat? = none ∨
      Representable 10 Decimal.precision p ∧ Representable 10 Decimal.precision p.den →
      a.IsDecimal) ∧
    (∀ d : Decimal, a = .rat p → b = .real (.finite d) →
      a.compare? b = some (cmp (Decimal.ofRat p).toRat d.toRat) ∧
        Approximates (2 / 10 ^ 49) p (Decimal.ofRat p).toRat) ∧
    (a.atMost b ∨ b.atMost a) ∧
    (a.toRat?.isSome ∧ b.toRat?.isSome ∧ c.toRat?.isSome ∨
      a.IsDecimal ∧ b.IsDecimal ∧ c.IsDecimal → a.atMost b → b.atMost c → a.atMost c) := by
  refine ⟨compare?_eq_cmp_value ha hb, fun h => ?_, ?_, ?_, fun h hab hbc => ?_⟩
  · obtain ⟨d, hd, -, hexact⟩ := exists_decimal ha
    exact ⟨d, hd, by rw [ha, hexact h]⟩
  · rintro d rfl rfl
    exact ⟨compare?_eq_of_decimals (fun h => absurd h.2 Bool.false_ne_true) rfl rfl,
      Decimal.approximates_ofRat p⟩
  · obtain ⟨x, y, hab, hba⟩ := exists_compare?_eq_cmp ha hb
    exact (le_total x y).imp (atMost_iff hab).mpr (atMost_iff hba).mpr
  · -- On either family all three comparisons are comparisons of the values.
    have hvalues : a.compare? b = some (cmp p q) ∧ b.compare? c = some (cmp q r) ∧
        a.compare? c = some (cmp p r) := by
      rcases h with ⟨h₁, h₂, h₃⟩ | ⟨h₁, h₂, h₃⟩
      · exact ⟨compare?_eq_cmp_value ha hb (.inl ⟨h₁, h₂⟩),
          compare?_eq_cmp_value hb hc (.inl ⟨h₂, h₃⟩), compare?_eq_cmp_value ha hc (.inl ⟨h₁, h₃⟩)⟩
      · exact ⟨compare?_eq_cmp_value ha hb (.inr (.inl ⟨h₁, h₂⟩)),
          compare?_eq_cmp_value hb hc (.inr (.inl ⟨h₂, h₃⟩)),
          compare?_eq_cmp_value ha hc (.inr (.inl ⟨h₁, h₃⟩))⟩
    rw [atMost_iff hvalues.1] at hab
    rw [atMost_iff hvalues.2.1] at hbc
    exact (atMost_iff hvalues.2.2).mpr (hab.trans hbc)

/-- A quarter equals its decimal, and is at most what its decimal is at most. -/
theorem compare?_isPreorder_quarter :
    (Number.rat (1 / 4)).compare? (.real (.finite (Floating.ofParts 25 (-2)))) = some .eq ∧
      (Number.rat (1 / 4)).atMost (.int (10 ^ 60)) = true := by
  have hb : (Number.real (.finite (Floating.ofParts 25 (-2)))).value? = some (1 / 4) := by
    decide +kernel
  have hc : (Number.int (10 ^ 60)).value? = some (10 ^ 60) := by decide +kernel
  obtain ⟨hcompare, ha, -, -, htrans⟩ := compare?_isPreorder (a := .rat (1 / 4)) rfl hb hc
  obtain ⟨hbc, hb', -⟩ := compare?_isPreorder hb hc hc
  obtain ⟨-, hc', -⟩ := compare?_isPreorder hc hc hc
  have ha := ha (.inr ⟨⟨25, -2, by decide, by norm_num⟩, 4, 0, by decide, by decide +kernel⟩)
  have hb' := hb' (.inl rfl)
  have hc' := hc' (.inr ⟨⟨1, 60, by decide, by norm_num⟩, 1, 0, by decide, by decide +kernel⟩)
  have hab := hcompare (.inr (.inl ⟨ha, hb'⟩))
  refine ⟨by rw [hab, cmp_self_eq_eq], htrans (.inr ⟨ha, hb', hc'⟩) ?_ ?_⟩
  · exact (atMost_iff hab).mpr le_rfl
  · exact (atMost_iff (hbc (.inr (.inl ⟨hb', hc'⟩)))).mpr (by norm_num)

/-- A third equals the decimal with fifty threes, which is smaller, and which equals the rational of
the same value: the order is not transitive across the levels. -/
theorem compare?_third_of_fifty_threes :
    (Number.rat (1 / 3)).compare? (.real (.finite (Floating.ofParts (10 ^ 50 / 3) (-50)))) =
        some .eq ∧
      (Floating.ofParts (10 ^ 50 / 3) (-50) : Decimal).toRat < 1 / 3 ∧
      (Number.real (.finite (Floating.ofParts (10 ^ 50 / 3) (-50)))).compare?
        (.rat ((10 ^ 50 - 1) / 3 / 10 ^ 50)) = some .eq ∧
      (Number.rat (1 / 3)).compare? (.rat ((10 ^ 50 - 1) / 3 / 10 ^ 50)) = some .gt := by
  decide +kernel

end Number

end SymbolicAlgebra
