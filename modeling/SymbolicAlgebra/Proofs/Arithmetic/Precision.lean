import SymbolicAlgebra.Arithmetic.Literal
import SymbolicAlgebra.Proofs.Arithmetic.Decimal
import SymbolicAlgebra.Proofs.Arithmetic.Digits

/-!
# Precision of computed reals

Reals are computed with fifty digits, and a finite real has fifty-one digits at most however it was
computed: `ExtReal.digits_le_of_computed`. The fifty-first digit comes from two sources only:

* a difference of decimals with different exponents, which is formed with one digit more;
* a quotient whose dividend has the smaller significand, which may get one digit more.

Neither is rounded afterwards. Computations in which these differences and quotients happen to be
short stay within fifty digits. `ExtReal.digits_of_nine_elevenths` shows one long result of each kind.

The bound is an invariant of the single operations, `ExtReal.FitsIn`, and of whole computations by
induction on them, `ExtReal.Computed.fitsIn`.
-/

namespace SymbolicAlgebra

namespace ExtReal

open Floating Decimal

/-! ## Operations on reals -/

/-- A finite real has at most `q` digits. -/
def FitsIn (q : ℕ) (x : ExtReal) : Prop := ∀ d, x = .finite d → d.digits ≤ q

variable {q : ℕ} {x y : ExtReal}

/-- A finite number fits if its digits do. -/
theorem fitsIn_finite {d : Decimal} : FitsIn q (.finite d) ↔ d.digits ≤ q :=
  ⟨fun h => h d rfl, by rintro h _ ⟨⟩; exact h⟩

/-- A double is rounded to the precision. -/
theorem fitsIn_ofDouble (hq : precision ≤ q) (x : Float) : FitsIn q (ofDouble x) := by
  rw [ofDouble]
  split_ifs
  · rintro _ ⟨⟩
  · rintro _ ⟨⟩
  · rintro _ ⟨⟩
  · exact fitsIn_finite.mpr ((digits_ofDouble_le x).trans ((by decide : 20 ≤ precision).trans hq))

/-- A literal is rounded to the precision. -/
theorem fitsIn_parseReal? (hq : precision ≤ q) {text : String}
    (h : Literal.parseReal? text = some x) : FitsIn q x := by
  obtain ⟨d, hd, rfl⟩ := Option.map_eq_some_iff.mp h
  rw [Literal.decimal?] at hd
  obtain ⟨⟨body, e⟩, -, hd⟩ := Option.bind_eq_some_iff.mp hd
  obtain ⟨⟨n, places⟩, -, rfl⟩ := Option.map_eq_some_iff.mp hd
  exact fitsIn_finite.mpr ((digits_round_le (by decide) _).trans hq)

theorem FitsIn.negate (hx : FitsIn q x) : FitsIn q x.negate := by
  cases x with
  | finite a => exact fitsIn_finite.mpr ((digits_negate a).trans_le (fitsIn_finite.mp hx))
  | _ => rintro _ ⟨⟩

theorem FitsIn.abs (hx : FitsIn q x) : FitsIn q x.abs := by
  rw [ExtReal.abs]
  split_ifs
  · exact hx.negate
  · exact hx

/-- A square root is rounded to the precision. -/
theorem fitsIn_sqrt (hq : precision ≤ q) (x : ExtReal) : FitsIn q x.sqrt := by
  cases x with
  | finite a =>
    rw [ExtReal.sqrt]
    split_ifs
    · rintro _ ⟨⟩
    · exact fitsIn_finite.mpr ((digits_squareRoot_le (by decide) a).trans hq)
  | _ => rintro _ ⟨⟩

/-- A sum fits if the sum of the finite parts does. -/
theorem fitsIn_add (h : ∀ a b, x = .finite a → y = .finite b → (Decimal.add a b).digits ≤ q) :
    FitsIn q (x.add y) := by
  cases x <;> cases y
  case finite.finite a b => exact fitsIn_finite.mpr (h a b rfl rfl)
  all_goals rintro _ ⟨⟩

/-- A product is rounded to the precision. -/
theorem fitsIn_mul (hq : precision ≤ q) (x y : ExtReal) : FitsIn q (x.mul y) := by
  unfold ExtReal.mul
  split
  · exact fitsIn_finite.mpr ((digits_multiply_le (by decide) _ _).trans hq)
  · rintro _ ⟨⟩
  · rintro _ ⟨⟩
  · split_ifs <;> rintro _ ⟨⟩

/-- A quotient fits if the quotient of the finite parts does. -/
theorem fitsIn_div (h : ∀ a b, x = .finite a → y = .finite b → b.significand ≠ 0 →
    (Decimal.div a b).digits ≤ q) : FitsIn q (x.div y) := by
  unfold ExtReal.div
  cases hzero : y.isZero with
  | true => rintro _ ⟨⟩
  | false =>
    rw [if_neg Bool.false_ne_true]
    split
    · rename_i a b
      exact fitsIn_finite.mpr (h a b rfl rfl (bne_iff_ne.mp (congrArg not hzero)))
    · rintro _ ⟨⟩
    · rintro _ ⟨⟩
    · exact fitsIn_finite.mpr (digits_zero.trans_le (Nat.zero_le q))
    · split_ifs <;> rintro _ ⟨⟩
    · rintro _ ⟨⟩

/-! ## Computations -/

/-- The reals that are reached from whole numbers, fractions, doubles and literals by the arithmetic
operations. Sums of two decimals are formed where `sums` holds of them, and quotients where
`quotients` does. -/
inductive Computed (sums quotients : Decimal → Decimal → Prop) : ExtReal → Prop
  | ofInt (n : ℤ) : Computed sums quotients (ofInt n)
  | ofRat (r : ℚ) (h : quotients (Decimal.ofInt r.num) (Decimal.ofInt r.den)) :
      Computed sums quotients (ofRat r)
  | ofDouble (x : Float) : Computed sums quotients (ofDouble x)
  | parse {text : String} {x : ExtReal} (h : Literal.parseReal? text = some x) :
      Computed sums quotients x
  | add {x y : ExtReal} (hx : Computed sums quotients x) (hy : Computed sums quotients y)
      (h : ∀ a b, x = .finite a → y = .finite b → sums a b) : Computed sums quotients (x.add y)
  | sub {x y : ExtReal} (hx : Computed sums quotients x) (hy : Computed sums quotients y)
      (h : ∀ a b, x = .finite a → y = .finite b → sums a b.negate) :
      Computed sums quotients (x.sub y)
  | mul {x y : ExtReal} (hx : Computed sums quotients x) (hy : Computed sums quotients y) :
      Computed sums quotients (x.mul y)
  | div {x y : ExtReal} (hx : Computed sums quotients x) (hy : Computed sums quotients y)
      (h : ∀ a b, x = .finite a → y = .finite b → quotients a b) : Computed sums quotients (x.div y)
  | negate {x : ExtReal} (hx : Computed sums quotients x) : Computed sums quotients x.negate
  | abs {x : ExtReal} (hx : Computed sums quotients x) : Computed sums quotients x.abs
  | sqrt {x : ExtReal} (hx : Computed sums quotients x) : Computed sums quotients x.sqrt

variable {sums quotients : Decimal → Decimal → Prop}

/-- A bound on the digits is kept by every computation whose sums and quotients keep it. -/
theorem Computed.fitsIn (hq : precision ≤ q)
    (hsums : ∀ a b : Decimal, a.digits ≤ q → b.digits ≤ q → sums a b →
      (Decimal.add a b).digits ≤ q)
    (hquotients : ∀ a b : Decimal, a.digits ≤ q → b.significand ≠ 0 → quotients a b →
      (Decimal.div a b).digits ≤ q)
    (h : Computed sums quotients x) : FitsIn q x := by
  induction h with
  | ofInt n => exact fitsIn_finite.mpr ((digits_ofInt_le n).trans hq)
  | ofRat r h =>
    have hden : (Decimal.ofInt r.den).significand ≠ 0 :=
      significand_ofInt_ne_zero (Int.natCast_ne_zero.mpr r.den_ne_zero)
    exact fitsIn_finite.mpr (hquotients _ _ ((digits_ofInt_le r.num).trans hq) hden h)
  | ofDouble x => exact fitsIn_ofDouble hq x
  | parse h => exact fitsIn_parseReal? hq h
  | add _ _ h ihx ihy =>
    exact fitsIn_add fun a b hx hy => hsums a b (ihx a hx) (ihy b hy) (h a b hx hy)
  | @sub x y _ _ h ihx ihy =>
    -- The subtrahend was negated, but the side condition names it as it was computed.
    refine fitsIn_add fun a b hx hb => hsums a b (ihx a hx) (ihy.negate b hb) ?_
    cases y <;> cases hb
    exact h a _ hx rfl
  | mul _ _ _ _ => exact fitsIn_mul hq _ _
  | div _ _ h ihx _ =>
    exact fitsIn_div fun a b hx hy hb => hquotients a b (ihx a hx) hb (h a b hx hy)
  | negate _ ih => exact ih.negate
  | abs _ ih => exact ih.abs
  | sqrt _ _ => exact fitsIn_sqrt hq _

/-- The sum is within the working precision, or it is not a difference of aligned decimals. -/
def IsShortSum (a b : Decimal) : Prop :=
  IsShiftedDifference a b → (Decimal.add a b).digits ≤ precision

/-- The quotient is within the working precision, or its dividend is not the smaller one. -/
def IsShortQuotient (a b : Decimal) : Prop :=
  HasLongQuotient a b → (Decimal.div a b).digits ≤ precision

instance (a b : Decimal) : Decidable (IsShortSum a b) := inferInstanceAs (Decidable (_ → _))

instance (a b : Decimal) : Decidable (IsShortQuotient a b) := inferInstanceAs (Decidable (_ → _))

/-- A computed decimal has at most one digit more than the working precision. It is within the
precision if the differences of aligned decimals and the quotients with the smaller dividend are,
from which it was computed. A product and a square root are within the precision whatever the
operands are. -/
theorem digits_le_of_computed (d : Decimal) :
    (Computed (fun _ _ => True) (fun _ _ => True) (.finite d) → d.digits ≤ precision + 1) ∧
    (Computed IsShortSum IsShortQuotient (.finite d) → d.digits ≤ precision) ∧
    (∀ x y : ExtReal, x.mul y = .finite d ∨ x.sqrt = .finite d → d.digits ≤ precision) := by
  refine ⟨fun h => ?_, fun h => ?_, ?_⟩
  · refine fitsIn_finite.mp (h.fitsIn (Nat.le_succ _) (fun a b ha hb _ => ?_) fun a b ha hb _ => ?_)
    · exact digits_add_le (by decide) (Nat.le_succ _) ha hb fun _ => le_rfl
    · exact digits_divide_le (by decide) (Nat.le_succ _) hb ha fun _ => le_rfl
  · refine fitsIn_finite.mp (h.fitsIn le_rfl (fun a b ha hb hs => ?_) fun a b ha hb hs => ?_)
    · by_cases hlong : IsShiftedDifference a b
      · exact hs hlong
      · exact digits_add_le (by decide) le_rfl ha hb fun h => absurd h hlong
    · by_cases hlong : HasLongQuotient a b
      · exact hs hlong
      · exact digits_divide_le (by decide) le_rfl hb ha fun h => absurd h hlong
  · rintro x y (h | h)
    · exact fitsIn_mul le_rfl x y d h
    · exact fitsIn_sqrt le_rfl x d h

/-- The root of 3/2 - 1 is computed within the precision: the decimals of the difference have to be
aligned, but it has one digit. -/
theorem digits_le_of_computed_sqrt_half :
    ∃ d, ((ofRat (3 / 2)).sub (ofInt 1)).sqrt = .finite d ∧
      Computed IsShortSum IsShortQuotient (.finite d) ∧
      IsShiftedDifference (Decimal.ofRat (3 / 2)) (Decimal.ofInt 1).negate ∧
      d.digits ≤ precision := by
  have hroot : ((ofRat (3 / 2)).sub (ofInt 1)).sqrt =
      .finite (Decimal.sqrt (Decimal.add (Decimal.ofRat (3 / 2)) (Decimal.ofInt 1).negate)) := by
    decide +kernel
  have hcomputed : Computed IsShortSum IsShortQuotient ((ofRat (3 / 2)).sub (ofInt 1)).sqrt := by
    refine .sqrt (.sub (.ofRat _ (by decide +kernel)) (.ofInt 1) ?_)
    rintro _ _ ⟨⟩ ⟨⟩
    decide +kernel
  rw [hroot] at hcomputed
  exact ⟨_, hroot, hcomputed, by decide +kernel, (digits_le_of_computed _).2.1 hcomputed⟩

/-- The quotient 9/11 and the difference of 2 and 7/10^51 are computed with fifty-one digits. -/
theorem digits_of_nine_elevenths :
    (Computed (fun _ _ => True) (fun _ _ => True) (ofRat (9 / 11)) ∧
      ofRat (9 / 11) = .finite (Decimal.ofRat (9 / 11)) ∧
      (Decimal.ofRat (9 / 11)).digits = precision + 1) ∧
    (Computed (fun _ _ => True) (fun _ _ => True) ((ofInt 2).sub (ofRat (7 / 10 ^ 51))) ∧
      ∃ d, (ofInt 2).sub (ofRat (7 / 10 ^ 51)) = .finite d ∧ d.digits = precision + 1) :=
  ⟨⟨.ofRat _ trivial, rfl, by decide +kernel⟩,
    .sub (.ofInt 2) (.ofRat _ trivial) (fun _ _ _ _ => trivial), _, rfl, by decide +kernel⟩

end ExtReal

end SymbolicAlgebra
