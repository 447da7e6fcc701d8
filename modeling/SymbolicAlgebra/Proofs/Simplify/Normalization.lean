import SymbolicAlgebra.Proofs.Simplify.Folding
import SymbolicAlgebra.Simplify.Simplifier

/-!
# Soundness of the normal form

`Simplifier.run_refines` says that the simplifier with the patterns of the library and without
saturation refines every expression: it takes no value away and changes none. This holds for any
number of passes. A pass is a traversal whose nodes do not depend on each other, so that it does not
matter either whether it is split among threads.

The statement leaves out the runs in which some power has the least word of 64 bits as exponent when
it is folded. `Simplifier.overflows` computes whether this happens: it goes through the run and gives
up at such a power. For the normal form of an expression this is `Expr.normalizesExactly`.
-/

namespace SymbolicAlgebra

namespace Pattern

/-! ## Patterns -/

/-- A pattern is sound when it refines every node. The folding of powers is excused at the exponent
whose absolute value overflows. -/
def Sound (p : Pattern) : Prop :=
  ∀ node, (p.name = "fold-power" → Folding.overflows node = false) → (p.apply node).Refines node

/-- No pair is found among terms of which none is the square of a sine. -/
theorem pythagoreanPair?_eq_none {terms : List Expr}
    (h : ∀ t ∈ terms, Trigonometry.squaredArg? .sin t = none) :
    Trigonometry.pythagoreanPair? terms = none := by
  rw [Trigonometry.pythagoreanPair?, List.findSome?_eq_none_iff]
  rintro ⟨t, i⟩ ht
  have ht : t ∈ terms := by
    obtain ⟨hi, hget⟩ := List.mem_zipIdx' ht
    exact hget ▸ List.getElem_mem hi
  simp [h t ht]

/-- No function is called in a field expression, so that it is no square of one either. -/
theorem squaredArg?_eq_none {K : ℤ → Prop} {t : Expr} (h : t.IsField K) (f : Func) :
    Trigonometry.squaredArg? f t = none := by
  cases h with
  | power hb hk => simp [Trigonometry.squaredArg?, hb.argOf?_eq_none]
  | _ => rfl

/-- The patterns about totients, exponentials and trigonometric functions do nothing to field
expressions. -/
theorem apply_eq_self {K : ℤ → Prop} {p : Pattern} {node : Expr}
    (hp : p ∈ numberTheory ++ expLog ++ trigonometry) (hnode : node.IsField K) :
    p.apply node = node := by
  simp only [numberTheory, expLog, trigonometry, List.cons_append, List.nil_append, List.mem_cons,
    List.not_mem_nil, or_false] at hp
  have harg := hnode.argOf?_eq_none
  rcases hp with rfl | rfl | rfl | rfl | rfl | rfl | rfl | rfl | rfl | rfl | rfl
  · simp [Totient.ofPrimePower, harg]
  · simp [Totient.ofPrime, harg]
  · simp [Totient.ofInteger, harg]
  · simp [ExpLog.expSpecial, harg]
  · simp [ExpLog.lnSpecial, harg]
  · simp [ExpLog.expOfLn, harg]
  · simp [ExpLog.lnOfExp, harg]
  · cases hnode <;> rfl
  · cases hnode <;> rfl
  · simp [Trigonometry.inverseComposition, Trigonometry.undone?, harg]
  · cases hnode with
    | sum h =>
      have hterms := fun t ht => squaredArg?_eq_none (h t ht) .sin
      simp [Trigonometry.pythagorean, pythagoreanPair?_eq_none hterms]
    | _ => rfl

/-- The patterns about arithmetic are sound. -/
theorem sound_of_mem_arithmetic {p : Pattern} (hp : p ∈ arithmetic) : p.Sound := by
  simp only [arithmetic, List.mem_cons, List.not_mem_nil, or_false] at hp
  rcases hp with rfl | rfl | rfl | rfl | rfl | rfl | rfl
  · exact fun node _ => Folding.foldSum_refines node
  · exact fun node _ => Folding.foldProduct_refines node
  · exact fun node ho => Folding.foldPower_refines (ho rfl)
  · exact fun node _ => Folding.foldNeg_refines node
  · exact fun node _ => Folding.foldDiv_refines node
  · exact fun node _ => .of_eq fun ρ hd => Folding.foldSqrt_eq_self hd.isField
  · exact fun node _ => .of_eq fun ρ hd => Folding.foldAbs_eq_self hd.isField

/-- The library is the patterns about arithmetic and those about functions. -/
theorem mem_arithmetic_or_function {p : Pattern} (hp : p ∈ library) :
    p ∈ arithmetic ∨ p ∈ numberTheory ++ expLog ++ trigonometry := by
  simp only [library, List.mem_append] at hp ⊢
  tauto

/-- Every pattern of the library is sound. -/
theorem sound_of_mem_library {p : Pattern} (hp : p ∈ library) : p.Sound := by
  obtain ha | hfunction := mem_arithmetic_or_function hp
  · exact sound_of_mem_arithmetic ha
  · exact fun node _ => .of_eq fun ρ hd => apply_eq_self hfunction hd.isField

/-- Every pattern of the library leaves numbers alone. -/
theorem apply_number {p : Pattern} (hp : p ∈ library) (n : Number) :
    p.apply (.number n) = .number n := by
  simp only [library, numberTheory, arithmetic, expLog, trigonometry, List.cons_append,
    List.nil_append, List.mem_cons, List.not_mem_nil, or_false] at hp
  rcases hp with rfl | rfl | rfl | rfl | rfl | rfl | rfl | rfl | rfl | rfl | rfl | rfl | rfl | rfl
    | rfl | rfl | rfl | rfl <;> rfl

/-- A step with a sound pattern keeps the value, unless a power overflows. -/
theorem Sound.step_refines {p : Pattern} (hp : p.Sound) {node : Expr}
    (ho : p.name = "fold-power" → Folding.overflows node = false) :
    (step node p).Refines node := by
  rw [step]
  split_ifs
  · exact .refl node
  · exact hp node ho

/-- No pattern of the library changes a number. -/
theorem step_number {p : Pattern} (hp : p ∈ library) (n : Number) :
    step (.number n) p = .number n := by
  rw [step, apply_number hp, ite_self]

/-- What every pattern keeps, visiting a node keeps. -/
theorem foldl_step_induction {ps : List Pattern} {P : Expr → Prop}
    (hps : ∀ p ∈ ps, ∀ e, P e → P (p.apply e)) {e : Expr} (he : P e) : P (ps.foldl step e) := by
  induction ps generalizing e with
  | nil => exact he
  | cons p ps ih =>
    obtain ⟨hp, hrest⟩ := List.forall_mem_cons.mp hps
    refine ih hrest ?_
    rw [step]
    split_ifs
    · exact he
    · exact hp e he

/-! ## Passes -/

/-- A step that gives up where it would overflow. -/
def checkedStep (node : Expr) (p : Pattern) : Option Expr :=
  if p.name == "fold-power" && Folding.overflows node then none else some (step node p)

/-- A pass that gives up where a step would overflow. -/
def checkedPass (patterns : List Pattern) (e : Expr) : Option Expr :=
  e.mapBottomUpM fun node => patterns.foldlM checkedStep node

/-- Repeats the checked pass until nothing changes, at most `limit` times. -/
def checkedNormalize (patterns : List Pattern) : ℕ → Expr → Option Expr
  | 0, e => some e
  | limit + 1, e => do
    let next ← checkedPass patterns e
    if next == e then some e else checkedNormalize patterns limit next

/-- A checked step is a step at which no power overflows. -/
theorem checkedStep_eq_some_iff {p : Pattern} {node node' : Expr} :
    checkedStep node p = some node' ↔
      (p.name = "fold-power" → Folding.overflows node = false) ∧ step node p = node' := by
  rw [checkedStep]
  split_ifs with h
  · simp_all
  · simp_all

/-- A node that is visited without overflow is refined. -/
theorem refines_of_foldlM_checkedStep {ps : List Pattern} (hps : ∀ p ∈ ps, p.Sound)
    {node node' : Expr} (h : ps.foldlM checkedStep node = some node') : node'.Refines node := by
  induction ps generalizing node with
  | nil =>
    obtain rfl : node = node' := Option.some.inj h
    exact .refl node
  | cons p ps ih =>
    rw [List.foldlM_cons] at h
    obtain ⟨next, hstep, hrest⟩ := Option.bind_eq_some_iff.mp h
    obtain ⟨ho, rfl⟩ := checkedStep_eq_some_iff.mp hstep
    have hnext : (step node p).Refines node := (hps p (by simp)).step_refines ho
    exact (ih (fun q hq => hps q (by simp [hq])) hrest).trans hnext

/-- Numbers pass all checks unchanged. -/
theorem foldlM_checkedStep_number {ps : List Pattern} (hps : ∀ p ∈ ps, p ∈ library) (n : Number) :
    ps.foldlM checkedStep (.number n) = some (.number n) := by
  induction ps with
  | nil => rfl
  | cons p ps ih =>
    have hstep : checkedStep (.number n) p = some (.number n) :=
      checkedStep_eq_some_iff.mpr ⟨fun _ => rfl, step_number (hps p (by simp)) n⟩
    rw [List.foldlM_cons, hstep]
    exact ih fun q hq => hps q (by simp [hq])

/-- A pass without overflow refines the tree. -/
theorem checkedPass_refines {e e' : Expr} (h : checkedPass library e = some e') :
    e'.Refines e := by
  refine Expr.refines_of_mapBottomUpM
    (fun node node' => refines_of_foldlM_checkedStep fun p => sound_of_mem_library) ?_ h
  intro n e' hn
  rw [foldlM_checkedStep_number (fun _ => id)] at hn
  exact (Option.some.inj hn).symm

/-- A checked step that comes through is the step, so that the checked pass is the pass. -/
theorem pass_eq_of_checkedPass {ps : List Pattern} {e e' : Expr}
    (h : checkedPass ps e = some e') : pass ps e = e' := by
  have hnode : ∀ (ps : List Pattern) (node : Expr),
      Foretells (m := Id) (ps.foldlM checkedStep node) (pure (ps.foldl step node)) := by
    intro ps
    induction ps with
    | nil => exact fun node => .pure node
    | cons p ps ih =>
      intro node node' hsome
      rw [List.foldlM_cons] at hsome
      obtain ⟨next, hstep, hrest⟩ := Option.bind_eq_some_iff.mp hsome
      obtain ⟨-, rfl⟩ := checkedStep_eq_some_iff.mp hstep
      exact ih _ _ hrest
  exact congrArg Id.run (Expr.mapBottomUpM_foretells (hnode ps) e e' h)

/-- What every pass keeps, the normalization keeps. -/
theorem normalizeWithin_induction {ps : List Pattern} {P : Expr → Prop}
    (hpass : ∀ e, P e → P (pass ps e)) (limit : ℕ) {e : Expr} (he : P e) :
    P (normalizeWithin ps limit e).expr := by
  induction limit generalizing e with
  | zero => exact he
  | succ limit ih =>
    rw [normalizeWithin]
    split_ifs
    · exact he
    · exact ih (hpass e he)

/-- Repeated passes without overflow end where the normalization does, and refine the tree. -/
theorem checkedNormalize_refines {limit : ℕ} {e e' : Expr}
    (h : checkedNormalize library limit e = some e') :
    (normalizeWithin library limit e).expr = e' ∧ e'.Refines e := by
  induction limit generalizing e with
  | zero =>
    obtain rfl : e = e' := Option.some.inj h
    exact ⟨rfl, .refl e⟩
  | succ limit ih =>
    obtain ⟨next, hpass, h⟩ := Option.bind_eq_some_iff.mp h
    rw [normalizeWithin]
    simp only [pass_eq_of_checkedPass hpass]
    split_ifs at h ⊢ with hsame
    · obtain rfl : e = e' := Option.some.inj h
      exact ⟨rfl, .refl e⟩
    · obtain ⟨heq, href⟩ := ih h
      exact ⟨heq, href.trans (checkedPass_refines hpass)⟩

end Pattern

namespace Simplifier

/-- Whether a power is folded, in the first round of patterns, with the exponent whose absolute
value overflows. -/
def overflows (s : Simplifier) (e : Expr) : Bool :=
  (Pattern.checkedNormalize s.patterns (max s.iterations 1) e).isNone

/-- Patterns alone refine every expression, whatever the number of passes. -/
theorem run_refines {s : Simplifier} {e : Expr} (hs : s.saturates = false)
    (hp : s.patterns = Pattern.library) (ho : s.overflows e = false) :
    (s.run e).expr.Refines e := by
  obtain ⟨e', he'⟩ : ∃ e', Pattern.checkedNormalize s.patterns (max s.iterations 1) e = some e' := by
    rw [← Option.isSome_iff_exists, ← Option.not_isNone, Bool.not_eq_true']
    exact ho
  rw [hp] at he'
  obtain ⟨heq, href⟩ := Pattern.checkedNormalize_refines he'
  rw [run, hs, Bool.false_and, if_neg Bool.false_ne_true, normalize, Pattern.normalize, hp, heq]
  exact href

/-- Two passes cancel a power of negative exponent: the new expression is defined at zero too. -/
theorem run_refines_cancelled_power :
    (Simplifier.run { patternsOnly with iterations := 2 }
      (.product [.power (.var "x") 2, .power (.var "x") (.int (-1))])).expr.Refines
      (.product [.power (.var "x") 2, .power (.var "x") (.int (-1))]) :=
  run_refines rfl rfl (by decide +kernel)

end Simplifier

namespace Expr

/-- Whether no power overflows while an expression is brought into normal form. -/
def normalizesExactly (e : Expr) : Bool := !Simplifier.patternsOnly.overflows e

/-- Without overflows the checked normalization gives the normal form. -/
theorem checkedNormalize_of_normalizesExactly {e : Expr} (h : e.normalizesExactly = true) :
    Pattern.checkedNormalize Pattern.library 30 e = some e.normalForm := by
  rw [normalizesExactly, Simplifier.overflows, Option.not_isNone] at h
  obtain ⟨e', he'⟩ := Option.isSome_iff_exists.mp h
  obtain ⟨rfl, -⟩ := Pattern.checkedNormalize_refines he'
  exact he'

/-- The normal form takes no value away and changes none. -/
theorem normalForm_refines {e : Expr} (h : e.normalizesExactly = true) : e.normalForm.Refines e :=
  (Pattern.checkedNormalize_refines (checkedNormalize_of_normalizesExactly h)).2

end Expr

end SymbolicAlgebra
