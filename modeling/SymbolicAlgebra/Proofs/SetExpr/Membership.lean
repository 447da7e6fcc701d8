import Mathlib.Data.Set.Lattice
import SymbolicAlgebra.Proofs.Expr.Evaluation
import SymbolicAlgebra.SetExpr.Algebra

/-!
# Membership

`SetExpr.Denotes V s A` says that `s` stands for the set `A` of rationals: its points are read by
`V`, which tells their values, and its bounds evaluate to rationals or infinities. Then membership
is decided for every point with an exact value, and the answer is right: `Denotes.contains?`.

A set that holds the whole line, `SetExpr.Full`, stands for all rationals whatever other points are
joined to it. A set whose points and bounds have values, `SetExpr.Evaluates`, stands for some set of
rationals, even where an interval has its bounds in the wrong order.
-/

namespace SymbolicAlgebra

/-! ## Answers -/

/-- The answer is known, and it is right. -/
def Decides (answer : Option Bool) (P : Prop) : Prop := ∃ b, answer = some b ∧ (b = true ↔ P)

theorem decides_true {P : Prop} (h : P) : Decides (some true) P :=
  ⟨true, rfl, by simpa using h⟩

theorem decides_false {P : Prop} (h : ¬ P) : Decides (some false) P :=
  ⟨false, rfl, by simpa using h⟩

/-- Disjunction of known answers decides the disjunction. -/
theorem Decides.orElse? {a b : Option Bool} {P Q : Prop} (ha : Decides a P) (hb : Decides b Q) :
    Decides (orElse? a b) (P ∨ Q) := by
  obtain ⟨p, rfl, hp⟩ := ha
  obtain ⟨q, rfl, hq⟩ := hb
  refine ⟨p || q, ?_, by rw [Bool.or_eq_true, hp, hq]⟩
  cases p <;> cases q <;> rfl

/-- Conjunction of known answers decides the conjunction. -/
theorem Decides.andThen? {a b : Option Bool} {P Q : Prop} (ha : Decides a P) (hb : Decides b Q) :
    Decides (andThen? a b) (P ∧ Q) := by
  obtain ⟨p, rfl, hp⟩ := ha
  obtain ⟨q, rfl, hq⟩ := hb
  refine ⟨p && q, ?_, by rw [Bool.and_eq_true, hp, hq]⟩
  cases p <;> cases q <;> rfl

/-- An answer that decides a proposition is its truth value. -/
theorem Decides.eq_some_decide {a : Option Bool} {P : Prop} [Decidable P] (h : Decides a P) :
    a = some (decide P) := by
  obtain ⟨p, rfl, hp⟩ := h
  rw [Option.some.injEq, Bool.eq_iff_iff, hp, decide_eq_true_iff]

/-! ## Intervals -/

namespace Bound

/-- The rational lies above a lower bound, or on it where it is closed. -/
def Above (α : Bound) (closed : Bool) (q : ℚ) : Prop := α < q ∨ α = q ∧ closed = true

/-- The rational lies below an upper bound, or on it where it is closed. -/
def Below (β : Bound) (closed : Bool) (q : ℚ) : Prop :=
  (q : Bound) < β ∨ (q : Bound) = β ∧ closed = true

/-- The rationals between two bounds. -/
def between (α : Bound) (leftClosed : Bool) (β : Bound) (rightClosed : Bool) : Set ℚ :=
  {q | Above α leftClosed q ∧ Below β rightClosed q}

/-- The test at a left bound, as membership reads it. -/
theorem isGt_or_isEq_iff {α : Bound} {q : ℚ} {closed : Bool} :
    (cmp (q : Bound) α == .gt || (cmp (q : Bound) α == .eq && closed)) = true
      ↔ Above α closed q := by
  rw [Bool.or_eq_true, Bool.and_eq_true, beq_iff_eq, beq_iff_eq, cmp_eq_gt_iff, cmp_eq_eq_iff,
    Above, eq_comm]

/-- The test at a right bound, as membership reads it. -/
theorem isLt_or_isEq_iff {β : Bound} {q : ℚ} {closed : Bool} :
    (cmp (q : Bound) β == .lt || (cmp (q : Bound) β == .eq && closed)) = true
      ↔ Below β closed q := by
  rw [Bool.or_eq_true, Bool.and_eq_true, beq_iff_eq, beq_iff_eq, cmp_eq_lt_iff, cmp_eq_eq_iff,
    Below]

end Bound

open SymbolicAlgebra.Bound

variable {V : Expr → ℚ → Prop} {e l r : Expr} {α β : Bound} {q : ℚ} {lc rc : Bool}

/-- A rational and a bound with a value are compared by value. -/
theorem compareWithBound?_eq {n : Number} (hn : n.toRat? = some q) (hl : l.HasBound α) :
    compareWithBound? n l = some (cmp (q : Bound) α) := by
  obtain ⟨m, hm, hα⟩ := hl.eval?
  rw [compareWithBound?, hm, Option.bind_some,
    Number.compare?_eq_cmp (Number.toBound?_eq_coe hn) hα]

/-- Membership in an interval is decided by the bounds. -/
theorem contains?_interval (hl : l.HasBound α) (hr : r.HasBound β) (he : e.HasValue q) :
    Decides ((SetExpr.interval l lc r rc).contains? e) (q ∈ between α lc β rc) := by
  obtain ⟨n, hn, hq⟩ := he.eval?
  have hreal : n.isReal = true := by
    obtain ⟨k, rfl, -⟩ | rfl := Number.eq_int_or_eq_rat hq <;> rfl
  have hbetween : betweenBounds? l lc r rc n = some
      ((cmp (q : Bound) α == .gt || (cmp (q : Bound) α == .eq && lc))
        && (cmp (q : Bound) β == .lt || (cmp (q : Bound) β == .eq && rc))) := by
    rw [betweenBounds?, hreal, compareWithBound?_eq hq hl, compareWithBound?_eq hq hr]
    rfl
  rw [SetExpr.contains?, hn, Option.bind_some, hbetween]
  refine ⟨_, rfl, ?_⟩
  rw [Bool.and_eq_true, isGt_or_isEq_iff, isLt_or_isEq_iff]
  exact Iff.rfl

/-! ## Points -/

/-- Two points with rational values are the same point if the values are equal. -/
theorem samePoint_iff {m n : Number} {p q : ℚ} (hm : m.toRat? = some p) (hn : n.toRat? = some q) :
    samePoint m n = true ↔ p = q := by
  rw [samePoint, Number.compare?_eq hm hn, Bool.or_eq_true, beq_iff_eq, beq_iff_eq,
    Option.some.injEq, cmp_eq_eq_iff]
  refine ⟨?_, Or.inr⟩
  rintro (rfl | h)
  · exact Option.some.inj (hm.symm.trans hn)
  · exact h

/-- Membership in a list of points with exact values is decided by the values. -/
theorem contains?_finite {es : List Expr} {p : ℚ} (hV : ∀ e q, V e q → e.HasValue q)
    (hes : ∀ e ∈ es, ∃ q, V e q) (he : e.HasValue p) :
    Decides ((SetExpr.finite es).contains? e) (∃ e' ∈ es, V e' p) := by
  obtain ⟨n, hn, hp⟩ := he.eval?
  rw [SetExpr.contains?]
  split_ifs with hsame
  · obtain ⟨e', he', heq⟩ := List.any_eq_true.mp hsame
    obtain ⟨q, hq⟩ := hes e' he'
    obtain rfl := ((hV e' q hq).setFree.beq_iff e).mp heq
    obtain rfl := (hV _ q hq).unique he
    exact decides_true ⟨_, he', hq⟩
  · rw [hn, Option.bind_some, amongValues?]
    -- The values of the points are known, so that a point is among them or is not.
    have hvalue : ∀ e' ∈ es, ∀ q, V e' q → ∃ m, e'.eval? = some m ∧ m.toRat? = some q :=
      fun e' _ q hq => (hV e' q hq).eval?
    split_ifs with hany hall
    · obtain ⟨o, ho, hsame⟩ := List.any_eq_true.mp hany
      obtain ⟨e', he', rfl⟩ := List.mem_map.mp ho
      obtain ⟨q, hq⟩ := hes e' he'
      obtain ⟨m, hm, hmq⟩ := hvalue e' he' q hq
      rw [hm, Option.any_some, samePoint_iff hmq hp] at hsame
      exact decides_true ⟨e', he', hsame ▸ hq⟩
    · refine decides_false ?_
      rintro ⟨e', he', hq⟩
      obtain ⟨m, hm, hmp⟩ := hvalue e' he' p hq
      refine hany (List.any_eq_true.mpr ⟨_, List.mem_map_of_mem he', ?_⟩)
      rw [hm, Option.any_some, samePoint_iff hmp hp]
    · refine absurd (List.all_eq_true.mpr ?_) hall
      intro o ho
      obtain ⟨e', he', rfl⟩ := List.mem_map.mp ho
      obtain ⟨q, hq⟩ := hes e' he'
      obtain ⟨m, hm, -⟩ := hvalue e' he' q hq
      rw [hm, Option.isSome_some]

namespace SetExpr

/-! ## The whole line -/

/-- The whole line is among the parts of a union. -/
inductive Full : SetExpr → Prop
  | interval (lc rc : Bool) : Full (.interval .negInf lc .posInf rc)
  | left {a : SetExpr} (ha : Full a) (b : SetExpr) : Full (.union a b)
  | right (a : SetExpr) {b : SetExpr} (hb : Full b) : Full (.union a b)

theorem between_bot_top : between ⊥ lc ⊤ rc = Set.univ := by
  ext q
  simp only [between, Above, Below, Set.mem_ofPred_eq, Set.mem_univ, iff_true]
  exact ⟨.inl (Bound.bot_lt_coe q), .inl (Bound.coe_lt_top q)⟩

/-- The whole line contains every rational, also beside other sets. -/
theorem Full.contains? {s : SetExpr} (h : s.Full) (he : e.HasValue q) :
    s.contains? e = some true := by
  induction h with
  | interval lc rc =>
    have hdecides : Decides ((SetExpr.interval .negInf lc .posInf rc).contains? e)
        (q ∈ between ⊥ lc ⊤ rc) :=
      contains?_interval Expr.hasBound_negInf Expr.hasBound_posInf he
    obtain ⟨b, hb, hiff⟩ := hdecides
    rw [between_bot_top] at hiff
    rw [hb, hiff.mpr (Set.mem_univ q)]
  | left _ b ih => rw [SetExpr.contains?, ih, orElse?]
  | right a _ ih =>
    rw [SetExpr.contains?, ih]
    cases a.contains? e with
    | none => rfl
    | some b => cases b <;> rfl

/-! ## Denotations -/

/-- The set stands for a set of rationals. -/
inductive Denotes (V : Expr → ℚ → Prop) : SetExpr → Set ℚ → Prop
  | empty : Denotes V .empty ∅
  | finite {es : List Expr} (hes : ∀ e ∈ es, ∃ q, V e q) (hd : es.Nodup) :
      Denotes V (.finite es) {q | ∃ e ∈ es, V e q}
  | interval {l r : Expr} {α β : Bound} {lc rc : Bool} (hl : l.HasBound α) (hr : r.HasBound β) :
      Denotes V (.interval l lc r rc) (between α lc β rc)
  | union {a b : SetExpr} {A B : Set ℚ} (ha : Denotes V a A) (hb : Denotes V b B) :
      Denotes V (.union a b) (A ∪ B)
  | intersection {a b : SetExpr} {A B : Set ℚ} (ha : Denotes V a A) (hb : Denotes V b B) :
      Denotes V (.intersection a b) (A ∩ B)
  | full {s : SetExpr} (h : s.Full) : Denotes V s Set.univ

/-- Membership is decided for points with exact values. -/
theorem Denotes.contains? {s : SetExpr} {A : Set ℚ} (hV : ∀ e q, V e q → e.HasValue q)
    (h : Denotes V s A) (he : e.HasValue q) : Decides (s.contains? e) (q ∈ A) := by
  induction h with
  | empty => exact decides_false (Set.notMem_empty q)
  | finite hes hd => exact contains?_finite hV hes he
  | interval hl hr => exact contains?_interval hl hr he
  | union _ _ iha ihb => exact iha.orElse? ihb
  | intersection _ _ iha ihb => exact iha.andThen? ihb
  | full h =>
    rw [h.contains? he]
    exact decides_true (Set.mem_univ q)

/-! ## Sets of points and bounds with values -/

/-- The points of the set evaluate to rationals, and its bounds to rationals or infinities. The
points of a list are distinct, as they are in every list that is put together from points. -/
inductive Evaluates : SetExpr → Prop
  | empty : Evaluates .empty
  | finite {es : List Expr} (hes : ∀ e ∈ es, ∃ q, e.HasValue q) (hd : es.Nodup) :
      Evaluates (.finite es)
  | interval {l r : Expr} {α β : Bound} {lc rc : Bool} (hl : l.HasBound α) (hr : r.HasBound β) :
      Evaluates (.interval l lc r rc)
  | union {a b : SetExpr} (ha : Evaluates a) (hb : Evaluates b) : Evaluates (.union a b)
  | intersection {a b : SetExpr} (ha : Evaluates a) (hb : Evaluates b) :
      Evaluates (.intersection a b)

/-- A set whose points and bounds have values stands for a set of rationals. -/
theorem Evaluates.exists_denotes {s : SetExpr} (h : s.Evaluates) :
    ∃ A, Denotes Expr.HasValue s A := by
  induction h with
  | empty => exact ⟨_, .empty⟩
  | finite hes hd => exact ⟨_, .finite hes hd⟩
  | interval hl hr => exact ⟨_, .interval hl hr⟩
  | union _ _ iha ihb =>
    obtain ⟨A, hA⟩ := iha
    obtain ⟨B, hB⟩ := ihb
    exact ⟨_, .union hA hB⟩
  | intersection _ _ iha ihb =>
    obtain ⟨A, hA⟩ := iha
    obtain ⟨B, hB⟩ := ihb
    exact ⟨_, .intersection hA hB⟩

end SetExpr

end SymbolicAlgebra
