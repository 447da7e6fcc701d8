import SymbolicAlgebra.Proofs.Simplify.Normalization
import SymbolicAlgebra.Proofs.Simplify.ProductWeight
import SymbolicAlgebra.Proofs.Simplify.SumWeight

/-!
# Passes come to an end

A pass over a rational expression gives the same expression or one that weighs less,
`Pattern.pass_eqOrLighter`. The weight therefore bounds the number of passes that change something,
and a simplifier that is allowed more of them leaves its own results alone,
`Simplifier.exists_fixpoint`.

As in the soundness of the normal form, this leaves out the runs in which a number is raised to the
least word of 64 bits. Whether a run is one of these is decided by the passes up to the weight of the
expression, `Pattern.neverOverflows_iff`.
-/

namespace SymbolicAlgebra

namespace Expr

variable {e e' : Expr} {es es' : List Expr}

/-- Operands that become lighter one by one. -/
theorem forall₂_eqOrLighter {f : Expr → Option Expr}
    (h : List.Forall₂ (fun e e' => mapBottomUpM f e = some e') es es')
    (ih : ∀ e ∈ es, ∀ e', mapBottomUpM f e = some e' → e'.IsRational ∧ EqOrLighter e' e) :
    (∀ e' ∈ es', e'.IsRational) ∧ List.Forall₂ EqOrLighter es' es := by
  induction h with
  | nil => exact ⟨by simp, .nil⟩
  | cons he _ ihes =>
    obtain ⟨ih, ihrest⟩ := List.forall_mem_cons.mp ih
    obtain ⟨hr, hw⟩ := ih _ he
    obtain ⟨hrs, hws⟩ := ihes ihrest
    exact ⟨List.forall_mem_cons.mpr ⟨hr, hrs⟩, .cons hw hws⟩

/-- A bottom-up transformation makes expressions lighter when it makes every node lighter and leaves
numbers alone. -/
theorem eqOrLighter_of_mapBottomUpM {f : Expr → Option Expr}
    (hf : ∀ node node', node.IsRational → f node = some node' →
      node'.IsRational ∧ EqOrLighter node' node)
    (hn : ∀ n e', f (.number n) = some e' → e' = .number n) (he : e.IsRational)
    (h : mapBottomUpM f e = some e') : e'.IsRational ∧ EqOrLighter e' e := by
  -- The node over the transformed operands is lighter by the weight of operands, and what the
  -- transformation makes of this node is lighter again.
  have hnode : ∀ {old new e' : Expr}, new.IsRational → EqOrLighter new old → f new = some e' →
      e'.IsRational ∧ EqOrLighter e' old := by
    intro old new e' hnew hw h
    obtain ⟨hr, hw'⟩ := hf _ _ hnew h
    exact ⟨hr, hw'.trans hw⟩
  induction he generalizing e' with
  | number hq => exact hf _ _ (.number hq) h
  | var v => exact hf _ _ (.var v) h
  | sum _ ih =>
    obtain ⟨es', hall, h⟩ := Option.bind_eq_some_iff.mp h
    obtain ⟨hrs, hws⟩ := forall₂_eqOrLighter (mapBottomUpAllM_eq_some_iff.mp hall)
      fun e he _ => ih e he
    exact hnode (.sum hrs) (.sum hws) h
  | product _ ih =>
    obtain ⟨es', hall, h⟩ := Option.bind_eq_some_iff.mp h
    obtain ⟨hrs, hws⟩ := forall₂_eqOrLighter (mapBottomUpAllM_eq_some_iff.mp hall)
      fun e he _ => ih e he
    exact hnode (.product hrs) (.product hws) h
  | power _ _ ih =>
    obtain ⟨b', hb', h⟩ := Option.bind_eq_some_iff.mp h
    obtain ⟨x', hx', h⟩ := Option.bind_eq_some_iff.mp h
    obtain rfl := hn _ _ hx'
    obtain ⟨hr, hw⟩ := ih hb'
    exact hnode (.power hr trivial) (.power hw _) h
  | neg _ ih =>
    obtain ⟨a', ha', h⟩ := Option.bind_eq_some_iff.mp h
    obtain ⟨hr, hw⟩ := ih ha'
    exact hnode (.neg hr) (.neg hw) h
  | div _ _ iha ihb =>
    obtain ⟨a', ha', h⟩ := Option.bind_eq_some_iff.mp h
    obtain ⟨b', hb', h⟩ := Option.bind_eq_some_iff.mp h
    obtain ⟨hra, hwa⟩ := iha ha'
    obtain ⟨hrb, hwb⟩ := ihb hb'
    exact hnode (.div hra hrb) (.div hwa hwb) h

/-- Where such a transformation gives an expression back, it gives its operands back: a lighter operand
would have made the node lighter. -/
theorem mapBottomUpM_of_mem_children {f : Expr → Option Expr} {c : Expr}
    (hf : ∀ node node', node.IsRational → f node = some node' →
      node'.IsRational ∧ EqOrLighter node' node)
    (hn : ∀ n e', f (.number n) = some e' → e' = .number n) (he : e.IsRational)
    (h : mapBottomUpM f e = some e) (hc : c ∈ e.children) : mapBottomUpM f c = some c := by
  have hlighter : ∀ {a a' : Expr}, a.IsRational → mapBottomUpM f a = some a' →
      a'.IsRational ∧ EqOrLighter a' a := fun ha h => eqOrLighter_of_mapBottomUpM hf hn ha h
  have hall : ∀ {es es' : List Expr}, (∀ e ∈ es, e.IsRational) →
      mapBottomUpAllM f es = some es' →
      (∀ e' ∈ es', e'.IsRational) ∧ List.Forall₂ EqOrLighter es' es := fun hes h =>
    forall₂_eqOrLighter (mapBottomUpAllM_eq_some_iff.mp h) fun e he _ => hlighter (hes e he)
  have hsame : ∀ {es : List Expr}, mapBottomUpAllM f es = some es → c ∈ es →
      mapBottomUpM f c = some c := fun h hc =>
    List.forall₂_same.mp (mapBottomUpAllM_eq_some_iff.mp h) c hc
  cases he with
  | number hq => simp [children] at hc
  | var v => simp [children] at hc
  | sum hes =>
    obtain ⟨es', hes', h⟩ := Option.bind_eq_some_iff.mp h
    obtain ⟨hrs, hws⟩ := hall hes hes'
    -- Neither step makes anything heavier, and together they change nothing: so neither does.
    obtain rfl := sum.inj ((EqOrLighter.sum hws).antisymm (hf _ _ (.sum hrs) h).2)
    exact hsame hes' hc
  | product hes =>
    obtain ⟨es', hes', h⟩ := Option.bind_eq_some_iff.mp h
    obtain ⟨hrs, hws⟩ := hall hes hes'
    obtain rfl := product.inj ((EqOrLighter.product hws).antisymm (hf _ _ (.product hrs) h).2)
    exact hsame hes' hc
  | power hb _ =>
    obtain ⟨b', hb', h⟩ := Option.bind_eq_some_iff.mp h
    obtain ⟨x', hx', h⟩ := Option.bind_eq_some_iff.mp h
    obtain rfl := hn _ _ hx'
    obtain ⟨hr, hw⟩ := hlighter hb hb'
    obtain ⟨rfl, -⟩ := power.inj ((EqOrLighter.power hw _).antisymm (hf _ _ (.power hr trivial) h).2)
    rcases List.mem_pair.mp hc with rfl | rfl
    · exact hb'
    · exact hx'
  | neg ha =>
    obtain ⟨a', ha', h⟩ := Option.bind_eq_some_iff.mp h
    obtain ⟨hr, hw⟩ := hlighter ha ha'
    obtain rfl := neg.inj ((EqOrLighter.neg hw).antisymm (hf _ _ (.neg hr) h).2)
    obtain rfl := List.mem_singleton.mp hc
    exact ha'
  | div ha hb =>
    obtain ⟨a', ha', h⟩ := Option.bind_eq_some_iff.mp h
    obtain ⟨b', hb', h⟩ := Option.bind_eq_some_iff.mp h
    obtain ⟨hra, hwa⟩ := hlighter ha ha'
    obtain ⟨hrb, hwb⟩ := hlighter hb hb'
    obtain ⟨rfl, rfl⟩ := div.inj ((EqOrLighter.div hwa hwb).antisymm (hf _ _ (.div hra hrb) h).2)
    rcases List.mem_pair.mp hc with rfl | rfl
    · exact ha'
    · exact hb'

end Expr

open SymbolicAlgebra.Expr

namespace Pattern

variable {p : Pattern} {ps : List Pattern} {e e' node node' : Expr}

/-! ## One pass -/

/-- Every pattern of the library gives a rational node back as it is, or makes it lighter. -/
theorem apply_eqOrLighter (hp : p ∈ library) (hnode : node.IsRational)
    (ho : p.name = "fold-power" → Folding.overflows node = false) :
    (p.apply node).IsRational ∧ EqOrLighter (p.apply node) node := by
  have hself : ∀ {e : Expr}, e = node → e.IsRational ∧ EqOrLighter e node := by
    rintro e rfl
    exact ⟨hnode, .refl _⟩
  by_cases ha : p ∈ arithmetic
  · simp only [arithmetic, List.mem_cons, List.not_mem_nil, or_false] at ha
    rcases ha with rfl | rfl | rfl | rfl | rfl | rfl | rfl
    · exact Folding.foldSum_eqOrLighter hnode
    · exact Folding.foldProduct_eqOrLighter hnode
    · exact Folding.foldPower_eqOrLighter hnode (ho rfl)
    · exact Folding.foldNeg_eqOrLighter hnode
    · exact Folding.foldDiv_eqOrLighter hnode
    · exact hself (Folding.foldSqrt_eq_self hnode)
    · exact hself (Folding.foldAbs_eq_self hnode)
  · have hfunction : p ∈ numberTheory ++ expLog ++ trigonometry := by
      simp only [library, List.mem_append] at hp ⊢
      tauto
    exact hself (apply_eq_self hfunction hnode)

/-- Patterns applied to a node one after the other, where none of them overflows. -/
theorem foldlM_checkedStep_eqOrLighter (hps : ∀ p ∈ ps, p ∈ library) (hnode : node.IsRational)
    (h : ps.foldlM checkedStep node = some node') :
    node'.IsRational ∧ EqOrLighter node' node := by
  induction ps generalizing node with
  | nil =>
    obtain rfl : node = node' := Option.some.inj h
    exact ⟨hnode, .refl _⟩
  | cons p ps ih =>
    obtain ⟨hp, hps⟩ := List.forall_mem_cons.mp hps
    rw [List.foldlM_cons] at h
    obtain ⟨next, hstep, hrest⟩ := Option.bind_eq_some_iff.mp h
    obtain ⟨ho, rfl⟩ := checkedStep_eq_some_iff.mp hstep
    have hnext : (step node p).IsRational ∧ EqOrLighter (step node p) node := by
      rw [step]
      split_ifs
      · exact ⟨hnode, .refl _⟩
      · exact apply_eqOrLighter hp hnode ho
    obtain ⟨hr, hw⟩ := ih hps hnext.1 hrest
    exact ⟨hr, hw.trans hnext.2⟩

/-- A pass without overflow gives a rational expression back as it is, or makes it lighter. -/
theorem checkedPass_eqOrLighter (he : e.IsRational) (h : checkedPass library e = some e') :
    e'.IsRational ∧ EqOrLighter e' e := by
  refine eqOrLighter_of_mapBottomUpM
    (fun _ _ => foldlM_checkedStep_eqOrLighter fun _ => id) ?_ he h
  intro n e' hn
  rw [foldlM_checkedStep_number (fun _ => id)] at hn
  exact (Option.some.inj hn).symm

/-! ## All passes -/

/-- No pass from the expression on takes the absolute value of the least word of 64 bits. -/
def NeverOverflows (e : Expr) : Prop :=
  ∀ k, (checkedPass library ((pass library)^[k] e)).isSome = true

/-- Without overflows the checked pass is the pass that runs. -/
theorem NeverOverflows.checkedPass_eq (h : NeverOverflows e) :
    checkedPass library e = some (pass library e) := by
  obtain ⟨e', he'⟩ := Option.isSome_iff_exists.mp (h 0)
  rw [Function.iterate_zero_apply] at he'
  rw [he', pass_eq_of_checkedPass he']

/-- What never overflows does not after some passes either. -/
theorem NeverOverflows.iterate (h : NeverOverflows e) (n : ℕ) :
    NeverOverflows ((pass library)^[n] e) := by
  intro k
  rw [← Function.iterate_add_apply]
  exact h (k + n)

/-- A pass without overflow changes nothing or makes the expression lighter. -/
theorem pass_eqOrLighter (he : e.IsRational) (ho : NeverOverflows e) :
    (pass library e).IsRational ∧ EqOrLighter (pass library e) e :=
  checkedPass_eqOrLighter he ho.checkedPass_eq

/-- Passes do not lead out of the rational expressions. -/
theorem isRational_iterate (he : e.IsRational) (ho : NeverOverflows e) (n : ℕ) :
    ((pass library)^[n] e).IsRational := by
  induction n with
  | zero => exact he
  | succ n ih =>
    rw [Function.iterate_succ_apply']
    exact (pass_eqOrLighter ih (ho.iterate n)).1

/-- As many passes as the expression weighs are enough. -/
theorem pass_iterate_of_weight_le {n : ℕ} (he : e.IsRational) (ho : NeverOverflows e)
    (hn : e.weight ≤ n) : pass library ((pass library)^[n] e) = (pass library)^[n] e := by
  induction n generalizing e with
  | zero =>
    have := he.three_le_weight
    omega
  | succ n ih =>
    obtain ⟨hr, hw⟩ := pass_eqOrLighter he ho
    rcases hw with hsame | hlighter
    · rw [Function.iterate_fixed hsame, hsame]
    · have := hlighter.weight_lt
      rw [Function.iterate_succ_apply]
      exact ih hr (ho.iterate 1) (by omega)

/-- Whether one of the next passes changes nothing, and none until then overflows. -/
def restsWithin : ℕ → Expr → Bool
  | 0, _ => false
  | limit + 1, e =>
    match checkedPass library e with
    | none => false
    | some next => next == e || restsWithin limit next

/-- Once a pass changes nothing, no later one can overflow. -/
theorem neverOverflows_of_restsWithin {limit : ℕ} (he : e.IsRational)
    (h : restsWithin limit e = true) : NeverOverflows e := by
  induction limit generalizing e with
  | zero => exact absurd h Bool.false_ne_true
  | succ limit ih =>
    rw [restsWithin] at h
    cases hpass : checkedPass library e with
    | none => simp [hpass] at h
    | some next =>
      rw [hpass] at h
      have hr := (checkedPass_eqOrLighter he hpass).1
      have hnext := pass_eq_of_checkedPass hpass
      rcases (Bool.or_eq_true _ _).mp h with hsame | hrests
      · obtain rfl := (hr.setFree.beq_iff e).mp hsame
        intro k
        rw [Function.iterate_fixed hnext, hpass]
        rfl
      · rintro (_ | k)
        · rw [Function.iterate_zero_apply, hpass]
          rfl
        · rw [Function.iterate_succ_apply, hnext]
          exact ih hr hrests k

/-- Every pass that changes something costs weight, so the weight bounds their number. -/
theorem NeverOverflows.restsWithin {limit : ℕ} (he : e.IsRational) (ho : NeverOverflows e)
    (hlimit : e.weight ≤ limit) : restsWithin limit e = true := by
  induction limit generalizing e with
  | zero =>
    have := he.three_le_weight
    omega
  | succ limit ih =>
    obtain ⟨hr, hw⟩ := pass_eqOrLighter he ho
    rw [Pattern.restsWithin, ho.checkedPass_eq, Bool.or_eq_true, hr.setFree.beq_iff]
    refine hw.imp id fun hlighter => ih hr (ho.iterate 1) ?_
    have := hlighter.weight_lt
    omega

/-- Whether passes ever overflow is decided by as many of them as the expression weighs. -/
theorem neverOverflows_iff (he : e.IsRational) :
    NeverOverflows e ↔ restsWithin e.weight e = true :=
  ⟨fun ho => ho.restsWithin he le_rfl, neverOverflows_of_restsWithin he⟩

/-- The normalization stops early only where further passes change nothing. -/
theorem normalizeWithin_expr (he : e.IsRational) (ho : NeverOverflows e) (limit : ℕ) :
    (normalizeWithin library limit e).expr = (pass library)^[limit] e := by
  induction limit generalizing e with
  | zero => rfl
  | succ limit ih =>
    have hr := (pass_eqOrLighter he ho).1
    rw [normalizeWithin]
    split_ifs with hsame
    · exact (Function.iterate_fixed ((hr.setFree.beq_iff e).mp hsame) _).symm
    · rw [Function.iterate_succ_apply]
      exact ih hr (ho.iterate 1)

/-! ## Rest -/

/-- A pass without overflow gives the expression back. -/
def Rests (e : Expr) : Prop := checkedPass library e = some e

theorem Rests.pass_eq (h : Rests e) : pass library e = e := pass_eq_of_checkedPass h

/-- Passes leave the operands of a resting expression alone too. -/
theorem Rests.of_mem_children {c : Expr} (h : Rests e) (he : e.IsRational) (hc : c ∈ e.children) :
    Rests c := by
  refine mapBottomUpM_of_mem_children
    (fun _ _ => foldlM_checkedStep_eqOrLighter fun _ => id) ?_ he h hc
  intro n e' hn
  rw [foldlM_checkedStep_number (fun _ => id)] at hn
  exact (Option.some.inj hn).symm

/-- Once one of the passes has changed nothing, the normalization rests. -/
theorem rests_normalizeWithin {limit : ℕ} (he : e.IsRational) (h : restsWithin limit e = true) :
    (normalizeWithin library limit e).expr.IsRational ∧
      Rests (normalizeWithin library limit e).expr := by
  induction limit generalizing e with
  | zero => exact absurd h Bool.false_ne_true
  | succ limit ih =>
    rw [restsWithin] at h
    cases hpass : checkedPass library e with
    | none => simp [hpass] at h
    | some next =>
      rw [hpass] at h
      have hr := (checkedPass_eqOrLighter he hpass).1
      rw [normalizeWithin, pass_eq_of_checkedPass hpass]
      dsimp only
      split_ifs with hsame
      · obtain rfl := (hr.setFree.beq_iff e).mp hsame
        exact ⟨he, hpass⟩
      · exact ih hr (((Bool.or_eq_true _ _).mp h).resolve_left hsame)

end Pattern

namespace Simplifier

open Pattern

/-- With patterns alone, the simplifier makes as many passes as it is allowed. -/
theorem run_expr {s : Simplifier} {e : Expr} (hs : s.saturates = false) (hp : s.patterns = library)
    (he : e.IsRational) (ho : NeverOverflows e) :
    (s.run e).expr = (pass library)^[max s.iterations 1] e := by
  rw [run, hs, Bool.false_and, if_neg Bool.false_ne_true, normalize, Pattern.normalize, hp,
    normalizeWithin_expr he ho]

/-- Passes over a rational expression come to an end, and with more passes than it takes until then,
the simplifier leaves its own result alone. -/
theorem exists_fixpoint {e : Expr} (he : e.IsRational) (ho : NeverOverflows e) :
    ∃ N, (∀ k, N ≤ k → (pass library)^[k] e = (pass library)^[N] e) ∧
      ∀ s : Simplifier, s.saturates = false → s.patterns = library → N < s.iterations →
        (s.run (s.run e).expr).expr = (s.run e).expr := by
  have hfixed := pass_iterate_of_weight_le he ho le_rfl
  have hstays : ∀ k, e.weight ≤ k → (pass library)^[k] e = (pass library)^[e.weight] e := by
    intro k hk
    obtain ⟨j, rfl⟩ := Nat.exists_eq_add_of_le' hk
    rw [Function.iterate_add_apply, Function.iterate_fixed hfixed]
  refine ⟨e.weight, hstays, fun s hs hp hlt => ?_⟩
  have hrun := run_expr hs hp he ho
  rw [hstays _ (by omega)] at hrun
  rw [hrun, run_expr hs hp (isRational_iterate he ho _) (ho.iterate _),
    Function.iterate_fixed hfixed]

/-- Half of `x + 1`, and `y`, and the other half. -/
def twoHalves : Expr :=
  .sum [.div (.sum [.var "x", 1]) 2, .var "y", .div (.sum [.var "x", 1]) 2]

/-- Adding the halves leaves a sum within a sum, which only the second pass takes apart. -/
theorem exists_fixpoint_twoHalves :
    ∃ N, (∀ k, N ≤ k → (pass library)^[k] twoHalves = (pass library)^[N] twoHalves) ∧
      ∀ s : Simplifier, s.saturates = false → s.patterns = library → N < s.iterations →
        (s.run (s.run twoHalves).expr).expr = (s.run twoHalves).expr := by
  have hsum : IsRational (.sum [.var "x", 1]) := .sum (by
    simp only [List.forall_mem_cons]
    exact ⟨.var "x", isRational_one, by simp⟩)
  have hhalf : IsRational (.div (.sum [.var "x", 1]) 2) := .div hsum (.number (q := 2) rfl)
  have he : twoHalves.IsRational := .sum (by
    simp only [List.forall_mem_cons]
    exact ⟨hhalf, .var "y", hhalf, by simp⟩)
  have hrests : restsWithin 3 twoHalves = true := by decide +kernel
  exact exists_fixpoint he (neverOverflows_of_restsWithin he hrests)

end Simplifier

end SymbolicAlgebra
