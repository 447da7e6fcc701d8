import Mathlib.Algebra.BigOperators.Group.List.Basic
import SymbolicAlgebra.Proofs.Expr.FieldExpression

/-!
# The weight of an expression

No size of a tree goes down with every change that the patterns of arithmetic make: collecting
`x + x + y` makes it larger, and a constant that moves to the end of a sum changes no size at all.
`Expr.weight` is a weight that does.

* A variable is so heavy that twice the variable is lighter than the sum of two.
* A quotient is heavier than a product, and a sign inside of a product heavier than one in front.
* A literal weighs more where it is in the way: in a sum anywhere but at the end, in a product
  anywhere but in front, and on a level that is wider than its value.

The weight of a node depends on the kinds of its operands in this way. An operand is replaced by a
lighter one, `Expr.Lighter`, if the weight of every node around it goes down.
-/

namespace SymbolicAlgebra

/-! ## Weights of lists -/

section Total

variable {α : Type} (w : α → ℕ)

/-- The weights of a list added up. -/
def total (l : List α) : ℕ := (l.map w).sum

/-- An empty list weighs nothing. -/
@[simp]
theorem total_nil : total w [] = 0 := rfl

@[simp]
theorem total_cons (a : α) (l : List α) : total w (a :: l) = w a + total w l := rfl

/-- The weights of two lists add up when one follows the other. -/
@[simp]
theorem total_append (l m : List α) : total w (l ++ m) = total w l + total w m := by
  rw [total, List.map_append, List.sum_append]
  rfl

/-- The count of the elements with a property is zero if none has it. -/
theorem total_toNat_eq_zero_iff {p : α → Bool} {l : List α} :
    total (fun a => (p a).toNat) l = 0 ↔ ∀ a ∈ l, p a = false := by
  induction l with
  | nil => simp
  | cons a l ih =>
    rw [total_cons, Nat.add_eq_zero_iff, ih, Bool.toNat_eq_zero, List.forall_mem_cons]

/-- The first is equal to the second or weighs less. -/
def EqOrLess (a b : α) : Prop := a = b ∨ w a < w b

variable {w} {a b c : α} {l m l' m' : List α}

/-- The same one is the same or less. -/
theorem EqOrLess.refl (a : α) : EqOrLess w a a := .inl rfl

/-- What is the same or less does not weigh more. -/
theorem EqOrLess.le (h : EqOrLess w a b) : w a ≤ w b := by
  rcases h with rfl | h
  · exact le_rfl
  · exact h.le

/-- Being the same or less is transitive. -/
theorem EqOrLess.trans (h : EqOrLess w a b) (h' : EqOrLess w b c) : EqOrLess w a c := by
  rcases h with rfl | h
  · exact h'
  · exact .inr (h.trans_le h'.le)

/-- Two lists that are the same or less are so one after the other. -/
theorem EqOrLess.append (h : EqOrLess (total w) l l') (h' : EqOrLess (total w) m m') :
    EqOrLess (total w) (l ++ m) (l' ++ m') := by
  have hle := h.le
  have hle' := h'.le
  rcases h with rfl | h
  · rcases h' with rfl | h'
    · exact .inl rfl
    · exact .inr (by rw [total_append, total_append]; omega)
  · exact .inr (by rw [total_append, total_append]; omega)

/-- A list may be lighter behind a member that stays. -/
theorem EqOrLess.cons (a : α) (h : EqOrLess (total w) l m) :
    EqOrLess (total w) (a :: l) (a :: m) :=
  h.imp (congrArg (a :: ·)) fun h => by simpa using h

/-- A list of one member weighs as much as the member. -/
theorem EqOrLess.singleton (h : EqOrLess w a b) : EqOrLess (total w) [a] [b] :=
  h.imp (congrArg fun a => [a]) fun h => by simpa using h

/-- Every element is replaced by elements that weigh less together, or by itself. -/
theorem EqOrLess.flatMap {f : α → List α} (h : ∀ a ∈ l, EqOrLess (total w) (f a) [a]) :
    EqOrLess (total w) (l.flatMap f) l := by
  induction l with
  | nil => exact .inl rfl
  | cons a l ih =>
    obtain ⟨ha, hl⟩ := List.forall_mem_cons.mp h
    exact ha.append (ih hl)

/-- If each member is kept or becomes lighter, the list is kept or becomes lighter. -/
theorem EqOrLess.map {f : α → α} (h : ∀ a ∈ l, EqOrLess w (f a) a) :
    EqOrLess (total w) (l.map f) l := by
  rw [List.map_eq_flatMap]
  exact .flatMap fun a ha => (h a ha).singleton

end Total

/-! ## Weights of expressions -/

namespace Expr

/-- Expressions built from exact numbers and variables by the operations of a field, with integer
literals as exponents. -/
abbrev IsRational (e : Expr) : Prop := e.IsField fun _ => True

/-- Whether the expression is a number literal. -/
def isLiteral (e : Expr) : Bool := e.toNumber?.isSome

/-- Whether the expression is a product or has a sign in front. -/
def isSigned : Expr → Bool
  | .neg _ | .product _ => true
  | _ => false

/-- A literal that is not on the narrowest level of its value is heavier. -/
def literalWeight (n : Number) : ℕ := if n.downcast = n then 3 else 4

/-- The weight of an expression. -/
def weight (e : Expr) : ℕ :=
  e.fold fun node below =>
    match node with
    | .number n => literalWeight n
    | .sum es => 9 + below.sum + total (fun e => e.isLiteral.toNat) es.dropLast
    | .product es =>
      5 + below.sum + total (fun e => e.isSigned.toNat) es
        + total (fun e => e.isLiteral.toNat) es.tail
    | .neg _ => 2 + below.sum
    | .power _ _ => 6 + below.headD 0
    | .div _ _ => 7 + below.sum
    | _ => 9

variable {a a' b b' e e' : Expr} {es es' : List Expr}

/-- A number weighs what its literal does. -/
@[simp]
theorem weight_number (n : Number) : weight (.number n) = literalWeight n := rfl

@[simp]
theorem weight_var (v : String) : weight (.var v) = 9 := rfl

@[simp]
theorem weight_neg (a : Expr) : weight (.neg a) = 2 + a.weight := rfl

@[simp]
theorem weight_power (b x : Expr) : weight (.power b x) = 6 + b.weight := rfl

@[simp]
theorem weight_div (a b : Expr) : weight (.div a b) = 7 + (a.weight + b.weight) := rfl

/-- The terms of a sum weigh one more if they are literals, apart from the last one. -/
theorem weight_sum (es : List Expr) : weight (.sum es) =
    9 + total weight es + total (fun e => e.isLiteral.toNat) es.dropLast := by
  rw [weight, fold, foldAll_eq_map]
  rfl

/-- The factors of a product weigh one more if they have a sign, or if they are literals and not the
first one. -/
theorem weight_product (es : List Expr) : weight (.product es) =
    5 + total weight es + total (fun e => e.isSigned.toNat) es
      + total (fun e => e.isLiteral.toNat) es.tail := by
  rw [weight, fold, foldAll_eq_map]
  rfl

/-- An operand of a sum that is not the last one. -/
theorem weight_sum_cons_cons (e a : Expr) (es : List Expr) : weight (.sum (e :: a :: es)) =
    e.weight + e.isLiteral.toNat + weight (.sum (a :: es)) := by
  simp only [weight_sum, total_cons, List.dropLast_cons_cons]
  omega

/-- An operand of a product, with what it adds to the weight of the node behind the first place. -/
def factorWeight (e : Expr) : ℕ := e.weight + e.isSigned.toNat + e.isLiteral.toNat

/-- The first factor of a product may be a literal, and all others have the weight of factors. -/
theorem weight_product_cons (e : Expr) (es : List Expr) : weight (.product (e :: es)) =
    5 + (e.weight + e.isSigned.toNat) + total factorWeight es := by
  have hsum : total factorWeight es = total weight es
      + total (fun e => e.isSigned.toNat) es + total (fun e => e.isLiteral.toNat) es := by
    induction es with
    | nil => rfl
    | cons e es ih =>
      simp only [total_cons, ih, factorWeight]
      omega
  rw [weight_product, hsum]
  simp only [total_cons, List.tail_cons]
  omega

/-- A literal is neither a product nor a sign. -/
theorem isSigned_add_isLiteral_le (e : Expr) : e.isSigned.toNat + e.isLiteral.toNat ≤ 1 := by
  cases e with
  | number n => exact (le_refl 1)
  | _ =>
    have hl : Bool.toNat false = 0 := rfl
    simp only [isLiteral, toNumber?, Option.isSome_none, hl, Nat.add_zero]
    exact Bool.toNat_le _

/-- A factor has a sign or is a literal, but not both. -/
theorem factorWeight_le (e : Expr) : factorWeight e ≤ e.weight + 1 := by
  have := isSigned_add_isLiteral_le e
  unfold factorWeight
  omega

/-- A literal weighs three or four. -/
theorem literalWeight_bounds (n : Number) : 3 ≤ literalWeight n ∧ literalWeight n ≤ 4 := by
  unfold literalWeight
  split_ifs <;> decide

/-- No rational expression weighs less than a literal. -/
theorem IsRational.three_le_weight (h : e.IsRational) : 3 ≤ e.weight := by
  induction h with
  | number => exact (literalWeight_bounds _).1
  | var v => rw [weight_var]; omega
  | sum => rw [weight_sum]; omega
  | product => rw [weight_product]; omega
  | power => rw [weight_power]; omega
  | neg _ ih => rw [weight_neg]; omega
  | div => rw [weight_div]; omega

/-! ## Lighter expressions -/

/-- The expression is lighter, in whatever place of a node it stands. -/
structure Lighter (e' e : Expr) : Prop where
  literal : e'.weight + e'.isLiteral.toNat < e.weight
  signed : e'.weight + e'.isSigned.toNat < e.weight + e.isSigned.toNat

namespace Lighter

/-- What is lighter in every place weighs less. -/
theorem weight_lt (h : Lighter e' e) : e'.weight < e.weight := by
  have := h.literal
  omega

/-- What is lighter in every place weighs less as a factor. -/
theorem factorWeight_lt (h : Lighter e' e) : e'.factorWeight < e.factorWeight := by
  have hlit := h.literal
  have hsign := h.signed
  have hone := isSigned_add_isLiteral_le e'
  unfold factorWeight
  omega

/-- One less is enough room for what either kind of place may add. -/
theorem of_succ_lt (h : e'.weight + 1 < e.weight) : Lighter e' e := by
  have hone := isSigned_add_isLiteral_le e'
  exact ⟨by omega, by omega⟩

/-- Being lighter in every place is transitive. -/
theorem trans (h : Lighter a b) (h' : Lighter b e) : Lighter a e := by
  have hlit := h.literal
  have hsign := h.signed
  exact ⟨hlit.trans h'.weight_lt, hsign.trans h'.signed⟩

end Lighter

/-- The expression is the same one, or lighter. -/
def EqOrLighter (e' e : Expr) : Prop := e' = e ∨ e'.Lighter e

namespace EqOrLighter

theorem refl (e : Expr) : EqOrLighter e e := .inl rfl

/-- What is the same or lighter in two steps is so in one. -/
theorem trans (h : EqOrLighter a b) (h' : EqOrLighter b e) : EqOrLighter a e := by
  rcases h with rfl | h
  · exact h'
  · rcases h' with rfl | h'
    · exact .inr h
    · exact .inr (h.trans h')

/-- Two expressions that are both lighter than the other one are the same. -/
theorem antisymm (h : EqOrLighter e' e) (h' : EqOrLighter e e') : e' = e := by
  rcases h with heq | hlt
  · exact heq
  · rcases h' with heq | hlt'
    · exact heq.symm
    · exact absurd hlt.weight_lt hlt'.weight_lt.not_gt

/-- A node that is neither a literal nor a product nor has a sign, before or after. -/
theorem of_weight_lt (h : e'.weight < e.weight) (hl : e'.isLiteral = false)
    (hs : e'.isSigned = e.isSigned) : EqOrLighter e' e := by
  refine .inr ⟨?_, ?_⟩
  · rw [hl]
    exact h
  · rw [hs]
    omega

/-- A lighter operand makes a sign lighter. -/
theorem neg (h : EqOrLighter a' a) : EqOrLighter (.neg a') (.neg a) := by
  rcases h with rfl | h
  · exact .refl _
  · have := h.weight_lt
    exact of_weight_lt (by simpa using this) rfl rfl

/-- A lighter base makes a power lighter. -/
theorem power (h : EqOrLighter b' b) (x : Expr) : EqOrLighter (.power b' x) (.power b x) := by
  rcases h with rfl | h
  · exact .refl _
  · have := h.weight_lt
    exact of_weight_lt (by simpa using this) rfl rfl

/-- A lighter numerator or denominator makes a quotient lighter. -/
theorem div (ha : EqOrLighter a' a) (hb : EqOrLighter b' b) :
    EqOrLighter (.div a' b') (.div a b) := by
  have hle : ∀ {e' e : Expr}, EqOrLighter e' e → e' = e ∨ e'.weight < e.weight :=
    fun h => h.imp_right Lighter.weight_lt
  rcases hle ha with rfl | ha <;> rcases hle hb with rfl | hb
  · exact .refl _
  all_goals
    refine of_weight_lt ?_ rfl rfl
    simp only [weight_div]
    omega

/-- Lighter terms make a sum lighter: a term that becomes a literal has lost more than this adds. -/
theorem sum (h : List.Forall₂ EqOrLighter es' es) : EqOrLighter (.sum es') (.sum es) := by
  have hweight : es' = es ∨ weight (.sum es') < weight (.sum es) := by
    induction h with
    | nil => exact .inl rfl
    | @cons e' e es' es he hes ih =>
      cases hes with
      | nil =>
        rcases he with rfl | he
        · exact .inl rfl
        · have := he.weight_lt
          right
          simpa [weight_sum] using this
      | @cons a' a as' as ha has =>
        rw [weight_sum_cons_cons, weight_sum_cons_cons]
        rcases he with rfl | he
        · rcases ih with ih | ih
          · exact .inl (by rw [ih])
          · exact .inr (by omega)
        · have hle : weight (.sum (a' :: as')) ≤ weight (.sum (a :: as)) :=
            ih.elim (fun h => by rw [h]) Nat.le_of_lt
          have := he.literal
          exact .inr (by omega)
  rcases hweight with rfl | hlt
  · exact .refl _
  · exact of_weight_lt hlt rfl rfl

/-- Lighter factors make a product lighter: a factor that becomes a literal or gets a sign has lost
more than this adds. -/
theorem product (h : List.Forall₂ EqOrLighter es' es) :
    EqOrLighter (.product es') (.product es) := by
  have htail : ∀ {es' es : List Expr}, List.Forall₂ EqOrLighter es' es →
      EqOrLess (total factorWeight) es' es := by
    intro es' es h
    induction h with
    | nil => exact .inl rfl
    | @cons e' e es' es he hes ih =>
      have hhead : EqOrLess factorWeight e' e := he.imp_right Lighter.factorWeight_lt
      exact hhead.singleton.append ih
  cases h with
  | nil => exact .refl _
  | @cons e' e es' es he hes =>
    have hweight : e' :: es' = e :: es ∨
        weight (.product (e' :: es')) < weight (.product (e :: es)) := by
      rw [weight_product_cons, weight_product_cons]
      rcases he with rfl | he
      · rcases htail hes with rfl | hlt
        · exact .inl rfl
        · exact .inr (by omega)
      · have := he.signed
        rcases htail hes with rfl | hlt
        · exact .inr (by omega)
        · exact .inr (by omega)
    rcases hweight with heq | hlt
    · rw [heq]
      exact .refl _
    · exact of_weight_lt hlt rfl rfl

end EqOrLighter

end Expr

end SymbolicAlgebra
