import SymbolicAlgebra.Proofs.Arithmetic.Tower
import SymbolicAlgebra.Proofs.Expr.Children
import SymbolicAlgebra.Proofs.Expr.FieldExpression
import SymbolicAlgebra.Proofs.Simplify.Term

/-!
# Terms and their written form

An expression is read as a term by taking its products and signs apart. What is left are factors
that are neither numbers nor signs nor products, `Expr.isTermFactor`, each of them a part of the
expression. Where all number literals are integers or rationals, `Expr.HasExactLiterals`, the
coefficient is on the narrowest level of its value. `Term.readFrom_ofExpr` says both.

Such a term is written in one way and read from it again, `Term.ofExpr_toExpr`. The one exception is
a coefficient zero beside factors, which are not written.
-/

namespace SymbolicAlgebra

/-! ## Parts of a term -/

namespace Expr

variable {c e : Expr}

/-- Whether a term keeps the expression as one factor: it is no number, no sign and no product. -/
def isTermFactor : Expr → Bool
  | .number _ | .neg _ | .product _ => false
  | _ => true

/-- Every number literal in the expression is an integer or a rational. -/
def HasExactLiterals (e : Expr) : Prop := ∀ n, Occurs (.number n) e → ∃ q, n.toRat? = some q

/-- Parts of an expression have no other literals than it has. -/
theorem HasExactLiterals.of_occurs (h : e.HasExactLiterals) (hc : c.Occurs e) :
    c.HasExactLiterals :=
  fun n hn => h n (hn.trans hc)

/-- A node other than a number has exact literals as soon as its children have. -/
theorem HasExactLiterals.of_children (h : ∀ c ∈ e.children, c.HasExactLiterals)
    (hne : ∀ n, e ≠ .number n) : e.HasExactLiterals := by
  intro n hn
  cases hn with
  | self => exact absurd rfl (hne n)
  | operand hc hn => exact h _ hc n hn

/-- An integer or a rational is exact. -/
theorem hasExactLiterals_number {n : Number} {q : ℚ} (h : n.toRat? = some q) :
    (Expr.number n).HasExactLiterals := by
  intro m hm
  cases hm with
  | self => exact ⟨q, h⟩
  | operand hc _ => exact absurd hc List.not_mem_nil

theorem hasExactLiterals_var (v : String) : (Expr.var v).HasExactLiterals :=
  .of_children (List.forall_mem_nil _) nofun

/-- In a field expression all numbers are exact. -/
theorem IsField.hasExactLiterals {K : ℤ → Prop} (h : e.IsField K) : e.HasExactLiterals := by
  have hsingle : ∀ {a : Expr}, a.HasExactLiterals → ∀ c ∈ [a], c.HasExactLiterals :=
    fun ha => List.forall_mem_singleton.mpr ha
  induction h with
  | number h => exact hasExactLiterals_number h
  | var v => exact hasExactLiterals_var v
  | sum _ ih | product _ ih => exact .of_children ih nofun
  | power _ _ ih =>
    exact .of_children (List.forall_mem_cons.mpr ⟨ih, hsingle (hasExactLiterals_number rfl)⟩) nofun
  | neg _ ih => exact .of_children (hsingle ih) nofun
  | div _ _ iha ihb => exact .of_children (List.forall_mem_cons.mpr ⟨iha, hsingle ihb⟩) nofun

/-- A field expression has no sets in it. -/
theorem IsField.wellFormed {K : ℤ → Prop} (h : e.IsField K) : e.WellFormed := by
  induction h with
  | number _ => exact .number _
  | var v => exact .var v
  | sum _ ih => exact .sum ih
  | product _ ih => exact .product ih
  | power _ _ ih => exact .power ih (.number _)
  | neg _ ih => exact .neg ih
  | div _ _ iha ihb => exact .div iha ihb

/-! ## How a term is written -/

/-- Two factors or more are written as a product. -/
theorem productOf_cons {f : Expr} {fs : List Expr} (h : fs ≠ []) :
    productOf (f :: fs) = .product (f :: fs) := by
  cases fs with
  | nil => exact absurd rfl h
  | cons g gs => rfl

/-- How a term with a rational coefficient is written. -/
theorem toExpr_ofRat (q : ℚ) (fs : List Expr) : Term.toExpr ⟨.ofRat q, fs⟩ =
    if fs = [] ∨ q = 0 then .number (.ofRat q)
    else if q = 1 then productOf fs
    else if q = -1 then .neg (productOf fs)
    else .product (.number (.ofRat q) :: fs) := by
  have hq : (Number.ofRat q).toRat? = some q := Number.toRat?_ofRat q
  have hneg : (-q = 1) ↔ q = -1 := neg_eq_iff_eq_neg
  have hnumber : (fs.isEmpty || (Number.ofRat q).isZero) = true ↔ fs = [] ∨ q = 0 := by
    rw [Bool.or_eq_true, List.isEmpty_iff, Number.isZero_iff hq]
  simp only [Term.toExpr, hnumber, Number.isOne_iff hq, Number.isOne_iff (Number.toRat?_neg hq),
    hneg]
  split_ifs with hnil
  · rfl
  · rfl
  · rfl
  · exact productOf_cons fun h => hnil (.inl h)

end Expr

namespace Term

variable {e f : Expr} {fs : List Expr} {q : ℚ} {t : Term}

/-! ## Reading a term -/

/-- What is not taken apart is put at the end of the factors. -/
theorem times_of_isTermFactor (h : f.isTermFactor = true) (t : Term) :
    t.times f = ⟨t.coefficient, t.factors ++ [f]⟩ := by
  cases f with
  | number n | neg a | product es => exact Bool.noConfusion h
  | _ => rfl

/-- Factors that are not taken apart keep their order. -/
theorem timesAll_of_isTermFactor (h : ∀ f ∈ fs, f.isTermFactor = true) (t : Term) :
    t.timesAll fs = ⟨t.coefficient, t.factors ++ fs⟩ := by
  induction fs generalizing t with
  | nil => rw [timesAll, List.append_nil]
  | cons f fs ih =>
    obtain ⟨hf, hfs⟩ := List.forall_mem_cons.mp h
    rw [timesAll, times_of_isTermFactor hf, ih hfs, List.append_assoc, List.singleton_append]

/-- The term may have been read from parts of the expression: its coefficient is on the narrowest
level, and its factors are parts that are not taken apart any further. -/
structure ReadFrom (e : Expr) (t : Term) : Prop where
  coefficient : ∃ q, t.coefficient = .ofRat q
  factors : ∀ f ∈ t.factors, f.isTermFactor = true ∧ f.Occurs e

/-- A part that is not taken apart may be read as a further factor. -/
theorem ReadFrom.append (ht : t.ReadFrom e) (hf : f.isTermFactor = true) (hocc : f.Occurs e) :
    ReadFrom e ⟨t.coefficient, t.factors ++ [f]⟩ where
  coefficient := ht.coefficient
  factors := List.forall_mem_append.mpr ⟨ht.factors, List.forall_mem_singleton.mpr ⟨hf, hocc⟩⟩

/-- Multiplying by a part of an expression reads on in that part. -/
theorem ReadFrom.times {a : Expr} (he : e.HasExactLiterals) (ht : t.ReadFrom e)
    (ha : a.Occurs e) : (t.times a).ReadFrom e := by
  induction a using Expr.induction_children generalizing t with
  | node a ih =>
    cases a with
    | number n =>
      obtain ⟨p, hp⟩ := ht.coefficient
      obtain ⟨q, hq⟩ := he n ha
      exact ⟨⟨p * q, by rw [Term.times, hp, Number.mul_eq (Number.toRat?_ofRat p) hq]⟩, ht.factors⟩
    | neg a =>
      obtain ⟨p, hp⟩ := ht.coefficient
      have hneg : ReadFrom e ⟨-t.coefficient, t.factors⟩ :=
        ⟨⟨-p, by rw [hp, Number.neg_ofRat]⟩, ht.factors⟩
      have hmem : a ∈ (Expr.neg a).children := List.mem_singleton_self a
      exact ih a hmem hneg (.trans (.operand hmem .self) ha)
    | product es =>
      rw [Term.times, timesAll_eq_foldl]
      refine List.foldlRecOn es Term.times ht fun t ht c hc => ?_
      exact ih c hc ht (.trans (.operand hc .self) ha)
    | _ => exact ht.append rfl ha

/-- The term of an expression with exact literals. -/
theorem readFrom_ofExpr (he : e.HasExactLiterals) : (ofExpr e).ReadFrom e :=
  ReadFrom.times he ⟨⟨1, Number.one_eq_ofRat⟩, List.forall_mem_nil _⟩ .self

/-! ## Reading a written term -/

/-- A product of factors multiplies by all of them. -/
theorem times_productOf (hfs : ∀ f ∈ fs, f.isTermFactor = true) (hne : fs ≠ []) (c : Number) :
    times ⟨c, []⟩ (.productOf fs) = ⟨c, fs⟩ := by
  match fs, hfs, hne with
  | [f], hfs, _ => exact times_of_isTermFactor (hfs f (List.mem_singleton_self f)) ⟨c, []⟩
  | f :: g :: fs, hfs, _ => exact timesAll_of_isTermFactor hfs ⟨c, []⟩

/-- A narrowest number is read as a coefficient alone. -/
theorem ofExpr_number (q : ℚ) : ofExpr (.number (.ofRat q)) = ⟨.ofRat q, []⟩ := by
  rw [ofExpr, times, Number.mul_eq (p := 1) rfl (Number.toRat?_ofRat q), one_mul]

/-- A term is read as it has been written, unless it is zero and has factors. -/
theorem ofExpr_toExpr (hfs : ∀ f ∈ fs, f.isTermFactor = true) (h : q ≠ 0 ∨ fs = []) :
    ofExpr (toExpr ⟨.ofRat q, fs⟩) = ⟨.ofRat q, fs⟩ := by
  rw [Expr.toExpr_ofRat]
  split_ifs with hnumber hone hneg
  · obtain rfl : fs = [] := hnumber.elim id fun hq => h.resolve_left (not_not_intro hq)
    exact ofExpr_number q
  · rw [hone, ← Number.one_eq_ofRat]
    exact times_productOf hfs (fun hnil => hnumber (.inl hnil)) 1
  · rw [hneg, ← Number.neg_ofRat, ← Number.one_eq_ofRat]
    exact times_productOf hfs (fun hnil => hnumber (.inl hnil)) (-1)
  · -- The coefficient stands in front of the factors, as the first one of the product.
    have hfirst : times ⟨1, []⟩ (.number (.ofRat q)) = ⟨.ofRat q, []⟩ := ofExpr_number q
    rw [ofExpr, times, timesAll, hfirst]
    exact timesAll_of_isTermFactor hfs ⟨.ofRat q, []⟩

/-- Reading and writing a term invert each other. What is read has no factor that would be taken
apart again, and its coefficient is on the narrowest level; any such term is read from its written
form, if it is not zero or has no factors. -/
theorem ofExpr_inverts_toExpr :
    (∀ e : Expr, e.HasExactLiterals → (∃ q, (ofExpr e).coefficient.IsNarrowest q) ∧
      ∀ f ∈ (ofExpr e).factors, f.isTermFactor = true) ∧
    ∀ (c : Number) (fs : List Expr), (∃ q, c.IsNarrowest q) →
      (∀ f ∈ fs, f.isTermFactor = true) → c ≠ 0 ∨ fs = [] → ofExpr (toExpr ⟨c, fs⟩) = ⟨c, fs⟩ := by
  refine ⟨fun e he => ?_, fun c fs hc hfs h => ?_⟩
  · obtain ⟨⟨q, hq⟩, hfactors⟩ := readFrom_ofExpr he
    exact ⟨⟨q, Number.isNarrowest_iff.mpr hq⟩, fun f hf => (hfactors f hf).1⟩
  · obtain ⟨q, hq⟩ := hc
    obtain rfl : c = .ofRat q := Number.isNarrowest_iff.mp hq
    have hzero : Number.ofRat q ≠ 0 → q ≠ 0 := by
      rintro hne rfl
      exact hne Number.zero_eq_ofRat.symm
    exact ofExpr_toExpr hfs (h.imp_left hzero)

/-- A sign in a product is read into the coefficient, and a fraction is written in front of factors
that are repeated. -/
theorem ofExpr_inverts_toExpr_signed_fraction :
    (∀ f ∈ (ofExpr (.product [2, .neg (.var "x")])).factors, f.isTermFactor = true) ∧
    ofExpr (toExpr ⟨.rat (-3 / 2), [.var "x", .var "y", .var "x"]⟩) =
      ⟨.rat (-3 / 2), [.var "x", .var "y", .var "x"]⟩ := by
  obtain ⟨hread, hwritten⟩ := ofExpr_inverts_toExpr
  have hfield : (Expr.product [2, .neg (.var "x")]).IsField fun _ => True :=
    .product (List.forall_mem_cons.mpr
      ⟨.number rfl, List.forall_mem_singleton.mpr (.neg (.var "x"))⟩)
  have hnarrowest : Number.IsNarrowest (.rat (-3 / 2)) (-3 / 2) :=
    .fraction (by decide +kernel) (by decide +kernel)
  refine ⟨(hread _ hfield.hasExactLiterals).2, hwritten _ _ ⟨_, hnarrowest⟩ ?_ (.inl nofun)⟩
  decide

end Term

end SymbolicAlgebra
