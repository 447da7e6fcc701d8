import Mathlib
import SymbolicAlgebra.Proofs.Expr.FreeVariables
import SymbolicAlgebra.Proofs.Saturation.Encoding

/-!
# Which symbols stand for which leaves

The leaves of an expression are its variables and the parts that the language does not cover. In the
term they are symbols: a variable is its own name, a part the dollar sign with its position, and a
later equal part has the same symbol. `marked_run` says so for every leaf, whatever the names are.

A symbol is read by its text alone. A variable whose name reads as the position of a part is taken
for it, and so `$0` is lost from `$0 + phi(y)`, `freeVariables_captured`. A leaf is lost in no other
way: all of them come back exactly if no name is captured, `forall_restored_iff`. Then the term
keeps the free variables, and different leaves have different symbols,
`freeVariables_ofTerm_toTerm`.
-/

namespace SymbolicAlgebra

/-- The names of the symbols, from left to right. -/
def OpTerm.symbols : OpTerm → List String
  | num _ => []
  | symbol s => [s]
  | unary _ a => a.symbols
  | binary _ a b => a.symbols ++ b.symbols

namespace Encoding

open SymbolicAlgebra.Expr (same)

variable {e leaf : Expr} {kept all : Kept} {s v : String}

/-! ## Leaves -/

/-- Whether the language takes the node apart: it covers the node, and it is not a variable. -/
def splits : Expr → Bool
  | .var _ => false
  | e => covers e

/-- The variables and the parts that the language does not cover, from left to right. -/
def leaves (e : Expr) : List Expr :=
  e.fold fun node below => if splits node then below.flatten else [node]

/-- The leaves of an expression that is split are those of its children. -/
theorem leaves_of_splits (h : splits e = true) : leaves e = e.children.flatMap leaves := by
  rw [leaves, Expr.fold_eq, if_pos h, List.flatMap_def]
  rfl

/-- An expression that is not split is a leaf. -/
theorem leaves_of_not_splits (h : splits e = false) : leaves e = [e] := by
  rw [leaves, Expr.fold_eq, if_neg (Bool.eq_false_iff.mp h)]

/-- Leaves are variables and parts that the language does not cover. -/
theorem not_splits_iff : splits e = false ↔ (∃ v, e = .var v) ∨ covers e = false := by
  cases e <;> simp [splits, covers]

/-- The leaves of an expression that is built properly are built properly. -/
theorem wellFormed_of_mem_leaves (he : e.WellFormed) (h : leaf ∈ leaves e) : leaf.WellFormed := by
  induction e using Expr.induction_children with
  | node e ih =>
    cases hs : splits e with
    | true =>
      rw [leaves_of_splits hs] at h
      obtain ⟨c, hc, h⟩ := List.mem_flatMap.mp h
      exact ih c hc (he.of_mem_children hc) h
    | false =>
      rw [leaves_of_not_splits hs] at h
      exact List.mem_singleton.mp h ▸ he

/-- A variable occurs in an expression if it occurs in a leaf. -/
theorem any_leaves (x : String) (e : Expr) :
    (leaves e).any (Expr.containsVar x) = e.containsVar x := by
  induction e using Expr.induction_children with
  | node e ih =>
    cases hs : splits e with
    | true =>
      have hchildren : (e.children.any fun c => (leaves c).any (Expr.containsVar x)) =
          e.children.any (Expr.containsVar x) := by
        rw [Bool.eq_iff_iff, List.any_eq_true, List.any_eq_true]
        exact exists_congr fun c => and_congr_right fun hc => by rw [ih c hc]
      rw [leaves_of_splits hs, List.any_flatMap, hchildren, Expr.containsVar_eq]
      cases e with
      | var v => cases hs
      | _ => rfl
    | false => rw [leaves_of_not_splits hs, List.any_cons, List.any_nil, Bool.or_false]

/-! ## Symbols of the term -/

/-- The symbols of operands that are nested to the left stand in the order of the operands. -/
theorem symbols_foldl (op : BinaryOp) (t : OpTerm) (ts : List OpTerm) :
    (ts.foldl (.binary op) t).symbols = t.symbols ++ ts.flatMap OpTerm.symbols := by
  induction ts generalizing t with
  | nil => simp
  | cons s ts ih => rw [List.foldl_cons, ih, OpTerm.symbols, List.flatMap_cons, List.append_assoc]

/-- The symbols of a nested sum or product stand in the order of its operands. -/
theorem symbols_nest (op : BinaryOp) (ts : List OpTerm) :
    (nest op ts).symbols = ts.flatMap OpTerm.symbols := by
  cases ts with
  | nil => rfl
  | cons t ts => rw [nest, symbols_foldl, List.flatMap_cons]

/-- The term for a node that is taken apart has the symbols of the terms for its operands. -/
theorem toTerm_of_splits (h : splits e = true) (kept : Kept) :
    (toTerm e kept).1.symbols = (toTerms e.children kept).1.flatMap OpTerm.symbols ∧
      (toTerm e kept).2 = (toTerms e.children kept).2 := by
  cases e with
  | number n =>
    cases n with
    | int n | rat r => exact ⟨rfl, rfl⟩
    | real | complex => cases h
  | sum es => exact ⟨symbols_nest .add _, rfl⟩
  | product es => exact ⟨symbols_nest .mul _, rfl⟩
  | neg a => exact ⟨(List.append_nil _).symm, rfl⟩
  | power a b | div a b => exact ⟨congrArg _ (List.append_nil _).symm, rfl⟩
  | apply f args =>
    match args with
    | [a] =>
      obtain ⟨op, hop⟩ := Option.isSome_iff_exists.mp h
      have hterm : toTerm (.apply f [a]) kept =
          (.unary op (toTerm a kept).1, (toTerm a kept).2) := by
        simp only [toTerm, hop]
        rfl
      rw [hterm]
      exact ⟨(List.append_nil _).symm, rfl⟩
  | _ => cases h

/-! ## What a leaf is translated to -/

/-- The symbol for a leaf: the name of a variable, or the position of a part that is equal to it. -/
inductive Marks (all : Kept) : Expr → String → Prop
  | name (v : String) : Marks all (.var v) v
  | part {e k : Expr} {i : Nat} (hcovers : covers e = false) (hk : all[i]? = some k)
      (hsame : same k e = true) : Marks all e ("$" ++ toString i)

/-- A symbol marks the same leaf when more parts have been kept. -/
theorem Marks.mono (h : Marks kept leaf s) (hle : kept <+: all) : Marks all leaf s := by
  cases h with
  | name => exact .name s
  | part hcovers hk hsame =>
    obtain ⟨hlt, rfl⟩ := List.getElem?_eq_some_iff.mp hk
    exact .part hcovers (List.prefix_iff_getElem?.mp hle _ hlt) hsame

/-- The symbols of the terms made of expressions, one after the other, mark the leaves of these.
Parts are only added to the list, and they are leaves. -/
structure Marked (kept : Kept) (ls : List Expr) (symbols : List String) (all : Kept) : Prop where
  le : kept <+: all
  mem : ∀ k ∈ all, k ∈ kept ∨ k ∈ ls ∧ covers k = false
  marks : List.Forall₂ (Marks all) ls symbols

/-- Terms that mark their leaves do so one after the other. -/
theorem Marked.append {ls ls' : List Expr} {ss ss' : List String} {later : Kept}
    (h : Marked kept ls ss all) (h' : Marked all ls' ss' later) :
    Marked kept (ls ++ ls') (ss ++ ss') later where
  le := h.le.trans h'.le
  mem k hk := by
    rcases h'.mem k hk with hk | hk
    · exact (h.mem k hk).imp_right (And.imp_left (List.mem_append_left ls'))
    · exact .inr (hk.imp_left (List.mem_append_right ls))
  marks := List.rel_append (h.marks.imp fun _ _ hm => hm.mono h'.le) h'.marks

/-- A part that is kept is marked by its position, or by that of a part that is the same. -/
theorem marked_keep (h : covers e = false) (kept : Kept) :
    Marked kept [e] (keep e kept).1.symbols (keep e kept).2 := by
  unfold keep
  split
  · rename_i i hi
    obtain ⟨hlt, heq, -⟩ := List.findIdx?_eq_some_iff_getElem.mp hi
    exact ⟨List.prefix_rfl, fun k hk => .inl hk,
      .cons (.part h (List.getElem?_eq_getElem hlt) heq) .nil⟩
  · refine ⟨List.prefix_append _ _, fun k hk => ?_, .cons ?_ .nil⟩
    · refine (List.mem_append.mp hk).imp_right fun hk => ⟨hk, ?_⟩
      rw [List.mem_singleton.mp hk, h]
    · exact .part h List.getElem?_concat_length (Expr.same_refl e)

/-- The terms for a list of operands mark the leaves of all of them. -/
theorem marked_toTerms {es : List Expr}
    (h : ∀ e ∈ es, ∀ kept, Marked kept (leaves e) (toTerm e kept).1.symbols (toTerm e kept).2)
    (kept : Kept) : Marked kept (es.flatMap leaves)
      ((toTerms es kept).1.flatMap OpTerm.symbols) (toTerms es kept).2 := by
  induction es generalizing kept with
  | nil => exact ⟨List.prefix_rfl, fun k hk => .inl hk, .nil⟩
  | cons e es ih =>
    obtain ⟨he, hes⟩ := List.forall_mem_cons.mp h
    exact (he kept).append (ih hes (toTerm e kept).2)

/-- The symbols of a term mark the leaves of the expression that it is made of, whatever was kept
before. -/
theorem marked (e : Expr) (kept : Kept) :
    Marked kept (leaves e) (toTerm e kept).1.symbols (toTerm e kept).2 := by
  induction e using Expr.induction_children generalizing kept with
  | node e ih =>
    cases hs : splits e with
    | true =>
      obtain ⟨hsymbols, hkept⟩ := toTerm_of_splits hs kept
      rw [hsymbols, hkept, leaves_of_splits hs]
      exact marked_toTerms ih kept
    | false =>
      rw [leaves_of_not_splits hs]
      rcases not_splits_iff.mp hs with ⟨v, rfl⟩ | hcovers
      · exact ⟨List.prefix_rfl, fun k hk => .inl hk, .cons (.name v) .nil⟩
      · rw [toTerm_of_not_covers hcovers]
        exact marked_keep hcovers kept

/-! ## What comes back of a symbol -/

/-- Whether a name is read as the position of a part. -/
def isCaptured (kept : Kept) (name : String) : Bool := (position? name).any (· < kept.length)

/-- Whether the name of a variable is read as the position of a part. -/
def captures (e : Expr) : Bool :=
  let kept := ((toTerm e).run []).2
  (leaves e).any fun leaf => leaf.toVar?.any (isCaptured kept)

/-- The name of a variable brings the variable back, unless it is captured. -/
theorem restore_of_not_isCaptured (h : isCaptured kept s = false) : restore kept s = .var s := by
  rw [restore]
  cases hi : position? s with
  | none => rfl
  | some i =>
    have hle : kept.length ≤ i := by simpa [isCaptured, hi] using h
    rw [Option.bind_some, List.getElem?_eq_none hle, Option.getD_none]

/-- A captured name brings a part back. -/
theorem restore_mem_of_isCaptured (h : isCaptured kept s = true) : restore kept s ∈ kept := by
  obtain ⟨i, hi, hlt⟩ := (Option.any_eq_true _ _).mp h
  rw [restore, hi, Option.bind_some, List.getElem?_eq_getElem (of_decide_eq_true hlt),
    Option.getD_some]
  exact List.getElem_mem _

/-- Only a variable is the same as a variable. -/
theorem same_var_iff : same e (.var v) = true ↔ e = .var v := by
  cases e <;> simp [same]

/-- A leaf comes back of its symbol, unless it is a variable with a captured name. -/
theorem Marks.restored_iff (h : Marks all leaf s) (hall : Uncovered all) :
    (restore all s == leaf) = true ↔ leaf.toVar?.any (isCaptured all) = false := by
  cases h with
  | name =>
    rw [Expr.toVar?, Option.any_some]
    cases hs : isCaptured all s with
    | false =>
      rw [restore_of_not_isCaptured hs]
      exact iff_of_true (Expr.same_refl _) rfl
    | true =>
      -- A part is not covered by the language, and so it is no variable.
      have hcovers : covers (restore all s) = false := hall _ (restore_mem_of_isCaptured hs)
      refine iff_of_false (fun hsame => ?_) Bool.noConfusion
      rw [same_var_iff.mp hsame] at hcovers
      cases hcovers
  | @part _ k i hcovers hk hsame =>
    have hvar : leaf.toVar? = none := by
      cases leaf with
      | var v => cases hcovers
      | _ => rfl
    have hrestore : restore all ("$" ++ toString i) = k := ofTerm_placeholder hk
    rw [hrestore, hvar]
    exact iff_of_true hsame rfl

/-! ## The whole expression -/

/-- The symbols of the term for an expression mark its leaves, and the parts are leaves. -/
theorem marked_run (e : Expr) :
    let (t, kept) := (toTerm e).run []
    List.Forall₂ (Marks kept) (leaves e) t.symbols ∧ Uncovered kept ∧ kept ⊆ leaves e := by
  have h := marked e []
  have hmem := fun k hk => (h.mem k hk).resolve_left List.not_mem_nil
  exact ⟨h.marks, fun k hk => (hmem k hk).2, fun k hk => (hmem k hk).1⟩

/-- All leaves come back of their symbols exactly if no name of a variable is captured. -/
theorem forall_restored_iff (e : Expr) :
    let (t, kept) := (toTerm e).run []
    List.Forall₂ (fun leaf s => (restore kept s == leaf) = true) (leaves e) t.symbols ↔
      captures e = false := by
  obtain ⟨hmarks, hall, -⟩ := marked_run e
  have hrestored : ∀ {ls ss}, List.Forall₂ (Marks ((toTerm e).run []).2) ls ss →
      (List.Forall₂ (fun leaf s => (restore ((toTerm e).run []).2 s == leaf) = true) ls ss ↔
        (ls.any fun leaf => leaf.toVar?.any (isCaptured ((toTerm e).run []).2)) = false) := by
    intro ls ss h
    induction h with
    | nil => exact iff_of_true .nil rfl
    | cons hm _ ih => rw [List.forall₂_cons, List.any_cons, Bool.or_eq_false_iff, ih,
        hm.restored_iff hall]
  exact hrestored hmarks

/-- A variable occurs in a sum if it does in a term. -/
theorem any_terms (x : String) (e : Expr) :
    (terms e).any (Expr.containsVar x) = e.containsVar x := by
  cases e <;> simp [terms]

/-- A variable occurs in a product if it does in a factor. -/
theorem any_factors (x : String) (e : Expr) :
    (factors e).any (Expr.containsVar x) = e.containsVar x := by
  cases e <;> simp [factors]

/-- A variable occurs in a written sum if it does in a term. -/
theorem containsVar_sumOf (x : String) (es : List Expr) :
    (Expr.sumOf es).containsVar x = es.any (Expr.containsVar x) := by
  match es with
  | [] => rfl
  | [e] => simp [Expr.sumOf]
  | _ :: _ :: _ => exact Expr.containsVar_sum x _

/-- A variable occurs in a written product if it does in a factor. -/
theorem containsVar_productOf (x : String) (es : List Expr) :
    (Expr.productOf es).containsVar x = es.any (Expr.containsVar x) := by
  match es with
  | [] => rfl
  | [e] => simp [Expr.productOf]
  | _ :: _ :: _ => exact Expr.containsVar_product x _

/-- A variable occurs in a quotient that is read back if it does in one of its sides. -/
theorem containsVar_ofQuotient (x : String) (a b : Expr) :
    (ofQuotient a b).containsVar x = (a.containsVar x || b.containsVar x) := by
  unfold ofQuotient
  split
  · split_ifs <;> simp
  · simp

/-- A variable occurs in a call that is read back if it does in the argument. -/
theorem containsVar_ofUnary (x : String) (op : UnaryOp) (a : Expr) :
    (ofUnary op a).containsVar x = a.containsVar x := by
  cases op <;> simp [ofUnary, Expr.call]

/-- The variables of what comes back of a term are those that come back of its symbols. -/
theorem containsVar_ofTerm (x : String) (t : OpTerm) :
    (ofTerm all t).containsVar x = t.symbols.any fun s => (restore all s).containsVar x := by
  induction t with
  | num n => rfl
  | symbol s => simp [ofTerm, OpTerm.symbols]
  | unary op a ih => rw [ofTerm, containsVar_ofUnary, ih, OpTerm.symbols]
  | binary op a b iha ihb =>
    rw [OpTerm.symbols, List.any_append, ← iha, ← ihb]
    cases op with
    | add => rw [ofTerm, containsVar_sumOf, List.any_append, any_terms, any_terms]
    | sub => simp [ofTerm, containsVar_sumOf, any_terms]
    | mul => rw [ofTerm, containsVar_productOf, List.any_append, any_factors, any_factors]
    | div => rw [ofTerm, containsVar_ofQuotient]
    | pow => rw [ofTerm, Expr.containsVar_power]

/-- A restored symbol is built properly if the kept parts are. -/
theorem wellFormed_restore (hall : ∀ k ∈ all, k.WellFormed) (s : String) :
    (restore all s).WellFormed := by
  cases hs : isCaptured all s with
  | true => exact hall _ (restore_mem_of_isCaptured hs)
  | false => exact restore_of_not_isCaptured hs ▸ .var s

/-- Symbols that bring leaves back bring back their variables. -/
theorem any_symbols {ls : List Expr} {ss : List String} (hall : ∀ k ∈ all, k.WellFormed)
    (h : List.Forall₂ (fun leaf s => (restore all s == leaf) = true) ls ss) (x : String) :
    (ss.any fun s => (restore all s).containsVar x) = ls.any (Expr.containsVar x) := by
  induction h with
  | nil => rfl
  | @cons leaf s _ _ hsame _ ih =>
    rw [List.any_cons, List.any_cons, ih,
      (wellFormed_restore hall s).containsVar_eq_of_same hsame x]

/-- If no name of a variable is captured, the term has the free variables of the expression, and
symbols that are the same mark leaves that are equal. -/
theorem freeVariables_ofTerm_toTerm (h : e.WellFormed) (hfree : captures e = false) :
    let (t, kept) := (toTerm e).run []
    (ofTerm kept t).freeVariables = e.freeVariables ∧
      List.Forall₂ (Marks kept) (leaves e) t.symbols ∧
      ∀ p ∈ (leaves e).zip t.symbols, ∀ q ∈ (leaves e).zip t.symbols,
        p.2 = q.2 → (p.1 == q.1) = true := by
  obtain ⟨hmarks, -, hsub⟩ := marked_run e
  have hrestored := (forall_restored_iff e).mpr hfree
  have hkept : ∀ k ∈ (toTerm e []).2, k.WellFormed :=
    fun k hk => wellFormed_of_mem_leaves h (hsub hk)
  refine ⟨Expr.freeVariables_eq fun x => ?_, hmarks, fun p hp q hq heq => ?_⟩
  · rw [containsVar_ofTerm, any_symbols hkept hrestored, any_leaves]
  · -- Both leaves are equal to what comes back of the symbol.
    obtain ⟨-, hzip⟩ := List.forall₂_iff_zip.mp hrestored
    have hleft := hzip hp
    have hright := hzip hq
    rw [← heq] at hright
    exact ((wellFormed_restore hkept p.2).congruent _ hleft _).symm.trans hright

/-- With one part kept, the name `$1` is that of a variable, and both places of the part are `$0`. -/
theorem freeVariables_ofTerm_toTerm_dollar :
    let phi : Expr := .call .phi (.var "y")
    let e : Expr := .sum [.var "$1", phi, .call .sin phi]
    let (t, kept) := (toTerm e).run []
    captures e = false ∧ t.symbols = ["$1", "$0", "$0"] ∧
      (ofTerm kept t).freeVariables = e.freeVariables ∧
      List.Forall₂ (Marks kept) (leaves e) t.symbols ∧
      ∀ p ∈ (leaves e).zip t.symbols, ∀ q ∈ (leaves e).zip t.symbols,
        p.2 = q.2 → (p.1 == q.1) = true := by
  have hphi : (Expr.call .phi (.var "y")).WellFormed := .apply _ (by simpa using .var "y")
  have hsin : (Expr.call .sin (.call .phi (.var "y"))).WellFormed := .apply _ (by simpa using hphi)
  have hsum : (Expr.sum [.var "$1", .call .phi (.var "y"),
      .call .sin (.call .phi (.var "y"))]).WellFormed :=
    .sum (by simpa using ⟨.var "$1", hphi, hsin⟩)
  have hfree : captures (.sum [.var "$1", .call .phi (.var "y"),
      .call .sin (.call .phi (.var "y"))]) = false := by cbv
  exact ⟨hfree, by cbv, freeVariables_ofTerm_toTerm hsum hfree⟩

/-- Variables that are captured by a part: both are lost, and `$0` has the symbol of the part. -/
theorem freeVariables_captured :
    (let e : Expr := .sum [.var "$0", .call .phi (.var "y")]
      let (t, kept) := (toTerm e).run []
      (ofTerm kept t).freeVariables = ["y"] ∧ e.freeVariables = ["$0", "y"] ∧
        (leaves e).zip t.symbols = [(.var "$0", "$0"), (.call .phi (.var "y"), "$0")]) ∧
      let e : Expr := .sum [.var "$+0", .call .phi (.var "y")]
      let (t, kept) := (toTerm e).run []
      (ofTerm kept t).freeVariables = ["y"] ∧ e.freeVariables = ["$+0", "y"] := by
  refine ⟨⟨?_, ?_, ?_⟩, ?_, ?_⟩ <;> cbv

end Encoding

end SymbolicAlgebra
