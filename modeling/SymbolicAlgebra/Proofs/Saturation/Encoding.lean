import Mathlib.Tactic.SplitIfs
import SymbolicAlgebra.Proofs.Arithmetic.Numeral
import SymbolicAlgebra.Proofs.Expr.Equality
import SymbolicAlgebra.Saturation.Encoding

/-!
# To operator terms and back

An expression that is made an operator term and an expression again is not quite what it was: nested
sums and products come back spliced, quotients of literals come back as rationals. `Encoding.rebuilt`
says how, node by node, without terms and without a list of parts, and `Encoding.ofTerm_toTerm` says
that nothing else happens.

The answer is given up to structural equality. A part that the language does not cover is kept once
for all parts equal to it, and two lists of points are equal in any order, so that a part may come
back as another that is equal to it.

Names that start with a dollar sign are left out, since they are read as positions of kept parts, and
so are products without factors, which come back as zero.
-/

namespace SymbolicAlgebra

namespace Encoding

open SymbolicAlgebra.Expr

variable {kept all : Kept} {e a b a' b' : Expr} {es as bs as' bs' : List Expr}

/-! ## What comes back -/

mutual

/-- What comes back of an expression. Inside the language sums and products are spliced into those
that they are operands of, and a quotient of literals is a literal; a part that the language does not
cover stays as it is. -/
def rebuilt : Expr → Expr
  | .number (.rat r) => .rat r
  | .sum es => .sumOf ((rebuiltAll es).flatMap terms)
  | .product es => .productOf ((rebuiltAll es).flatMap factors)
  | .power b x => .power (rebuilt b) (rebuilt x)
  | .neg a => .neg (rebuilt a)
  | .div a b => ofQuotient (rebuilt a) (rebuilt b)
  | .apply f [a] => if (unaryOp? f).isSome then .call f (rebuilt a) else .apply f [a]
  | e => e

/-- What comes back of each expression of a list. -/
def rebuiltAll : List Expr → List Expr
  | [] => []
  | e :: es => rebuilt e :: rebuiltAll es

end

/-- An expression with no variable whose name starts with a dollar sign and no product without
factors, as far as the language covers it. What stands inside the parts that are kept is free. -/
inductive Plain : Expr → Prop
  | number (n : Number) : Plain (.number n)
  | var {v : String} (h : v.toList.head? ≠ some '$') : Plain (.var v)
  | sum {es : List Expr} (h : ∀ e ∈ es, Plain e) : Plain (.sum es)
  | product {es : List Expr} (hne : es ≠ []) (h : ∀ e ∈ es, Plain e) : Plain (.product es)
  | power {b x : Expr} (hb : Plain b) (hx : Plain x) : Plain (.power b x)
  | neg {a : Expr} (ha : Plain a) : Plain (.neg a)
  | div {a b : Expr} (ha : Plain a) (hb : Plain b) : Plain (.div a b)
  | call {f : Func} {a : Expr} (hf : (unaryOp? f).isSome) (ha : Plain a) : Plain (.apply f [a])
  | kept {e : Expr} (h : covers e = false) : Plain e

/-! ## Symbols of kept parts -/

/-- The symbol of a kept part is read as its position. -/
theorem position?_dollar (i : Nat) : position? ("$" ++ toString i) = some i := by
  obtain ⟨c, cs, htext, hc⟩ := exists_toList_toString i
  have hne : c ≠ '+' := by rintro rfl; exact absurd hc (by decide)
  have hdigits : position?.number? (c :: cs) = some i := by
    have hscore : (c :: cs).any (fun c => c == '_') = false := by
      rw [List.any_eq_false, ← htext]
      intro d hd heq
      rw [beq_iff_eq] at heq
      exact absurd (isDigit_of_mem_toString hd) (by rw [heq]; decide)
    rw [position?.number?, hscore, ← htext, readDigits?_toString]
    simp
  rw [position?, String.toList_append, htext]
  simp only [show "$".toList = ['$'] from rfl, List.cons_append, List.nil_append]
  split
  · rename_i heq
    exact absurd (List.cons.inj (List.cons.inj heq).2).1 hne
  · rename_i heq
    rw [← (List.cons.inj heq).2, hdigits]
  · rename_i h
    exact absurd rfl (h (c :: cs))

/-- Any other name stands for no position. -/
theorem position?_of_head?_ne {s : String} (h : s.toList.head? ≠ some '$') : position? s = none := by
  rw [position?]
  split
  · rename_i heq
    simp [heq] at h
  · rename_i heq
    simp [heq] at h
  · rfl

/-- The symbol of a kept part is the part again. -/
theorem ofTerm_placeholder {i : Nat} (h : kept[i]? = some e) : ofTerm kept (placeholder i) = e := by
  rw [placeholder, ofTerm, restore, position?_dollar, Option.bind_some, h, Option.getD_some]

/-- A name that does not look like a position is restored as a variable. -/
theorem restore_of_head?_ne {s : String} (h : s.toList.head? ≠ some '$') :
    restore kept s = .var s := by
  rw [restore, position?_of_head?_ne h, Option.bind_none, Option.getD_none]

/-! ## Splicing -/

/-- Terms that are written as a sum are its terms again, if there are two of them at least. -/
theorem terms_sumOf (ha : as ≠ []) (hb : bs ≠ []) : terms (sumOf (as ++ bs)) = as ++ bs := by
  match as, bs, ha, hb with
  | [a], b :: bs, _, _ => rfl
  | a :: a' :: as, bs, _, _ => rfl

/-- Factors that are written as a product are its factors again, if there are two of them at
least. -/
theorem factors_productOf (ha : as ≠ []) (hb : bs ≠ []) :
    factors (productOf (as ++ bs)) = as ++ bs := by
  match as, bs, ha, hb with
  | [a], b :: bs, _, _ => rfl
  | a :: a' :: as, bs, _, _ => rfl

/-- The expression is made of its terms, and of its factors, and has at least one of each: it is not
a sum or a product of fewer than two operands. -/
structure Spliced (e : Expr) : Prop where
  sumOf_terms : sumOf (terms e) = e
  terms_ne_nil : terms e ≠ []
  productOf_factors : productOf (factors e) = e
  factors_ne_nil : factors e ≠ []

/-- A written sum of two terms at least is spliced. -/
theorem spliced_sumOf (ha : as ≠ []) (hb : bs ≠ []) : Spliced (sumOf (as ++ bs)) := by
  match as, bs, ha, hb with
  | [a], b :: bs, _, _ => exact ⟨rfl, List.cons_ne_nil _ _, rfl, List.cons_ne_nil _ _⟩
  | a :: a' :: as, bs, _, _ => exact ⟨rfl, List.cons_ne_nil _ _, rfl, List.cons_ne_nil _ _⟩

/-- A written product of two factors at least is spliced. -/
theorem spliced_productOf (ha : as ≠ []) (hb : bs ≠ []) : Spliced (productOf (as ++ bs)) := by
  match as, bs, ha, hb with
  | [a], b :: bs, _, _ => exact ⟨rfl, List.cons_ne_nil _ _, rfl, List.cons_ne_nil _ _⟩
  | a :: a' :: as, bs, _, _ => exact ⟨rfl, List.cons_ne_nil _ _, rfl, List.cons_ne_nil _ _⟩

/-- The language covers all sums and products, so that a kept part is none. -/
theorem spliced_of_not_covers (h : covers e = false) : Spliced e := by
  cases e with
  | sum | product => exact Bool.noConfusion h
  | _ => exact ⟨rfl, List.cons_ne_nil _ _, rfl, List.cons_ne_nil _ _⟩

/-- A quotient is neither a sum nor a product, and the rational that it may become is none either.
-/
theorem spliced_ofQuotient (a b : Expr) : Spliced (ofQuotient a b) := by
  have hdiv : Spliced (.div a b) := ⟨rfl, List.cons_ne_nil _ _, rfl, List.cons_ne_nil _ _⟩
  unfold ofQuotient
  split
  · split_ifs
    · exact hdiv
    · exact ⟨rfl, List.cons_ne_nil _ _, rfl, List.cons_ne_nil _ _⟩
  · exact hdiv

/-- None of the kept parts is covered by the language. -/
def Uncovered (kept : Kept) : Prop := ∀ e ∈ kept, covers e = false

/-- What comes back of a term is spliced at every node. -/
theorem spliced_ofTerm (hall : Uncovered all) (t : OpTerm) : Spliced (ofTerm all t) := by
  induction t with
  | num n => exact ⟨rfl, List.cons_ne_nil _ _, rfl, List.cons_ne_nil _ _⟩
  | symbol s =>
    rw [ofTerm, restore]
    cases h : (position? s).bind fun i => all[i]? with
    | none => exact ⟨rfl, List.cons_ne_nil _ _, rfl, List.cons_ne_nil _ _⟩
    | some e =>
      obtain ⟨i, -, hi⟩ := Option.bind_eq_some_iff.mp h
      exact spliced_of_not_covers (hall e (List.mem_of_getElem? hi))
  | unary op a => cases op <;> exact ⟨rfl, List.cons_ne_nil _ _, rfl, List.cons_ne_nil _ _⟩
  | binary op a b iha ihb =>
    cases op with
    | add => exact spliced_sumOf iha.terms_ne_nil ihb.terms_ne_nil
    | sub => exact spliced_sumOf iha.terms_ne_nil (List.cons_ne_nil _ _)
    | mul => exact spliced_productOf iha.factors_ne_nil ihb.factors_ne_nil
    | div => exact spliced_ofQuotient _ _
    | pow => exact ⟨rfl, List.cons_ne_nil _ _, rfl, List.cons_ne_nil _ _⟩

/-- An operator that gathers the parts of its operands gathers those of all operands nested from the
left: the operand so far always has the parts that have been gathered. -/
theorem ofTerm_foldl {op : BinaryOp} {parts : Expr → List Expr} {gather : List Expr → Expr}
    (hop : ∀ s t, ofTerm all (.binary op s t) =
      gather (parts (ofTerm all s) ++ parts (ofTerm all t)))
    (hparts : ∀ {as bs}, as ≠ [] → bs ≠ [] → parts (gather (as ++ bs)) = as ++ bs)
    (hne : ∀ t, parts (ofTerm all t) ≠ []) {t : OpTerm}
    (ht : gather (parts (ofTerm all t)) = ofTerm all t) (ts : List OpTerm) :
    ofTerm all (ts.foldl (.binary op) t) =
      gather (((t :: ts).map (ofTerm all)).flatMap parts) := by
  induction ts generalizing t with
  | nil => simp [ht]
  | cons s ts ih =>
    have hstep : parts (ofTerm all (.binary op t s)) =
        parts (ofTerm all t) ++ parts (ofTerm all s) := by
      rw [hop, hparts (hne t) (hne s)]
    rw [List.foldl_cons, ih (by rw [hstep, hop])]
    simp [hstep]

/-- Nested sums are read back as one sum of all their terms. -/
theorem ofTerm_nest_add (hall : Uncovered all) (ts : List OpTerm) :
    ofTerm all (nest .add ts) = sumOf ((ts.map (ofTerm all)).flatMap terms) := by
  cases ts with
  | nil => rfl
  | cons t ts =>
    exact ofTerm_foldl (fun _ _ => rfl) terms_sumOf (fun t => (spliced_ofTerm hall t).terms_ne_nil)
      (spliced_ofTerm hall t).sumOf_terms ts

/-- Nested products are read back as one product of all their factors. -/
theorem ofTerm_nest_mul (hall : Uncovered all) {ts : List OpTerm} (hne : ts ≠ []) :
    ofTerm all (nest .mul ts) = productOf ((ts.map (ofTerm all)).flatMap factors) := by
  cases ts with
  | nil => exact absurd rfl hne
  | cons t ts =>
    exact ofTerm_foldl (fun _ _ => rfl) factors_productOf
      (fun t => (spliced_ofTerm hall t).factors_ne_nil)
      (spliced_ofTerm hall t).productOf_factors ts

/-! ## Equal parts make equal wholes -/

/-- Lists that are the same part by part are the same. -/
theorem sameAll_append (ha : sameAll as as' = true) (hb : sameAll bs bs' = true) :
    sameAll (as ++ bs) (as' ++ bs') = true := by
  induction as generalizing as' with
  | nil => cases as' <;> simp_all [sameAll]
  | cons a as ih =>
    cases as' with
    | nil => simp [sameAll] at ha
    | cons a' as' =>
      rw [sameAll, Bool.and_eq_true] at ha
      rw [List.cons_append, List.cons_append, sameAll, ha.1, ih ha.2, Bool.and_self]

/-- Splicing lists that are the same gives lists that are the same. -/
theorem sameAll_flatMap {parts : Expr → List Expr}
    (hparts : ∀ {a a'}, same a a' = true → sameAll (parts a) (parts a') = true)
    (h : sameAll as as' = true) : sameAll (as.flatMap parts) (as'.flatMap parts) = true := by
  induction as generalizing as' with
  | nil =>
    cases as' with
    | nil => exact sameAll_refl []
    | cons a' as' => simp [sameAll] at h
  | cons a as ih =>
    cases as' with
    | nil => simp [sameAll] at h
    | cons a' as' =>
      rw [sameAll, Bool.and_eq_true] at h
      exact sameAll_append (hparts h.1) (ih h.2)

/-- Expressions that are the same have the same terms. -/
theorem sameAll_terms (h : same a a' = true) : sameAll (terms a) (terms a') = true := by
  cases a <;> cases a' <;> simp_all [same, terms, sameAll]

/-- Expressions that are the same have the same factors. -/
theorem sameAll_factors (h : same a a' = true) : sameAll (factors a) (factors a') = true := by
  cases a <;> cases a' <;> simp_all [same, factors, sameAll]

/-- The same terms are written as the same sum. -/
theorem same_sumOf (h : sameAll as as' = true) : same (sumOf as) (sumOf as') = true := by
  match as, as' with
  | [], [] => exact same_refl 0
  | [_], [_] | _ :: _ :: _, _ :: _ :: _ => simp_all [sumOf, sameAll, same]
  | [], _ :: _ | _ :: _, [] | [_], _ :: _ :: _ | _ :: _ :: _, [_] => simp [sameAll] at h

/-- The same factors are written as the same product. -/
theorem same_productOf (h : sameAll as as' = true) :
    same (productOf as) (productOf as') = true := by
  match as, as' with
  | [], [] => exact same_refl 1
  | [_], [_] | _ :: _ :: _, _ :: _ :: _ => simp_all [productOf, sameAll, same]
  | [], _ :: _ | _ :: _, [] | [_], _ :: _ :: _ | _ :: _ :: _, [_] => simp [sameAll] at h

/-- Expressions that are the same are the same integer, if they are integers. -/
theorem toInt?_congr (h : same a a' = true) : a.toInt? = a'.toInt? := by
  cases a <;> cases a' <;> simp_all [same, toInt?, toNumber?]

/-- Only an integer literal is an integer. -/
theorem eq_number_of_toInt? {n : Int} (h : e.toInt? = some n) : e = .number (.int n) := by
  cases e with
  | number v => cases v <;> simp_all [toInt?, toNumber?, Number.toInt?]
  | _ => simp [toInt?, toNumber?] at h

/-- A quotient goes by the integers that its sides are, if they are. -/
theorem ofQuotient_eq (a b : Expr) : ofQuotient a b =
    (a.toInt?.bind fun p => b.toInt?.bind fun q =>
      if q = 0 then none else some (.number (.ofQuotient p q))).getD (.div a b) := by
  unfold ofQuotient
  split
  · rename_i p q
    by_cases hq : q = 0 <;> simp [toInt?, toNumber?, Number.toInt?, hq]
  · rename_i hlit
    cases ha : a.toInt? with
    | none => rfl
    | some p =>
      cases hb : b.toInt? with
      | none => rfl
      | some q => exact absurd (eq_number_of_toInt? hb) (hlit p q (eq_number_of_toInt? ha))

/-- The same numerator and denominator are read back as the same quotient. -/
theorem same_ofQuotient (ha : same a a' = true) (hb : same b b' = true) :
    same (ofQuotient a b) (ofQuotient a' b') = true := by
  rw [ofQuotient_eq, ofQuotient_eq, toInt?_congr ha, toInt?_congr hb]
  cases a'.toInt?.bind fun p => b'.toInt?.bind fun q =>
      if q = 0 then none else some (Expr.number (.ofQuotient p q)) with
  | none => simp [same, ha, hb]
  | some e => exact same_refl e

/-! ## One way and back -/

/-- A part that is kept comes back as it is. -/
theorem rebuilt_of_not_covers (h : covers e = false) : rebuilt e = e := by
  cases e with
  | number n => cases n <;> first | rfl | exact Bool.noConfusion h
  | apply f args =>
    match args with
    | [] | _ :: _ :: _ => rfl
    | [a] =>
      rw [covers] at h
      simp [rebuilt, h]
  | var | sum | product | power | neg | div => exact Bool.noConfusion h
  | _ => rfl

/-- A term stands for an expression over the parts that were kept when it was made: these are among
those before and later parts, and with any list that they start what comes back of the term is what
comes back of the expression. -/
structure Encodes (kept : Kept) (e : Expr) (made : OpTerm × Kept) : Prop where
  le : kept <+: made.2
  uncovered : Uncovered kept → Uncovered made.2
  same : ∀ {all}, Uncovered all → made.2 <+: all →
    Expr.same (ofTerm all made.1) (rebuilt e) = true

/-- The same for the terms of a list. -/
structure EncodesAll (kept : Kept) (es : List Expr) (made : List OpTerm × Kept) : Prop where
  le : kept <+: made.2
  uncovered : Uncovered kept → Uncovered made.2
  same : ∀ {all}, Uncovered all → made.2 <+: all →
    sameAll (made.1.map (ofTerm all)) (rebuiltAll es) = true

/-- A part that is kept comes back as itself, or as the equal part that was there before. -/
theorem encodes_keep (h : covers e = false) (kept : Kept) : Encodes kept e (keep e kept) := by
  unfold keep
  split
  · rename_i i hi
    obtain ⟨hlt, heq, -⟩ := List.findIdx?_eq_some_iff_getElem.mp hi
    refine ⟨List.prefix_rfl, id, fun _ hle => ?_⟩
    have hget := (List.prefix_iff_getElem?.mp hle) i hlt
    rw [ofTerm_placeholder hget, rebuilt_of_not_covers h]
    exact heq
  · refine ⟨List.prefix_append _ _, fun hkept k hk => ?_, fun {all} _ hle => ?_⟩
    · obtain hk | hk := List.mem_append.mp hk
      · exact hkept k hk
      · rw [List.mem_singleton.mp hk, h]
    · have hlt : kept.length < (kept ++ [e]).length := by simp
      have hget := (List.prefix_iff_getElem?.mp hle) kept.length hlt
      rw [ofTerm_placeholder hget, rebuilt_of_not_covers h]
      simpa using same_refl e

/-- What the language does not cover is kept. -/
theorem toTerm_of_not_covers (h : covers e = false) : toTerm e = keep e := by
  cases e with
  | number n => cases n <;> first | exact Bool.noConfusion h | simp [toTerm]
  | apply f args =>
    match args with
    | [] | _ :: _ :: _ => simp [toTerm]
    | [a] =>
      rw [covers, Option.isSome_eq_false_iff, Option.isNone_iff_eq_none] at h
      simp [toTerm, h]
  | var | sum | product | power | neg | div => exact Bool.noConfusion h
  | _ => simp [toTerm]

/-- A node with one operand, which the operator makes again of what comes back of the operand. -/
theorem Encodes.unary {op : UnaryOp} {made : OpTerm × Kept} (ha : Encodes kept a made)
    (hback : ∀ {x}, Expr.same x (rebuilt a) = true → Expr.same (ofUnary op x) (rebuilt e) = true) :
    Encodes kept e (.unary op made.1, made.2) where
  le := ha.le
  uncovered := ha.uncovered
  same hall hle := hback (ha.same hall hle)

/-- A node with two operands, of which the second is made with the parts that were kept for the
first. -/
theorem Encodes.binary {op : BinaryOp} {made made' : OpTerm × Kept} (ha : Encodes kept a made)
    (hb : Encodes made.2 b made')
    (hback : ∀ {all}, Expr.same (ofTerm all made.1) (rebuilt a) = true →
      Expr.same (ofTerm all made'.1) (rebuilt b) = true →
      Expr.same (ofTerm all (.binary op made.1 made'.1)) (rebuilt e) = true) :
    Encodes kept e (.binary op made.1 made'.1, made'.2) where
  le := ha.le.trans hb.le
  uncovered h := hb.uncovered (ha.uncovered h)
  same hall hle := hback (ha.same hall (hb.le.trans hle)) (hb.same hall hle)

/-- A rational is a quotient of literals, which is the rational again. -/
theorem ofTerm_quotient (r : Rat) :
    ofTerm all (.binary .div (.num r.num) (.num r.den)) = .rat r := by
  have hden : (r.den : Int) ≠ 0 := by exact_mod_cast r.den_nz
  change (if (r.den : Int) = 0 then _ else Expr.number (.ofQuotient r.num r.den)) = _
  rw [if_neg hden, Number.ofQuotient, if_neg hden, Rat.num_divInt_den, Expr.rat]

/-- The function of an operator is the one that the operator was made for. -/
theorem ofUnary_of_unaryOp? {f : Func} {op : UnaryOp} (h : unaryOp? f = some op) :
    ofUnary op = .call f := by
  cases f <;> cases h <;> rfl

/-- No expression is lost in the translation of a list. -/
theorem toTerms_ne_nil (h : es ≠ []) (kept : Kept) : (toTerms es kept).1 ≠ [] := by
  cases es with
  | nil => exact absurd rfl h
  | cons e es => exact List.cons_ne_nil _ _

/-- The operands of a node are made one after the other, each with the parts kept so far. -/
theorem encodesAll (h : ∀ e ∈ es, ∀ kept, Encodes kept e (toTerm e kept)) (kept : Kept) :
    EncodesAll kept es (toTerms es kept) := by
  induction es generalizing kept with
  | nil => exact ⟨List.prefix_rfl, id, fun _ _ => sameAll_refl []⟩
  | cons e es ih =>
    obtain ⟨he, hes⟩ := List.forall_mem_cons.mp h
    have hhead := he kept
    have htail := ih hes (toTerm e kept).2
    refine ⟨hhead.le.trans htail.le, fun hk => htail.uncovered (hhead.uncovered hk),
      fun hall hle => ?_⟩
    have hsame := hhead.same hall (htail.le.trans hle)
    change sameAll (_ :: List.map _ _) (_ :: _) = true
    rw [sameAll, hsame, htail.same hall hle, Bool.and_self]

/-- The term for an expression stands for it, whatever was kept before. -/
theorem encodes (h : Plain e) (kept : Kept) : Encodes kept e (toTerm e kept) := by
  induction h generalizing kept with
  | number n =>
    cases n with
    | int n => exact ⟨List.prefix_rfl, id, fun _ _ => same_refl _⟩
    | rat r =>
      refine ⟨List.prefix_rfl, id, fun {all} _ _ => ?_⟩
      change same (ofTerm all (.binary .div (.num r.num) (.num r.den))) (.rat r) = true
      rw [ofTerm_quotient]
      exact same_refl _
    | real | complex =>
      -- Numbers without an exact value are kept, with a variable in their place.
      rw [toTerm_of_not_covers rfl]
      exact encodes_keep rfl kept
  | @var v hv =>
    refine ⟨List.prefix_rfl, id, fun {all} _ _ => ?_⟩
    -- The name is not one of those that stand for what was kept.
    change same (restore all v) (.var v) = true
    rw [restore_of_head?_ne hv]
    exact same_refl _
  | @sum es _ ih =>
    have hes := encodesAll ih kept
    refine ⟨hes.le, hes.uncovered, fun {all} hall hle => ?_⟩
    change same (ofTerm all (nest .add (toTerms es kept).1)) _ = true
    -- Sums in sums come back as one sum of all their terms.
    rw [ofTerm_nest_add hall, rebuilt]
    exact same_sumOf (sameAll_flatMap sameAll_terms (hes.same hall hle))
  | @product es hne _ ih =>
    have hes := encodesAll ih kept
    refine ⟨hes.le, hes.uncovered, fun {all} hall hle => ?_⟩
    change same (ofTerm all (nest .mul (toTerms es kept).1)) _ = true
    rw [ofTerm_nest_mul hall (toTerms_ne_nil hne kept), rebuilt]
    exact same_productOf (sameAll_flatMap sameAll_factors (hes.same hall hle))
  | power _ _ ihb ihx =>
    exact (ihb kept).binary (ihx _) fun hb hx => by simp [ofTerm, rebuilt, same, hb, hx]
  | neg _ iha => exact (iha kept).unary fun ha => by simpa [ofUnary, rebuilt, same] using ha
  | div _ _ iha ihb => exact (iha kept).binary (ihb _) fun ha hb => same_ofQuotient ha hb
  | @call f a hf _ iha =>
    obtain ⟨op, hop⟩ := Option.isSome_iff_exists.mp hf
    have hterm : toTerm (.apply f [a]) kept = (.unary op (toTerm a kept).1, (toTerm a kept).2) := by
      simp only [toTerm, hop]
      rfl
    rw [hterm]
    refine (iha kept).unary fun {x} hx => ?_
    rw [ofUnary_of_unaryOp? hop, rebuilt, if_pos hf]
    simp [Expr.call, same, sameAll, hx]
  | kept hcovers =>
    rw [toTerm_of_not_covers hcovers]
    exact encodes_keep hcovers kept

/-- Made a term and an expression again, an expression is rebuilt node by node. -/
theorem ofTerm_toTerm (h : Plain e) :
    let (t, kept) := (toTerm e).run []
    (ofTerm kept t == rebuilt e) = true := by
  have hmade := encodes h []
  have hnone : Uncovered ([] : Kept) := fun _ hk => absurd hk List.not_mem_nil
  exact hmade.same (hmade.uncovered hnone) List.prefix_rfl

example : rebuilt (.sum [.var "x", .sum [.var "y", .product [.var "z"]], .div 6 3]) =
    .sum [.var "x", .var "y", .var "z", 2] := by rfl

/-- A part that is kept once and stands in two places, inside a nested sum and a function. -/
theorem ofTerm_toTerm_repeated_part :
    let phi : Expr := .call .phi (.var "x")
    let (t, kept) := (toTerm (.sum [.var "x", .sum [phi, .call .sin phi], .div 2 4])).run []
    (ofTerm kept t == rebuilt (.sum [.var "x", .sum [phi, .call .sin phi], .div 2 4])) = true := by
  have hphi : Plain (.call .phi (.var "x")) := .kept rfl
  have hinner : Plain (.sum [.call .phi (.var "x"), .call .sin (.call .phi (.var "x"))]) :=
    .sum (by simpa using ⟨hphi, .call rfl hphi⟩)
  have hplain : Plain
      (.sum [.var "x", .sum [.call .phi (.var "x"), .call .sin (.call .phi (.var "x"))],
        .div 2 4]) :=
    .sum (by simpa using ⟨.var (by decide), hinner, .div (.number _) (.number _)⟩)
  exact ofTerm_toTerm hplain

end Encoding

end SymbolicAlgebra
