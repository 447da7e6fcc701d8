import Mathlib.Data.Rat.Cast.Order
import Mathlib.Tactic.Ring
import SymbolicAlgebra.Expr.Text
import SymbolicAlgebra.Proofs.Arithmetic.Numeral
import SymbolicAlgebra.Proofs.Expr.FieldExpression

/-!
# Reading the notation of arithmetic

The notation of expressions leaves parentheses out, and different expressions may have one text:
`-x * y / z` is a product with a quotient in it, or a quotient of a product. That the text never
leaves open which value is meant is shown by a reader that goes through it once, from left to right,
and computes as it goes.

The reader keeps one `OpenSum` for each open parenthesis: the sum of the terms that are complete, the
product of the factors of the current one, and the last factor, which may still become the base of
a power. It is total, dividing by zero as `ℚ` does. What a text does to a sum depends on how
tightly the text binds. A tight one is taken in as one factor at any place, a loose one only at the
start of a term, or of a sum; `ReadsOperand`, `ReadsFactor`, `ReadsTerm` and `ReadsSum` say this for
the priorities of the arithmetic operations, and a text in parentheses is as tight as any.

From this follows `Expr.eq_of_toText_eq`: two expressions with one text have one value.
-/

namespace SymbolicAlgebra

open Layout

/-! ## The reader -/

/-- What is known of the text since the innermost open parenthesis. -/
@[ext]
structure OpenSum where
  /-- The sum of the terms that are complete. -/
  total : ℚ
  /-- The product of the complete factors of the current term, its sign included. -/
  product : ℚ
  /-- Whether the next factor divides. -/
  divides : Bool
  /-- The base of a power whose exponent is to come. -/
  base? : Option ℚ
  /-- The last factor, which a sign of a power may still follow. -/
  factor? : Option ℚ

namespace OpenSum

/-- Nothing is read yet. -/
def start : OpenSum := ⟨0, 1, false, none, none⟩

/-- The current term, if it ends here. -/
def term (l : OpenSum) : ℚ :=
  match l.factor? with
  | none => l.product
  | some v => if l.divides then l.product / v else l.product * v

/-- The sum, if it ends here. -/
def value (l : OpenSum) : ℚ := l.total + l.term

/-- Takes a value in, as a factor or as the exponent of one. -/
def push (l : OpenSum) (v : ℚ) : OpenSum :=
  { l with base? := none, factor? := some (l.base?.elim v fun b => b ^ v.num) }

/-- Goes on after an operation sign; a minus belongs to the term before which it stands. -/
def operator (l : OpenSum) (c : Char) : OpenSum :=
  match c with
  | '+' => { start with total := l.value }
  | '-' =>
    if l.factor?.isNone then { l with product := -l.product }
    else { start with total := l.value, product := -1 }
  | '*' => { l with product := l.term, divides := false, factor? := none }
  | '/' => { l with product := l.term, divides := true, factor? := none }
  | '^' => { l with base? := l.factor?, factor? := none }
  | _ => l

end OpenSum

/-- The reader between two characters. -/
structure Reader where
  /-- The text since the innermost open parenthesis. -/
  current : OpenSum
  /-- The texts around it, the innermost first. -/
  outer : List OpenSum
  /-- The word that is being read, the last character first. -/
  word : List Char

/-- Whether the character is a blank, a parenthesis or an operation sign, which end words. -/
def isDelimiter (c : Char) : Bool :=
  c ∈ [' ', '+', '-', '*', '/', '^', '(', ')']

/-- The value of a word: a numeral stands for itself, any other word is a name. -/
def wordValue (ρ : Assignment) (word : List Char) : ℚ :=
  match Literal.readDigits? 10 0 word with
  | some n => n
  | none => ρ (String.ofList word)

namespace Reader

variable (ρ : Assignment)

/-- Takes in the word that ends here, if there is one. -/
def endWord (s : Reader) : Reader :=
  if s.word.isEmpty then s
  else { s with current := s.current.push (wordValue ρ s.word.reverse), word := [] }

/-- Takes in a delimiter. -/
def symbol (s : Reader) (c : Char) : Reader :=
  match c with
  | '(' => { s with current := .start, outer := s.current :: s.outer }
  | ')' =>
    match s.outer with
    | [] => s
    | l :: ls => { s with current := l.push s.current.value, outer := ls }
  | c => { s with current := s.current.operator c }

/-- Takes in one character. -/
def step (s : Reader) (c : Char) : Reader :=
  if isDelimiter c then (s.endWord ρ).symbol c else { s with word := c :: s.word }

/-- Takes in a text and the word at its end. -/
def read (s : Reader) (text : List Char) : Reader := (text.foldl (step ρ) s).endWord ρ

variable {ρ} {s : Reader} {l : OpenSum} {outer : List OpenSum} {c : Char}

/-- A delimiter is taken in after the text in front of it. -/
theorem read_append_cons (hc : isDelimiter c = true) (s : Reader) (cs ds : List Char) :
    s.read ρ (cs ++ c :: ds) = ((s.read ρ cs).symbol c).read ρ ds := by
  rw [read, read, read, List.foldl_append, List.foldl_cons]
  congr 2
  rw [step, if_pos hc]

/-- A delimiter is taken in when nothing is waiting in front of it. -/
theorem read_cons (hc : isDelimiter c = true) (l : OpenSum) (outer : List OpenSum) (ds : List Char) :
    read ρ ⟨l, outer, []⟩ (c :: ds) = (symbol ⟨l, outer, []⟩ c).read ρ ds :=
  read_append_cons hc _ [] ds

/-- A word is taken in as one value. -/
theorem read_word {w : List Char} (hne : w ≠ []) (hw : ∀ c ∈ w, isDelimiter c = false) (l : OpenSum)
    (outer : List OpenSum) :
    read ρ ⟨l, outer, []⟩ w = ⟨l.push (wordValue ρ w), outer, []⟩ := by
  have hfold : ∀ (w : List Char) (s : Reader), (∀ c ∈ w, isDelimiter c = false) →
      w.foldl (step ρ) s = { s with word := w.reverse ++ s.word } := by
    intro w
    induction w with
    | nil => intro s _; rfl
    | cons c w ih =>
      intro s hw
      obtain ⟨hc, hw⟩ := List.forall_mem_cons.mp hw
      rw [List.foldl_cons, step, hc, if_neg Bool.false_ne_true, ih _ hw]
      simp
  rw [read, hfold w _ hw, endWord]
  simp [hne]

/-- A sign with or without blanks around it is taken in after the text in front of it. -/
theorem read_operator {sep : List Char} (hc : c ∈ ['+', '-', '*', '/', '^'])
    (hsep : sep = [c] ∨ sep = [' ', c, ' ']) {l' : OpenSum} {s : Reader} {cs : List Char}
    (h : s.read ρ cs = ⟨l', outer, []⟩) (ds : List Char) :
    s.read ρ (cs ++ (sep ++ ds)) = read ρ ⟨l'.operator c, outer, []⟩ ds := by
  have hsigns : ∀ c ∈ ['+', '-', '*', '/', '^'], isDelimiter c = true ∧ c ≠ '(' ∧ c ≠ ')' := by
    simp [isDelimiter]
  obtain ⟨hdelim, hopen, hclose⟩ := hsigns c hc
  have hsymbol : ∀ l : OpenSum, symbol ⟨l, outer, []⟩ c = ⟨l.operator c, outer, []⟩ := by
    intro l
    rw [symbol]
    · exact hopen
    · exact hclose
  obtain rfl | rfl := hsep
  · rw [List.singleton_append, read_append_cons hdelim, h, hsymbol]
  · -- The blanks change nothing.
    simp only [List.cons_append, List.nil_append]
    rw [read_append_cons (by decide), h]
    change read ρ ⟨l', outer, []⟩ (c :: ' ' :: ds) = _
    rw [read_cons hdelim, hsymbol, read_cons (by decide)]
    rfl

end Reader

/-! ## What texts are read as -/

section Reads

variable (ρ : Assignment)

/-- The reader goes over the text from one sum to another. -/
def Takes (l : OpenSum) (text : String) (l' : OpenSum) : Prop :=
  ∀ outer, Reader.read ρ ⟨l, outer, []⟩ text.toList = ⟨l', outer, []⟩

/-- The text has the value as a factor, also as an exponent. -/
def ReadsOperand (text : String) (v : ℚ) : Prop := ∀ l, Takes ρ l text (l.push v)

/-- The text has the value as a factor, but not as an exponent. -/
def ReadsFactor (text : String) (v : ℚ) : Prop :=
  ∀ l, l.base? = none → Takes ρ l text (l.push v)

/-- A term, or a part of one, starts here. -/
structure OpenSum.Ready (l : OpenSum) : Prop where
  base : l.base? = none
  factor : l.factor? = none
  divides : l.divides = false

/-- A term could end here. -/
structure OpenSum.Complete (l : OpenSum) : Prop where
  base : l.base? = none
  factor : l.factor?.isNone = false

/-- The text has the value as the first factors of a term. -/
def ReadsTerm (text : String) (v : ℚ) : Prop :=
  ∀ l, l.Ready → ∃ l', Takes ρ l text l' ∧ l'.Complete ∧ l'.total = l.total ∧
    l'.term = l.product * v

/-- The text has the value as the next terms of a sum. -/
def ReadsSum (text : String) (v : ℚ) : Prop :=
  ∀ l, l.Ready → l.product = 1 → ∃ l', Takes ρ l text l' ∧ l'.Complete ∧ l'.value = l.total + v

variable {ρ} {t u sep : String} {v w : ℚ} {l l' l'' : OpenSum} {c : Char}

/-- The sign of an operation, with or without blanks around it. -/
def IsSign (c : Char) (sep : String) : Prop :=
  c ∈ ['+', '-', '*', '/', '^'] ∧ (sep.toList = [c] ∨ sep.toList = [' ', c, ' '])

/-- Two texts are taken in one after the other, with the sign of an operation between them. -/
theorem Takes.operator (h : Takes ρ l t l') (hc : IsSign c sep)
    (h' : Takes ρ (l'.operator c) u l'') : Takes ρ l (t ++ sep ++ u) l'' := by
  intro outer
  rw [String.append_assoc, String.toList_append, String.toList_append,
    Reader.read_operator hc.1 hc.2 (h outer), h' outer]

/-- A sign in front of a text is taken in first. -/
theorem Takes.leadingOperator (hc : IsSign c sep) (h : Takes ρ (l.operator c) u l') :
    Takes ρ l (sep ++ u) l' := by
  have hempty : Takes ρ l "" l := fun outer => rfl
  simpa using hempty.operator hc h

/-! ### From tight to loose -/

/-- A term could end after a factor. -/
theorem OpenSum.complete_push (l : OpenSum) (v : ℚ) : (l.push v).Complete := ⟨rfl, rfl⟩

/-- A further factor multiplies the term, or divides it after a slash. -/
theorem OpenSum.term_push (hbase : l.base? = none) :
    (l.push v).term = if l.divides then l.product / v else l.product * v := by
  rw [term, push, hbase]
  rfl

/-- What could be an exponent could be a factor. -/
theorem ReadsOperand.factor (h : ReadsOperand ρ t v) : ReadsFactor ρ t v := fun l _ => h l

/-- A factor is a term. -/
theorem ReadsFactor.term (h : ReadsFactor ρ t v) : ReadsTerm ρ t v := fun l hl =>
  ⟨l.push v, h l hl.base, l.complete_push v, rfl, by simp [OpenSum.term_push hl.base, hl.divides]⟩

/-- A term is a sum. -/
theorem ReadsTerm.sum (h : ReadsTerm ρ t v) : ReadsSum ρ t v := by
  intro l hl hone
  obtain ⟨l', htakes, hdone, htotal, hterm⟩ := h l hl
  exact ⟨l', htakes, hdone, by rw [OpenSum.value, htotal, hterm, hone, one_mul]⟩

/-- In parentheses a text is read as one operand, whatever the reader is in the middle of. -/
theorem ReadsSum.parenthesized (h : ReadsSum ρ t v) : ReadsOperand ρ ("(" ++ t ++ ")") v := by
  intro l outer
  obtain ⟨l', htakes, -, hvalue⟩ := h .start ⟨rfl, rfl, rfl⟩ rfl
  have hopen : Reader.read ρ ⟨l, outer, []⟩ ('(' :: t.toList) = ⟨l', l :: outer, []⟩ := by
    rw [Reader.read_cons (by decide)]
    exact htakes (l :: outer)
  have htext : ("(" ++ t ++ ")").toList = '(' :: t.toList ++ ')' :: [] := by
    simp
  rw [htext, Reader.read_append_cons (by decide), hopen]
  change (⟨l.push l'.value, outer, []⟩ : Reader) = _
  rw [hvalue, OpenSum.start, zero_add]

/-! ### Operations -/

/-- A power is read as a factor, and its exponent as a whole number. -/
theorem ReadsOperand.power (ht : ReadsOperand ρ t v) (hu : ReadsOperand ρ u w) :
    ReadsFactor ρ (t ++ "^" ++ u) (v ^ w.num) := by
  intro l hbase
  have hpush : ((l.push v).operator '^').push w = l.push (v ^ w.num) := by
    simp [OpenSum.push, OpenSum.operator, hbase]
  exact hpush ▸ (ht l).operator ⟨by decide, .inl rfl⟩ (hu _)

/-- A factor with a sign is read as a term. -/
theorem ReadsFactor.neg (h : ReadsFactor ρ t v) : ReadsTerm ρ ("-" ++ t) (-v) := by
  intro l hl
  have hminus : l.operator '-' = { l with product := -l.product } := by
    simp [OpenSum.operator, hl.factor]
  have hsign : IsSign '-' "-" := ⟨by decide, .inl rfl⟩
  have hbase : (l.operator '-').base? = none := by rw [hminus, hl.base]
  refine ⟨(l.operator '-').push v, .leadingOperator hsign (h _ hbase), OpenSum.complete_push _ v, ?_, ?_⟩
  · rw [hminus]
    rfl
  · rw [OpenSum.term_push hbase, hminus]
    simp [hl.divides]

/-- A product of terms is read as a term. -/
theorem ReadsTerm.mul (ht : ReadsTerm ρ t v) (hu : ReadsTerm ρ u w) :
    ReadsTerm ρ (t ++ " * " ++ u) (v * w) := by
  intro l hl
  obtain ⟨m, htakes, hdone, htotal, hterm⟩ := ht l hl
  obtain ⟨l', htakes', hdone', htotal', hterm'⟩ := hu (m.operator '*') ⟨hdone.base, rfl, rfl⟩
  refine ⟨l', htakes.operator ⟨by decide, .inr rfl⟩ htakes', hdone', htotal'.trans htotal, ?_⟩
  rw [hterm', ← mul_assoc, ← hterm]
  rfl

/-- A term over a factor is read as a term. -/
theorem ReadsTerm.div (ht : ReadsTerm ρ t v) (hsep : IsSign '/' sep) (hu : ReadsFactor ρ u w) :
    ReadsTerm ρ (t ++ sep ++ u) (v / w) := by
  intro l hl
  obtain ⟨m, htakes, hdone, htotal, hterm⟩ := ht l hl
  have hbase : (m.operator '/').base? = none := hdone.base
  refine ⟨(m.operator '/').push w, htakes.operator hsep (hu _ hbase),
    OpenSum.complete_push _ w, htotal, ?_⟩
  rw [OpenSum.term_push hbase]
  change m.term / w = _
  rw [hterm, mul_div_assoc]

/-- A sum of sums is read as a sum. -/
theorem ReadsSum.add (ht : ReadsSum ρ t v) (hu : ReadsSum ρ u w) :
    ReadsSum ρ (t ++ " + " ++ u) (v + w) := by
  intro l hl hone
  obtain ⟨m, htakes, -, hvalue⟩ := ht l hl hone
  obtain ⟨l', htakes', hdone', hvalue'⟩ := hu (m.operator '+') ⟨rfl, rfl, rfl⟩ rfl
  refine ⟨l', htakes.operator ⟨by decide, .inr rfl⟩ htakes', hdone', ?_⟩
  rw [hvalue', ← add_assoc, ← hvalue]
  rfl

/-- A difference is read as a sum; what is taken away has to be a term. -/
theorem ReadsSum.sub (ht : ReadsSum ρ t v) (hu : ReadsTerm ρ u w) :
    ReadsSum ρ (t ++ " - " ++ u) (v - w) := by
  intro l hl hone
  obtain ⟨m, htakes, hdone, hvalue⟩ := ht l hl hone
  have hminus : m.operator '-' = { OpenSum.start with total := m.value, product := -1 } := by
    simp [OpenSum.operator, hdone.factor]
  obtain ⟨l', htakes', hdone', htotal', hterm'⟩ := hu (m.operator '-')
    (by rw [hminus]; exact ⟨rfl, rfl, rfl⟩)
  refine ⟨l', htakes.operator ⟨by decide, .inr rfl⟩ htakes', hdone', ?_⟩
  rw [OpenSum.value, htotal', hterm', hminus, hvalue]
  ring

/-! ### Words -/

/-- A word that is not a numeral is read as a name. -/
structure IsName (name : String) : Prop where
  /-- The first character is there, and no numeral starts with it. -/
  head : ∃ c cs, name.toList = c :: cs ∧ c.isDigit = false ∧ c ≠ '_'
  /-- All characters belong to the word. -/
  word : ∀ c ∈ name.toList, isDelimiter c = false

/-- Letters, digits and underscores belong to words. -/
theorem isDelimiter_eq_false (h : c.isAlphanum = true ∨ c = '_') : isDelimiter c = false := by
  have hdelim : ∀ d ∈ [' ', '+', '-', '*', '/', '^', '(', ')'],
      d.isAlphanum = false ∧ d ≠ '_' := by simp
  rw [isDelimiter, decide_eq_false_iff_not]
  intro hc
  obtain h | h := h
  · exact Bool.noConfusion ((hdelim c hc).1.symm.trans h)
  · exact (hdelim c hc).2 h

/-- A letter is no digit. -/
theorem isDigit_eq_false_of_isAlpha (hc : c.isAlpha = true) : c.isDigit = false := by
  have hletter : (decide (65 ≤ c.val ∧ c.val ≤ 90) ||
      decide (97 ≤ c.val) && decide (c.val ≤ 122)) = true := hc
  change (decide (48 ≤ c.val) && decide (c.val ≤ 57)) = false
  simp only [UInt32.le_iff_toNat_le, Bool.or_eq_true, Bool.and_eq_true, decide_eq_true_eq,
    Bool.and_eq_false_iff, decide_eq_false_iff_not, UInt32.reduceToNat] at hletter ⊢
  omega

/-- A letter followed by letters, digits and underscores is a name. -/
theorem isName_of_letter_cons {name : String} {cs : List Char} (htext : name.toList = c :: cs)
    (hc : c.isAlpha = true) (hcs : ∀ d ∈ cs, d.isAlphanum = true ∨ d = '_') : IsName name where
  head := by
    refine ⟨c, cs, htext, isDigit_eq_false_of_isAlpha hc, ?_⟩
    rintro rfl
    exact absurd hc (by decide)
  word := by
    rw [htext]
    refine List.forall_mem_cons.mpr ⟨isDelimiter_eq_false (.inl ?_), fun d hd =>
      isDelimiter_eq_false (hcs d hd)⟩
    rw [Char.isAlphanum, hc, Bool.true_or]

/-- No numeral starts with a character that is neither a digit nor an underscore. -/
theorem readDigits?_cons_eq_none {cs : List Char} (hc : c.isDigit = false) (hne : c ≠ '_') (n : ℕ) :
    Literal.readDigits? 10 n (c :: cs) = none := by
  have hdigit : ¬ ('0' ≤ c ∧ c ≤ '9') := by
    rintro ⟨hle, hge⟩
    have hc' : c.isDigit = true := by
      rw [Char.isDigit, Bool.and_eq_true]
      exact ⟨decide_eq_true hle, decide_eq_true hge⟩
    exact Bool.noConfusion (hc.symm.trans hc')
  rw [Literal.readDigits?, if_neg hne, Literal.digitValue?, if_neg hdigit]
  split_ifs <;> simp

/-- A name is read as the value of the variable. -/
theorem IsName.readsOperand {name : String} (h : IsName name) : ReadsOperand ρ name (ρ name) := by
  intro l outer
  obtain ⟨c, cs, htext, hc, hne⟩ := h.head
  rw [Reader.read_word (by simp [htext]) h.word, wordValue, htext,
    readDigits?_cons_eq_none hc hne, ← htext, String.ofList_toList]

/-- The digits of a natural number are read as the number. -/
theorem readsOperand_natCast (n : ℕ) : ReadsOperand ρ (toString n) n := by
  intro l outer
  obtain ⟨c, cs, htext, -⟩ := exists_toList_toString n
  have hne : (toString n).toList ≠ [] := by rw [htext]; exact List.cons_ne_nil c cs
  have hword : ∀ c ∈ (toString n).toList, isDelimiter c = false := by
    intro c hc
    refine isDelimiter_eq_false (.inl ?_)
    rw [Char.isAlphanum, isDigit_of_mem_toString hc, Bool.or_true]
  rw [Reader.read_word hne hword, wordValue, readDigits?_toString]

/-! ### Numbers -/

/-- An integer is read as a term, since it may have a sign. -/
theorem readsTerm_intCast (n : ℤ) : ReadsTerm ρ (toString n) n := by
  cases n with
  | ofNat m => exact_mod_cast (readsOperand_natCast (ρ := ρ) m).factor.term
  | negSucc m =>
    have h := (readsOperand_natCast (ρ := ρ) (m + 1)).factor.neg
    rw [Int.cast_negSucc]
    exact h

/-- An integer without a sign is read as an operand. -/
theorem readsOperand_intCast {n : ℤ} (hn : 0 ≤ n) : ReadsOperand ρ (toString n) n := by
  obtain ⟨m, rfl⟩ := Int.eq_ofNat_of_zero_le hn
  exact_mod_cast readsOperand_natCast (ρ := ρ) m

/-- A fraction is read as the quotient of its numerator and its denominator. -/
theorem readsTerm_rationalText (r : ℚ) : ReadsTerm ρ (rationalText r) r := by
  rw [rationalText]
  split_ifs with hden
  · have hnum := readsTerm_intCast (ρ := ρ) r.num
    rwa [(Rat.den_eq_one_iff r).mp hden] at hnum
  · have hsign : IsSign '/' "/" := ⟨by decide, .inl rfl⟩
    have hquot := (readsTerm_intCast (ρ := ρ) r.num).div hsign (readsOperand_natCast r.den).factor
    rwa [Rat.num_div_den] at hquot

/-! ### Operands in their places -/

/-- A text of an expression of the given priority is read as tightly as the priority asks for. -/
def ReadsAt (ρ : Assignment) : Priority → String → ℚ → Prop
  | .leaf | .function => ReadsOperand ρ
  | .power => ReadsFactor ρ
  | .mul => ReadsTerm ρ
  | _ => ReadsSum ρ

/-- What is read in a tight place is read in a loose one. -/
theorem ReadsAt.mono {p q : Priority} (h : ReadsAt ρ p t v) (hle : p.rank ≤ q.rank) :
    ReadsAt ρ q t v := by
  cases p <;> cases q <;>
    first
      | exact h
      | exact h.factor
      | exact h.factor.term
      | exact h.factor.term.sum
      | exact h.term
      | exact h.term.sum
      | exact h.sum
      | exact absurd hle (by decide)

/-- Every text may start a sum. -/
theorem ReadsAt.sum {p : Priority} (h : ReadsAt ρ p t v) : ReadsSum ρ t v :=
  h.mono (q := .or) (by cases p <;> decide)

/-- In parentheses, if it is given them, the text is read in any place. -/
theorem ReadsAt.parenthesize {p q : Priority} (h : ReadsAt ρ p t v) {needed : Bool}
    (hle : needed = false → p.rank ≤ q.rank) :
    ReadsAt ρ q (Layout.parenthesize needed t) v := by
  cases needed with
  | false => exact h.mono (hle rfl)
  | true =>
    have hleaf : ReadsAt ρ .leaf ("(" ++ t ++ ")") v := h.sum.parenthesized
    exact hleaf.mono (Nat.zero_le _)

/-- In a place that takes its priority, a text is read with or without parentheses. -/
theorem ReadsAt.upTo {e : Expr} (h : ReadsAt ρ e.priority t v) (place : Priority) :
    ReadsAt ρ place (Layout.upTo place e t) v :=
  h.parenthesize fun hrank => by simpa using hrank

/-- In a place that needs a higher priority, a text of the same one gets parentheses. -/
theorem ReadsAt.below {e : Expr} (h : ReadsAt ρ e.priority t v) {p place : Priority}
    (hp : p.rank + 1 = place.rank) : ReadsAt ρ p (Layout.below place e t) v :=
  h.parenthesize fun hrank => by
    have hlt : ¬ place.rank ≤ e.priority.rank := by simpa using hrank
    omega

/-- A literal is read with its value, in the places of its priority. -/
theorem readsAt_number {n : Number} (h : n.toRat? = some v) :
    ReadsAt ρ n.priority n.toText v := by
  cases n with
  | int n =>
    obtain rfl : (n : ℚ) = v := Option.some.inj h
    change ReadsAt ρ (if (Number.int n).isNegative then .mul else .leaf) _ _
    split_ifs with hneg
    · exact readsTerm_intCast n
    · rw [Number.isNegative_iff h, not_lt] at hneg
      exact readsOperand_intCast (by exact_mod_cast hneg)
  | rat r =>
    obtain rfl : r = v := Option.some.inj h
    exact readsTerm_rationalText r
  | real | complex => simp [Number.toRat?] at h

end Reads

/-! ## Expressions -/

namespace Expr

/-- Expressions built from exact numbers and variables with names by sums and products of at least
one operand, signs, quotients and powers. -/
inductive IsLegible : Expr → Prop
  | number {n : Number} {q : ℚ} (h : n.toRat? = some q) : IsLegible (.number n)
  | var {v : String} (h : IsName v) : IsLegible (.var v)
  | sum {es : List Expr} (hne : es ≠ []) (h : ∀ e ∈ es, IsLegible e) : IsLegible (.sum es)
  | product {es : List Expr} (hne : es ≠ []) (h : ∀ e ∈ es, IsLegible e) :
      IsLegible (.product es)
  | power {b x : Expr} (hb : IsLegible b) (hx : IsLegible x) : IsLegible (.power b x)
  | neg {a : Expr} (ha : IsLegible a) : IsLegible (.neg a)
  | div {a b : Expr} (ha : IsLegible a) (hb : IsLegible b) : IsLegible (.div a b)

variable {ρ : Assignment} {e e₁ e₂ a b x : Expr} {es : List Expr} {p q v v₁ v₂ : ℚ} {t : String}

/-! ### The values of operands -/

/-- A sum has a value if its first term and the rest have one. -/
theorem exactValue?_sum_cons (e : Expr) (es : List Expr) : (Expr.sum (e :: es)).exactValue? ρ =
    Option.map₂ (· + ·) (e.exactValue? ρ) ((Expr.sum es).exactValue? ρ) := rfl

/-- A product has a value if its first factor and the rest have one. -/
theorem exactValue?_product_cons (e : Expr) (es : List Expr) :
    (Expr.product (e :: es)).exactValue? ρ =
      Option.map₂ (· * ·) (e.exactValue? ρ) ((Expr.product es).exactValue? ρ) := rfl

/-- An expression with a sign has a value only if the operand has one. -/
theorem exists_of_exactValue?_neg (h : (Expr.neg a).exactValue? ρ = some v) :
    ∃ p, a.exactValue? ρ = some p ∧ v = -p := by
  obtain ⟨p, hp, rfl⟩ := Option.map_eq_some_iff.mp h
  exact ⟨p, hp, rfl⟩

/-- A quotient has a value only if numerator and denominator have one. -/
theorem exists_of_exactValue?_div (h : (Expr.div a b).exactValue? ρ = some v) :
    ∃ p q, a.exactValue? ρ = some p ∧ b.exactValue? ρ = some q ∧ v = p / q := by
  obtain ⟨p, hp, h⟩ := Option.bind_eq_some_iff.mp h
  obtain ⟨q, hq, h⟩ := Option.bind_eq_some_iff.mp h
  rw [exactQuotient?] at h
  split_ifs at h
  exact ⟨p, q, hp, hq, (Option.some.inj h).symm⟩

/-- A power has a value only if base and exponent have one. -/
theorem exists_of_exactValue?_power (h : (Expr.power b x).exactValue? ρ = some v) :
    ∃ p q, b.exactValue? ρ = some p ∧ x.exactValue? ρ = some q ∧ v = p ^ q.num := by
  obtain ⟨p, hp, h⟩ := Option.bind_eq_some_iff.mp h
  obtain ⟨q, hq, h⟩ := Option.bind_eq_some_iff.mp h
  rw [exactPower?] at h
  split_ifs at h
  exact ⟨p, q, hp, hq, (Option.some.inj h).symm⟩

/-! ### The notation is read as the value -/

/-- Where the expression has a value, the reader gets it from the notation. -/
def Readable (ρ : Assignment) (e : Expr) : Prop :=
  ∀ v, e.exactValue? ρ = some v → ReadsAt ρ e.priority e.toText v

/-- The negated terms of a sum are written without their signs, which are between the terms. -/
def ReadableTerm (ρ : Assignment) (e : Expr) : Prop :=
  Readable ρ e ∧ ∀ a, e = .neg a → Readable ρ a

/-- Terms that follow are added to what has been read. -/
theorem readsSum_laterTerms (hes : ∀ e ∈ es, ReadableTerm ρ e)
    (hv : (Expr.sum es).exactValue? ρ = some v) (ht : ReadsSum ρ t p) :
    ReadsSum ρ (t ++ laterTermsText es) (p + v) := by
  induction es generalizing t p v with
  | nil =>
    obtain rfl : 0 = v := Option.some.inj hv
    simpa [laterTermsText] using ht
  | cons e es ih =>
    obtain ⟨⟨he, hneg⟩, hrest⟩ := List.forall_mem_cons.mp hes
    rw [exactValue?_sum_cons, Option.map₂_eq_some_iff] at hv
    obtain ⟨q, w, hq, hw, rfl⟩ := hv
    have hplus : ReadsSum ρ (t ++ (" + " ++ upTo .sum e e.toText ++ laterTermsText es))
        (p + (q + w)) := by
      have hterm : ReadsSum ρ (upTo .sum e e.toText) q := (he q hq).upTo .sum
      rw [← String.append_assoc, ← String.append_assoc, ← add_assoc]
      exact ih hrest hw (ht.add hterm)
    -- A negated term is written behind a minus, every other one behind a plus.
    cases e with
    | neg a =>
      obtain ⟨r, hr, rfl⟩ := exists_of_exactValue?_neg hq
      have hterm : ReadsTerm ρ (below .sum a a.toText) r := (hneg a rfl r hr).below (p := .mul) rfl
      rw [laterTermsText, ← String.append_assoc, ← String.append_assoc, ← add_assoc]
      exact ih hrest hw (sub_eq_add_neg p r ▸ ht.sub hterm)
    | _ => exact hplus

/-- Factors are multiplied in the order in which they are read. -/
theorem readsTerm_factors (hne : es ≠ []) (hes : ∀ e ∈ es, Readable ρ e)
    (hv : (Expr.product es).exactValue? ρ = some v) :
    ReadsTerm ρ (String.intercalate " * " (operandTexts .mul es)) v := by
  induction es generalizing v with
  | nil => exact absurd rfl hne
  | cons e es ih =>
    obtain ⟨he, hes⟩ := List.forall_mem_cons.mp hes
    rw [exactValue?_product_cons, Option.map₂_eq_some_iff] at hv
    obtain ⟨p, q, hp, hq, rfl⟩ := hv
    have hfactor : ReadsTerm ρ (upTo .mul e e.toText) p := (he p hp).upTo .mul
    cases es with
    | nil =>
      obtain rfl : 1 = q := Option.some.inj hq
      rw [mul_one, operandTexts, operandTexts, String.intercalate_singleton]
      exact hfactor
    | cons e' es =>
      have hrest := ih (List.cons_ne_nil _ _) hes hq
      rw [operandTexts, operandTexts, String.intercalate_cons_cons]
      exact hfactor.mul hrest

/-- Every legible expression is written as a text that is read with its value. -/
theorem readableTerm (h : e.IsLegible) (ρ : Assignment) : ReadableTerm ρ e := by
  induction h with
  | number h =>
    refine ⟨fun v hv => ?_, fun a ha => by cases ha⟩
    exact readsAt_number hv
  | var h =>
    refine ⟨fun v hv => ?_, fun a ha => by cases ha⟩
    obtain rfl := Option.some.inj hv
    exact h.readsOperand
  | @sum es hne _ ih =>
    refine ⟨fun v hv => ?_, fun a ha => by cases ha⟩
    obtain ⟨e, es, rfl⟩ := List.exists_cons_of_ne_nil hne
    obtain ⟨he, hes⟩ := List.forall_mem_cons.mp ih
    rw [exactValue?_sum_cons, Option.map₂_eq_some_iff] at hv
    obtain ⟨p, q, hp, hq, rfl⟩ := hv
    have hfirst : ReadsSum ρ (upTo .sum e e.toText) p := (he.1 p hp).upTo .sum
    exact readsSum_laterTerms hes hq hfirst
  | product hne _ ih =>
    refine ⟨fun v hv => ?_, fun a ha => by cases ha⟩
    exact readsTerm_factors hne (fun e he => (ih e he).1) hv
  | @power b x _ _ ihb ihx =>
    refine ⟨fun v hv => ?_, fun a ha => by cases ha⟩
    obtain ⟨p, q, hp, hq, rfl⟩ := exists_of_exactValue?_power hv
    -- What binds less tightly than a power is put in parentheses.
    have hbase : ReadsOperand ρ (below .power b b.toText) p :=
      (ihb.1 p hp).below (p := .function) rfl
    have hexponent : ReadsOperand ρ (below .power x x.toText) q :=
      (ihx.1 q hq).below (p := .function) rfl
    exact hbase.power hexponent
  | @neg a _ iha =>
    -- A later term of a sum shows its operand behind a minus, in place of the sign.
    refine ⟨fun v hv => ?_, fun b hb => by cases hb; exact iha.1⟩
    obtain ⟨p, hp, rfl⟩ := exists_of_exactValue?_neg hv
    have harg : ReadsFactor ρ (below .mul a a.toText) p := (iha.1 p hp).below (p := .power) rfl
    exact harg.neg
  | @div a b _ _ iha ihb =>
    refine ⟨fun v hv => ?_, fun c hc => by cases hc⟩
    obtain ⟨p, q, hp, hq, rfl⟩ := exists_of_exactValue?_div hv
    have hnum : ReadsTerm ρ (upTo .mul a a.toText) p := (iha.1 p hp).upTo .mul
    have hden : ReadsFactor ρ (below .mul b b.toText) q := (ihb.1 q hq).below (p := .power) rfl
    have hsign : IsSign '/' " / " := ⟨by decide, .inr rfl⟩
    exact hnum.div hsign hden

/-- The value that the reader finds in a text. -/
def valueOfText (ρ : Assignment) (text : String) : ℚ :=
  (Reader.read ρ ⟨.start, [], []⟩ text.toList).current.value

/-- The value of an expression is found in its notation alone. -/
theorem valueOfText_toText (h : e.IsLegible) (hv : e.exactValue? ρ = some v) :
    valueOfText ρ e.toText = v := by
  have hsum : ReadsSum ρ e.toText v := ((readableTerm h ρ).1 v hv).sum
  obtain ⟨l, htakes, -, hvalue⟩ := hsum .start ⟨rfl, rfl, rfl⟩ rfl
  rw [valueOfText, htakes [], hvalue, OpenSum.start, zero_add]

/-- Two expressions that are written the same have the same value, wherever both have one. -/
theorem eq_of_toText_eq (h₁ : e₁.IsLegible) (h₂ : e₂.IsLegible)
    (htext : e₁.toText = e₂.toText) (hv₁ : e₁.exactValue? ρ = some v₁)
    (hv₂ : e₂.exactValue? ρ = some v₂) : v₁ = v₂ := by
  rw [← valueOfText_toText h₁ hv₁, htext, valueOfText_toText h₂ hv₂]

/-- A product with a quotient in it and a quotient of a product, both written `-x * 1/2 / y_1`. -/
theorem eq_of_toText_eq_quotient_in_product :
    let ρ : Assignment := fun v => if v = "x" then 3 else 5
    let half : Expr := .number (.rat (1 / 2))
    let e₁ : Expr := .product [.neg (.var "x"), .div half (.var "y_1")]
    let e₂ : Expr := .div (.product [.neg (.var "x"), half]) (.var "y_1")
    e₁.toText = e₂.toText ∧ e₁.exactValue? ρ = some (-3 * (1 / 2 / 5)) ∧
      e₂.exactValue? ρ = some (-3 * (1 / 2) / 5) ∧ (-3 * (1 / 2 / 5) : ℚ) = -3 * (1 / 2) / 5 := by
  intro ρ half e₁ e₂
  have hletters : "y_1".toList = ['y', '_', '1'] := rfl
  have hx : (Expr.var "x").IsLegible := .var (isName_of_letter_cons rfl rfl (by simp))
  have hy : (Expr.var "y_1").IsLegible := .var (isName_of_letter_cons hletters rfl (by simp))
  have hhalf : half.IsLegible := .number rfl
  have h₁ : e₁.IsLegible := .product (List.cons_ne_nil _ _)
    (List.forall_mem_cons.mpr ⟨.neg hx, List.forall_mem_singleton.mpr (.div hhalf hy)⟩)
  have h₂ : e₂.IsLegible := .div (.product (List.cons_ne_nil _ _)
    (List.forall_mem_cons.mpr ⟨.neg hx, List.forall_mem_singleton.mpr hhalf⟩)) hy
  have htext : e₁.toText = e₂.toText := by decide +kernel
  have hv₁ : e₁.exactValue? ρ = some (-3 * (1 / 2 / 5)) := by decide +kernel
  have hv₂ : e₂.exactValue? ρ = some (-3 * (1 / 2) / 5) := by decide +kernel
  exact ⟨htext, hv₁, hv₂, eq_of_toText_eq h₁ h₂ htext hv₁ hv₂⟩

end Expr

end SymbolicAlgebra
