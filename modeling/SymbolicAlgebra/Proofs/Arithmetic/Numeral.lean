import Mathlib.Tactic.SplitIfs
import SymbolicAlgebra.Arithmetic.Literal

/-!
# Decimal numerals

A natural number is written with its decimal digits, the most significant one first, and the reader
of literals takes them back to the number. Both go digit by digit: a numeral is the numeral of the
tenth part and one more digit, and the reader puts a digit on top of what it has read.
-/

namespace SymbolicAlgebra

namespace Literal

/-- What is read after `cs` is read on top of the value of `cs`. -/
theorem readDigits?_append (radix value : Nat) (cs ds : List Char) :
    readDigits? radix value (cs ++ ds) =
      (readDigits? radix value cs).bind fun v => readDigits? radix v ds := by
  induction cs generalizing value with
  | nil => rfl
  | cons c cs ih =>
    rw [List.cons_append]
    simp only [readDigits?, ih]
    split_ifs
    · rfl
    · cases digitValue? c with
      | none => rfl
      | some d => by_cases hd : d < radix <;> simp [hd]

/-- A single decimal digit is read. -/
theorem readDigits?_digitChar {d : Nat} (hd : d < 10) (value : Nat) :
    readDigits? 10 value [Nat.digitChar d] = some (value * 10 + d) := by
  have hdigits : ∀ d < 10, Nat.digitChar d ≠ '_' ∧ digitValue? (Nat.digitChar d) = some d := by
    decide
  obtain ⟨hne, hval⟩ := hdigits d hd
  simp [readDigits?, hne, hval, hd]

/-- A decimal numeral is read as its number. -/
theorem readDigits?_toDigits (n : Nat) : readDigits? 10 0 (Nat.toDigits 10 n) = some n := by
  induction n using Nat.strongRecOn with
  | ind n ih =>
    obtain hlt | hle := Nat.lt_or_ge n 10
    · rw [Nat.toDigits_of_lt_base hlt, readDigits?_digitChar hlt, Nat.zero_mul, Nat.zero_add]
    · have hdiv : n / 10 < n := by omega
      have hmod : n % 10 < 10 := by omega
      rw [Nat.toDigits_of_base_le (by omega) hle, readDigits?_append, ih _ hdiv,
        Option.bind_some, readDigits?_digitChar hmod]
      congr 1
      omega

end Literal

/-- The characters of a numeral are decimal digits. -/
theorem isDigit_of_mem_toString {n : Nat} {c : Char} (h : c ∈ (toString n).toList) :
    c.isDigit = true := by
  rw [Nat.toString_eq_ofList_toDigits, String.toList_ofList] at h
  exact Nat.isDigit_of_mem_toDigits (by omega) (by omega) h

/-- A numeral starts with a decimal digit. -/
theorem exists_toList_toString (n : Nat) :
    ∃ c cs, (toString n).toList = c :: cs ∧ c.isDigit = true := by
  cases h : (toString n).toList with
  | nil =>
    rw [Nat.toString_eq_ofList_toDigits, String.toList_ofList] at h
    exact absurd h Nat.toDigits_ne_nil
  | cons c cs => exact ⟨c, cs, rfl, isDigit_of_mem_toString (by rw [h]; exact List.mem_cons_self)⟩

/-- The text of a natural number is read as the number. -/
theorem readDigits?_toString (n : Nat) :
    Literal.readDigits? 10 0 (toString n).toList = some n := by
  rw [Nat.toString_eq_ofList_toDigits, String.toList_ofList, Literal.readDigits?_toDigits]

end SymbolicAlgebra
