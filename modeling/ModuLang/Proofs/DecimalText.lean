import Mathlib.Algebra.Ring.Nat
import ModuLang.Number.Numeral

/-!
# The decimal text of an integer

An integer is written as its decimal digits behind a minus if it is negative. Its digits are digits of
the basic alphabet, they spell its size, and the first of them is a zero for zero alone.
-/

namespace ModuLang.Number

open Text

/-- The digits of a number spell it. -/
theorem digitsValue_toDigits (n : Nat) : digitsValue (Nat.toDigits 10 n) = n := by
  have hfold : digitsValue (Nat.toDigits 10 n) = Nat.ofDigitChars 10 (Nat.toDigits 10 n) 0 := by
    unfold digitsValue ofDigits
    rw [List.foldl_map]
    rfl
  rw [hfold]
  exact Nat.ofDigitChars_toDigits (by decide) (by decide)

theorem isBasicDigit_of_mem_toDigits {n : Nat} {c : Char} (h : c ∈ Nat.toDigits 10 n) :
    isBasicDigit c = true :=
  Nat.isDigit_of_mem_toDigits (by decide) (by decide) h

/-- The first digit of a number other than zero is no zero. -/
theorem exists_toDigits_eq_cons {n : Nat} (hn : 0 < n) :
    ∃ c cs, Nat.toDigits 10 n = c :: cs ∧ c ≠ '0' := by
  induction n using Nat.strongRecOn with
  | ind n ih =>
    by_cases hsmall : n < 10
    · refine ⟨n.digitChar, [], Nat.toDigits_of_lt_base hsmall, ?_⟩
      have hdigit : ∀ d : Fin 10, 0 < d.val → d.val.digitChar ≠ '0' := by decide
      exact hdigit ⟨n, hsmall⟩ hn
    · -- The first digit is the one of the number without its last digit.
      obtain ⟨c, cs, heq, hc⟩ := ih (n / 10) (by omega) (by omega)
      refine ⟨c, cs ++ [(n % 10).digitChar], ?_, hc⟩
      rw [Nat.toDigits_of_base_le (by decide) (Nat.le_of_not_lt hsmall), heq, List.cons_append]

/-- The text of an integer is its digits, behind a minus if it is negative. -/
theorem toList_toString_int (n : Int) :
    (toString n).toList = (if n < 0 then ['-'] else []) ++ Nat.toDigits 10 n.natAbs := by
  cases n with
  | ofNat size =>
    have hsign : ¬Int.ofNat size < 0 := Int.not_lt.mpr (Int.natCast_nonneg size)
    rw [if_neg hsign]
    exact Nat.toList_repr
  | negSucc size =>
    have htext : toString (Int.negSucc size) = "-" ++ Nat.repr (size + 1) := rfl
    rw [if_pos (Int.negSucc_lt_zero size), htext, String.toList_append, Nat.toList_repr]
    rfl

/-- An integer can be written if its size lies below the least number of too many digits. -/
theorem isWritable_iff {n : Int} : isWritable n = true ↔ n.natAbs < 10 ^ digitLimit := by
  unfold isWritable
  rw [decide_eq_true_iff]
  exact Nat.length_toDigits_le_iff (by decide) (by decide)

/-- What is no larger than an integer that can be written can be written. -/
theorem isWritable_of_le {k n : Int} (hn : isWritable n = true) (hle : k.natAbs ≤ n.natAbs) :
    isWritable k = true :=
  isWritable_iff.mpr (Nat.lt_of_le_of_lt hle (isWritable_iff.mp hn))

/-- The integers of the language's arithmetic can be written. -/
theorem isWritable_of_inRange {n : Int} (h : inRange n = true) : isWritable n = true := by
  have hbounds : intMin ≤ n ∧ n ≤ intMax := inRange_iff.mp h
  have hmin : intMin = -2 ^ 63 := by decide
  have hmax : intMax = 2 ^ 63 - 1 := by decide
  have hdigits : (10 : Nat) ^ 19 ≤ 10 ^ digitLimit := Nat.pow_le_pow_right (by decide) (by decide)
  exact isWritable_iff.mpr (by omega)

end ModuLang.Number
