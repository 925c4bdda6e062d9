import ModuLang.Proofs.NumberRange
import ModuLang.Proofs.RunEndings

/-!
# Integer results of `math`

Where the exact result of `pow`, `div` or `abs` is an integer, it is computed exactly, and then it has to
lie within 64 bits. The integers that come in may be of any size.

Only a power is not computed in every case. One with an exponent above 63 is refused at sight if its base
has at least the size two, and else it is read off the parity of the exponent. The first is right because
such a power has at least the size of the same power of two, and 2 ^ 64 is beyond the range on both
sides; that 2 ^ 63 is not, as the least integer shows, is why the bound on the exponent is what it is.
-/

namespace ModuLang

open Eval

variable {levels : Nat} {p : Point} {m' : Machine}

namespace Number

theorem inRange_iff_bounds {n : Int} : inRange n = true ↔ -2 ^ 63 ≤ n ∧ n ≤ 2 ^ 63 - 1 := by
  have hmin : intMin = -2 ^ 63 := by decide
  have hmax : intMax = 2 ^ 63 - 1 := by decide
  rw [inRange_iff, hmin, hmax]

/-- The size of an integer in range is at most that of the least one. -/
theorem natAbs_le_of_inRange {n : Int} (h : inRange n = true) : n.natAbs ≤ 2 ^ 63 := by
  have hbounds := inRange_iff_bounds.mp h
  omega

end Number

namespace Library

/-! ### Powers -/

/-- A power of an integer with at least the size two is at least as large as that of two. -/
theorem two_pow_le_natAbs_pow {a : Int} (ha : 1 < a.natAbs) (n : Nat) : 2 ^ n ≤ (a ^ n).natAbs := by
  induction n with
  | zero => rw [pow_zero, pow_zero, Int.natAbs_one]
  | succ n ih =>
    calc
      2 ^ (n + 1) = 2 ^ n * 2 := pow_succ 2 n
      _ ≤ (a ^ n).natAbs * a.natAbs := Nat.mul_le_mul ih ha
      _ = (a ^ (n + 1)).natAbs := by rw [pow_succ, Int.natAbs_mul]

/-- With an exponent above 63 such a power is out of range. -/
theorem not_inRange_pow {a : Int} {n : Nat} (ha : 1 < a.natAbs) (hn : 63 < n) :
    ¬Number.inRange (a ^ n) = true := by
  intro hrange
  have hsmall : (a ^ n).natAbs ≤ 2 ^ 63 := Number.natAbs_le_of_inRange hrange
  have hlarge : 2 ^ 64 ≤ (a ^ n).natAbs :=
    Nat.le_trans (Nat.pow_le_pow_right (by decide) hn) (two_pow_le_natAbs_pow ha n)
  omega

/-- The power of zero or a unit depends on the parity of the exponent alone. -/
theorem unitPower_eq_pow {a : Int} (ha : a.natAbs ≤ 1) (n : Nat) : unitPower a n = a ^ n := by
  have hcases : a = 0 ∨ a = 1 ∨ a = -1 := by omega
  unfold unitPower
  by_cases hzero : n = 0
  · rw [if_pos hzero, hzero, pow_zero]
  rw [if_neg hzero]
  by_cases heven : n % 2 = 0
  · rw [if_pos heven]
    rcases hcases with rfl | rfl | rfl
    · rw [zero_pow hzero, mul_zero]
    · rw [one_pow, mul_one]
    · rw [(Nat.even_iff.mpr heven).neg_one_pow]
      rfl
  · rw [if_neg heven]
    rcases hcases with rfl | rfl | rfl
    · rw [zero_pow hzero]
    · rw [one_pow]
    · rw [(Nat.not_even_iff_odd.mp fun h => heven (Nat.even_iff.mp h)).neg_one_pow]

/-- A power of integers is the exact one, checked, whichever way it is found. -/
theorem power_int (a : Int) (n : Nat) : power (.int a) (.int n) = checkedResult (a ^ n) := by
  change (if a.natAbs ≤ 1 then checkedResult (unitPower a n)
    else if 63 < n then refuse .resultOverflow else checkedResult (a.pow n)) = _
  by_cases hsmall : a.natAbs ≤ 1
  · rw [if_pos hsmall, unitPower_eq_pow hsmall]
  rw [if_neg hsmall]
  by_cases hlarge : 63 < n
  · have hrange := not_inRange_pow (Nat.lt_of_not_le hsmall) hlarge
    rw [if_pos hlarge, checkedResult, if_neg hrange]
  · rw [if_neg hlarge]
    rfl

/-! ### Quotients and sizes -/

/-- A multiple of an integer is divided exactly, whatever the signs. -/
theorem quotient_int {b : Int} (hb : b ≠ 0) (q : Int) :
    quotient (.int (q * b)) (.int b) = checkedResult q := by
  have hzero : isZero (.inl b) = false := beq_false_of_ne hb
  change (if isZero (.inl b) = true then refuse .divisionByZero
    else if q * b % b = 0 then checkedResult (q * b / b) else _) = _
  rw [hzero, if_neg Bool.false_ne_true, if_pos (Int.mul_emod_left q b), Int.mul_ediv_cancel q hb]

theorem magnitude_int (a : Int) : magnitude (.int a) = checkedResult |a| := by
  change checkedResult a.natAbs = _
  rw [Int.abs_eq_natAbs]

end Library

/-! ### Exact results -/

/-- Whether an operation ends on a machine with an exact integer, if that lies within 64 bits, and else
with an overflow that is reported at a line. -/
structure ExactOrOverflow (n line : Int) (m : Machine) (out : Outcome Value) : Prop where
  exact : -2 ^ 63 ≤ n ∧ n ≤ 2 ^ 63 - 1 → out = (.ok (.int n), m)
  overflow : ¬(-2 ^ 63 ≤ n ∧ n ≤ 2 ^ 63 - 1) →
    ∃ f : Fault, out = (.error (.failed (.fault f)), m) ∧ f.cause.family = .host ∧
      f.cause.message = "Integer overflow" ∧ f.line = line

/-- A node that applies a function with a checked result ends with it, on the machine that its arguments
leave. -/
theorem Applies.exactOrOverflow [Host.Limits] {f : Native} {vs : List Value} {n : Int}
    (h : Applies (evaluate levels) p.config p.machine p.node f vs m')
    (hresult : f.apply vs = ofExcept (Library.checkedResult n)) :
    ExactOrOverflow n p.node.line m' ((evaluate (levels + 1)).answer p) := by
  have hnode := h.outcome_evaluateNode
  rw [hresult, Library.checkedResult] at hnode
  constructor
  · intro hrange
    rw [if_pos (Number.inRange_iff_bounds.mpr hrange)] at hnode
    change (atLine p.node.line _).outcome p.machine = _
    rw [atLine, outcome_tryCatch, hnode]
    rfl
  · intro hrange
    rw [if_neg fun h => hrange (Number.inRange_iff_bounds.mp h)] at hnode
    exact ⟨_, outcome_atLine_fault p.node.line hnode, rfl, rfl, rfl⟩

/-- Integer math is exact, or it overflows. A power with an exponent that is not negative, a quotient
that is whole and a size of integers, however large these are, is the exact one if that lies within 64
bits, and else the call is an overflow. -/
theorem integer_math_exact_or_overflows [Host.Limits] :
    (∀ a b : Int, 0 ≤ b →
      Applies (evaluate levels) p.config p.machine p.node (.math .pow) [.int a, .int b] m' →
      ExactOrOverflow (a ^ b.toNat) p.node.line m' ((evaluate (levels + 1)).answer p)) ∧
    (∀ a b q : Int, b ≠ 0 → q * b = a →
      Applies (evaluate levels) p.config p.machine p.node (.math .div) [.int a, .int b] m' →
      ExactOrOverflow q p.node.line m' ((evaluate (levels + 1)).answer p)) ∧
    ∀ a : Int,
      Applies (evaluate levels) p.config p.machine p.node (.math .abs) [.int a] m' →
      ExactOrOverflow |a| p.node.line m' ((evaluate (levels + 1)).answer p) := by
  refine ⟨fun a b hb happlies => ?_, fun a b q hb hq happlies => ?_, fun a happlies => ?_⟩
  · obtain ⟨n, rfl⟩ := Int.eq_ofNat_of_zero_le hb
    exact happlies.exactOrOverflow (congrArg ofExcept (Library.power_int a n))
  · subst hq
    exact happlies.exactOrOverflow (congrArg ofExcept (Library.quotient_int hb q))
  · exact happlies.exactOrOverflow (congrArg ofExcept (Library.magnitude_int a))

/-! ### The ends of the range -/

/-- The members of the package `math`. -/
def mathMembers : List (String × Value) :=
  byName ([MathFunction.div, .abs, .pow, .sqrt, .floor, .ceil, .round, .max, .min, .random].map
    Native.math) ++ [("PI", .float circleRatio), ("E", .float naturalBase)]

/-- The machine of a program that has imported the package. -/
def mathMachine : Machine :=
  importedPackage (Session.new {} {}).machine "math" mathMembers

/-- The point of a call of a function of the package with two integers. -/
def mathPoint (function : String) (a b : Int) : Point where
  config := {}
  node := .methodCall (.identifier "math" 2) function [.literal (.int a) 2, .literal (.int b) 2] 2
  machine := mathMachine

theorem member_pow : (memberOf (evaluate 899) {} (.identifier "math" 2) "pow").outcome mathMachine =
    (.ok (0, .native (.math .pow)), mathMachine) :=
  rfl

theorem member_div : (memberOf (evaluate 899) {} (.identifier "math" 2) "div").outcome mathMachine =
    (.ok (0, .native (.math .div)), mathMachine) :=
  rfl

/-- The least integer is a power of -2, and it is the one that cannot be divided by -1. -/
theorem least_integer_power_and_quotient :
    (evaluate (899 + 1)).answer (mathPoint "pow" (-2) 63) =
        (.ok (.int (-9223372036854775808)), mathMachine) ∧
      ∃ f : Fault, (evaluate (899 + 1)).answer (mathPoint "div" (-9223372036854775808) (-1)) =
          (.error (.failed (.fault f)), mathMachine) ∧
        f.cause.family = .host ∧ f.cause.message = "Integer overflow" ∧ f.line = 2 := by
  have hpow := (integer_math_exact_or_overflows (p := mathPoint "pow" (-2) 63)).1 (-2) 63 (by decide)
    (.property member_pow rfl)
  have hdiv := (integer_math_exact_or_overflows (p := mathPoint "div" (-9223372036854775808) (-1))).2.1
    (-9223372036854775808) (-1) 9223372036854775808 (by decide) (by decide) (.property member_div rfl)
  exact ⟨hpow.exact (by decide), hdiv.overflow (by decide)⟩

end ModuLang
