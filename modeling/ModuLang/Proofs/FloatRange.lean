import Mathlib.Algebra.Ring.Nat
import ModuLang.Number.Binary64

/-!
# The integers that floats can stand for

An integer is rounded to 53 binary digits, a half going to the even neighbour. The greatest float is
`2 ^ 1024 - 2 ^ 971`, and the next number with 53 digits would be `2 ^ 1024`. So an integer is too
large for a float exactly if it lies at least half way between the two: the number in the middle goes
up, since the greatest float is odd in its last digit.
-/

namespace ModuLang.Number

/-! ### Rounding -/

end ModuLang.Number
