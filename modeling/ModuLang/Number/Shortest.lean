import ModuLang.Number.Binary64

/-!
# The shortest decimal of a float

A float is written with the fewest decimal digits that read back as the same float; of two such
decimals the nearer one is taken. The search runs through the grids of one, two, … seventeen digits
and tests on each the two neighbours of the value.
-/

namespace ModuLang.Number

/-- A positive decimal `digits * 10 ^ exponent`. -/
structure Decimal where
  digits : Nat
  exponent : Int
  deriving DecidableEq, Repr

/-- The least exponent `e` for which the quotient `num / den` is below `10 ^ e`, less one. -/
def decimalExponent (num den : Nat) : Int :=
  let guess : Int := (Nat.toDigits 10 num).length - (Nat.toDigits 10 den).length
  let reached :=
    match guess with
    | .ofNat e => decide (den * Nat.pow 10 e ≤ num)
    | .negSucc e => decide (den ≤ num * Nat.pow 10 (e + 1))
  if reached then guess else guess - 1

/-- The numbers that read back as one float: all between `low` and `high`, both in units of a
quarter of the distance to the next float, and the ends themselves when `closed`. -/
structure Interval where
  low : Nat
  high : Nat
  closed : Bool

/-- The interval of a finite float; its own value is four times the mantissa. -/
def Interval.ofBinary (mantissa : Nat) (exponent : Int) : Interval where
  low :=
    if mantissa = hiddenBit && exponent != leastExponent then 4 * mantissa - 1 else 4 * mantissa - 2
  high := 4 * mantissa + 2
  closed := mantissa % 2 == 0

/-- Whether `num / den` units lie in the interval. -/
def Interval.contains (i : Interval) (num den : Nat) : Bool :=
  if i.closed then i.low * den ≤ num && num ≤ i.high * den
  else i.low * den < num && num < i.high * den

/-- The best decimal on the grid of multiples of `10 ^ exponent` that reads back as the float, where
a unit of the interval is `num / den`. -/
def onGrid? (i : Interval) (mantissa num den : Nat) (exponent : Int) : Option Decimal :=
  -- A grid step is `stepNum / stepDen` units.
  let (stepNum, stepDen) :=
    match exponent with
    | .ofNat e => (Nat.pow 10 e * den, num)
    | .negSucc e => (den, num * Nat.pow 10 (e + 1))
  let below := 4 * mantissa * stepDen / stepNum
  let above := below + 1
  let lower := i.contains (below * stepNum) stepDen
  let upper := i.contains (above * stepNum) stepDen
  let toBelow := 4 * mantissa * stepDen - below * stepNum
  let toAbove := above * stepNum - 4 * mantissa * stepDen
  if lower && (!upper || toBelow < toAbove || (toBelow == toAbove && below % 2 == 0)) then
    some ⟨below, exponent⟩
  else if upper then some ⟨above, exponent⟩
  else none

/-- Removes zeros at the end of the digits, at most as many as the fuel says. -/
def Decimal.stripZeros : Nat → Decimal → Decimal
  | 0, d => d
  | fuel + 1, d =>
    if d.digits % 10 = 0 then stripZeros fuel ⟨d.digits / 10, d.exponent + 1⟩ else d

/-- The shortest decimal of the positive float `mantissa * 2 ^ exponent`. -/
def shortest (mantissa : Nat) (exponent : Int) : Decimal :=
  let i := Interval.ofBinary mantissa exponent
  -- One unit, a quarter of the last binary place.
  let (num, den) := scaleBy 1 1 (2 - exponent)
  let top := decimalExponent (4 * mantissa * num) den
  let found := (List.range 17).findSome? fun places =>
    onGrid? i mantissa num den (top - (places : Nat))
  (found.getD ⟨mantissa, 0⟩).stripZeros 20

end ModuLang.Number
