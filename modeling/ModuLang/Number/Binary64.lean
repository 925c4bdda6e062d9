/-!
# Binary floats, exactly

A finite float is a whole number times a power of two. Conversions between floats, integers and
quotients are made on that form with whole numbers only: `nearest?` gives the float nearest to a
quotient, a half going to the even neighbour, and nothing when that exceeds the largest float.
-/

namespace ModuLang.Number

/-- What a float denotes; a finite one is `mantissa * 2 ^ exponent` with its sign. -/
inductive Binary64 where
  | nan
  | infinite (negative : Bool)
  | finite (negative : Bool) (mantissa : Nat) (exponent : Int)
  deriving DecidableEq, Repr

/-- The least exponent of a finite float. -/
def leastExponent : Int := -1074

/-- The bit in front of the 52 of a fraction, which every float above the least ones has. -/
def hiddenBit : Nat := 0x10000000000000

/-- Reads the bits of a float. -/
def Binary64.ofFloat (x : Float) : Binary64 :=
  let bits := x.toBits.toNat
  let negative := decide (0x8000000000000000 ≤ bits)
  let scale := bits / hiddenBit % 2048
  let fraction := bits % hiddenBit
  if scale = 2047 then
    if fraction = 0 then .infinite negative else .nan
  else if scale = 0 then .finite negative fraction leastExponent
  else .finite negative (fraction + hiddenBit) (leastExponent + (scale - 1 : Nat))

/-- The whole number nearest to a quotient; a half goes to the even neighbour. -/
def roundHalfEven (num den : Nat) : Nat :=
  let q := num / den
  let r := num % den
  if 2 * r < den then q
  else if den < 2 * r then q + 1
  else if q % 2 = 0 then q else q + 1

/-- The quotient `num / den` divided by `2 ^ exponent`, as a pair of whole numbers. -/
def scaleBy (num den : Nat) (exponent : Int) : Nat × Nat :=
  match exponent with
  | .ofNat e => (num, den * Nat.pow 2 e)
  | .negSucc e => (num * Nat.pow 2 (e + 1), den)

/-- The exponent at which a positive quotient has a mantissa of 53 binary digits, but not below the
least exponent. -/
def quotientExponent (num den : Nat) : Int :=
  let guess : Int := (num.log2 : Int) - (den.log2 : Int) - 53
  let (n, d) := scaleBy num den guess
  max leastExponent (if n / d < 2 * hiddenBit then guess else guess + 1)

/-- Gives a float its sign. -/
def withSign (negative : Bool) (x : Float) : Float :=
  if negative then -x else x

/-- The float nearest to `num / den` with the given sign, for a positive `den`. -/
def nearest? (negative : Bool) (num den : Nat) : Option Float :=
  if num = 0 then some (withSign negative 0)
  else
    let e := quotientExponent num den
    let (n, d) := scaleBy num den e
    let bits := (e - leastExponent).toNat * hiddenBit + roundHalfEven n d
    if bits < 2047 * hiddenBit then some (withSign negative (Float.ofBits bits.toUInt64)) else none

/-- The float nearest to an integer. -/
def ofInt? (n : Int) : Option Float :=
  nearest? (decide (n < 0)) n.natAbs 1

/-- The float nearest to a quotient of integers, for a divisor that is not zero. -/
def ofQuotient? (a b : Int) : Option Float :=
  nearest? (decide (a < 0) != decide (b < 0)) a.natAbs b.natAbs

/-- Positive infinity. -/
def infinity : Float := Float.ofBits 0x7FF0000000000000

/-- A float that is not a number. -/
def notANumber : Float := Float.ofBits 0x7FF8000000000000

/-- The float nearest to `digits * 10 ^ exponent`, infinity standing for all that is too large. A
quotient too far from one is settled by its size alone. -/
def ofDecimal (negative : Bool) (digits : Nat) (exponent : Int) : Float :=
  let size : Int := exponent + (Nat.toDigits 10 digits).length
  if digits = 0 || size < -400 then withSign negative 0
  else if 400 < size then withSign negative infinity
  else
    let found :=
      match exponent with
      | .ofNat e => nearest? negative (digits * Nat.pow 10 e) 1
      | .negSucc e => nearest? negative digits (Nat.pow 10 (e + 1))
    found.getD (withSign negative infinity)

/-- Ways to make a quotient whole. -/
inductive Rounding where
  | truncate
  | floor
  | ceiling
  | halfEven
  deriving DecidableEq, Repr

/-- Makes a signed quotient whole. -/
def Rounding.apply (rounding : Rounding) (negative : Bool) (num den : Nat) : Int :=
  let up := (num + den - 1) / den
  let size :=
    match rounding with
    | .truncate => num / den
    | .floor => if negative then up else num / den
    | .ceiling => if negative then num / den else up
    | .halfEven => roundHalfEven num den
  if negative then -(size : Int) else size

/-- Makes a finite float whole. -/
def toInt? (rounding : Rounding) (x : Float) : Option Int :=
  match Binary64.ofFloat x with
  | .finite negative m e =>
    let (n, d) := scaleBy m 1 (-e)
    some (rounding.apply negative n d)
  | _ => none

/-- Whether a float is a whole number. -/
def isWhole (x : Float) : Bool :=
  match Binary64.ofFloat x with
  | .finite _ m e =>
    let (n, d) := scaleBy m 1 (-e)
    n % d == 0
  | _ => false

/-- Whether a float is a number of finite size. -/
def isFinite (x : Float) : Bool :=
  match Binary64.ofFloat x with
  | .finite _ _ _ => true
  | _ => false

/-- Whether an integer is less than a float, compared exactly. -/
def intLtFloat (n : Int) (x : Float) : Bool :=
  match Binary64.ofFloat x with
  | .nan => false
  | .infinite negative => !negative
  | .finite negative m e =>
    let (num, den) := scaleBy m 1 (-e)
    let size : Int := num
    n * den < (if negative then -size else size)

/-- Whether a float is less than an integer, compared exactly. -/
def floatLtInt (x : Float) (n : Int) : Bool :=
  match Binary64.ofFloat x with
  | .nan => false
  | .infinite negative => negative
  | .finite negative m e =>
    let (num, den) := scaleBy m 1 (-e)
    let size : Int := num
    (if negative then -size else size) < n * den

end ModuLang.Number
