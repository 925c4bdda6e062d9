import ModuLang.Operator

/-!
# The package `math`

Integers give an integer wherever the result is exact, and that has to lie within 64 bits. In all
other cases the result is a float.
-/

namespace ModuLang.Library

/-- A number: an integer or a float. -/
abbrev Numeric := Int ⊕ Float

/-- A number as a value. -/
def ofNumeric : Numeric → Value
  | .inl n => .int n
  | .inr x => .float x

/-- A value as a number. -/
def toNumeric? : Value → Option Numeric
  | .int n => some (.inl n)
  | .float x => some (.inr x)
  | _ => none

/-- A value that has to be a number. -/
def requireNumber (function : String) (v : Value) : Except Failure Numeric :=
  match toNumeric? v with
  | some n => .ok n
  | none => refuse (.numberRequired function)

/-- An integer result, which has to lie within 64 bits. -/
def checkedResult (n : Int) : Except Failure Value :=
  if Number.inRange n then .ok (.int n) else refuse .resultOverflow

/-- A number as a float. -/
def numericToFloat : Numeric → Except Failure Float
  | .inl n => intToFloat n
  | .inr x => .ok x

/-- Whether a number is zero. -/
def isZero : Numeric → Bool
  | .inl n => n == 0
  | .inr x => x == 0

/-- The quotient of two numbers: an integer if it is a whole one of integers. -/
def quotient (a b : Value) : Except Failure Value := do
  match toNumeric? a, toNumeric? b with
  | some a, some b =>
    if isZero b then refuse .divisionByZero
    else
      match a, b with
      | .inl m, .inl n =>
        if m % n = 0 then checkedResult (m / n)
        else
          match Number.ofQuotient? m n with
          | some x => return .float x
          | none => .error (.crash .integerTooLarge)
      | a, b => return .float ((← numericToFloat a) / (← numericToFloat b))
  | _, _ => refuse .divArguments

/-- The size of a number without its sign. -/
def magnitude (v : Value) : Except Failure Value := do
  match ← requireNumber "abs" v with
  | .inl n => checkedResult n.natAbs
  | .inr x => return .float x.abs

/-- The power of floats, where that is a number of finite size or an argument is not. -/
def floatPower (x y : Float) : Except Failure Value :=
  let r := Float.pow x y
  if Number.isFinite r || !Number.isFinite x || !Number.isFinite y then .ok (.float r)
  else if r.isNaN || x == 0 then refuse (.powerUndefined .domain)
  else refuse (.powerUndefined .range)

/-- The power of an integer whose size is at most one. -/
def unitPower (base : Int) (exponent : Nat) : Int :=
  if exponent = 0 then 1 else if exponent % 2 = 0 then base * base else base

/-- A float that a power needs. -/
def powerArgument (n : Numeric) : Except Failure Float :=
  match n with
  | .inr x => .ok x
  | .inl n =>
    match Number.ofInt? n with
    | some x => .ok x
    | none => refuse (.powerUndefined .integerTooLarge)

/-- A power; of integers it is exact unless the exponent is negative. -/
def power (base exponent : Value) : Except Failure Value := do
  let base ← requireNumber "pow" base
  let exponent ← requireNumber "pow" exponent
  match base, exponent with
  | .inl m, .inl (.ofNat n) =>
    if m.natAbs ≤ 1 then checkedResult (unitPower m n)
    else if 63 < n then refuse .resultOverflow
    else checkedResult (m.pow n)
  | base, exponent => floatPower (← powerArgument base) (← powerArgument exponent)

/-- The square root of a number that is not negative. -/
def squareRoot (v : Value) : Except Failure Value := do
  let n ← requireNumber "sqrt" v
  let negative :=
    match n with
    | .inl n => decide (n < 0)
    | .inr x => x < 0
  if negative then refuse .rootOfNegative else return .float (← numericToFloat n).sqrt

/-- Makes a number whole in the given way. -/
def makeWhole (function : String) (rounding : Number.Rounding) (v : Value) :
    Except Failure Value := do
  match ← requireNumber function v with
  | .inl n => return .int n
  | .inr x =>
    match Number.toInt? rounding x with
    | some n => checkedResult n
    | none => refuse (.notFinite function)

/-- Whether one number is less than another, compared exactly. -/
def lessThan : Numeric → Numeric → Bool
  | .inl a, .inl b => a < b
  | .inl a, .inr y => Number.intLtFloat a y
  | .inr x, .inl b => Number.floatLtInt x b
  | .inr x, .inr y => x < y

/-- The first of some numbers that no later one is better than. -/
def best (function : String) (better : Numeric → Numeric → Bool) (vs : List Value) :
    Except Failure Value := do
  match ← vs.mapM (requireNumber function) with
  | [] => refuse (.numbersRequired function)
  | first :: rest =>
    return ofNumeric (rest.foldl (fun chosen n => if better n chosen then n else chosen) first)

/-- The greatest of some numbers. -/
def greatest (vs : List Value) : Except Failure Value :=
  best "max" (fun a b => lessThan b a) vs

/-- The least of some numbers. -/
def least (vs : List Value) : Except Failure Value :=
  best "min" lessThan vs

/-- A float from zero to one, not including one, from random bits. -/
def unitFloat (bits : UInt64) : Float :=
  (bits >>> 11).toFloat / 9007199254740992

end ModuLang.Library
