import ModuLang.Error
import ModuLang.Number.Shortest
import ModuLang.Text.Blank
import ModuLang.Text.DecimalDigit

/-!
# Numerals

How numbers are read from text and written to it. A numeral may use the decimal digits of any
script and single underscores between digits. An integer numeral of more than `digitLimit` digits is
refused, whatever its value, and no integer is written that has more.
-/

namespace ModuLang.Number

open Text

/-- The least integer of the language's arithmetic. -/
def intMin : Int := -0x8000000000000000

/-- The greatest integer of the language's arithmetic. -/
def intMax : Int := 0x7FFFFFFFFFFFFFFF

/-- Whether an integer lies within the language's arithmetic. -/
def inRange (n : Int) : Bool :=
  intMin ≤ n && n ≤ intMax

theorem inRange_iff {n : Int} : inRange n = true ↔ intMin ≤ n ∧ n ≤ intMax := by
  unfold inRange
  rw [Bool.and_eq_true, decide_eq_true_iff, decide_eq_true_iff]

/-- The greatest number of digits of an integer numeral. -/
def digitLimit : Nat := 4300

/-- Whether an integer has few enough digits to be written. -/
def isWritable (n : Int) : Bool :=
  (Nat.toDigits 10 n.natAbs).length ≤ digitLimit

/-- The text of an integer. -/
def writeInteger (n : Int) : Except Cause String :=
  if isWritable n then .ok (toString n) else .error (.givenUp .unreadableText)

theorem writeInteger_of_isWritable {n : Int} (h : isWritable n = true) :
    writeInteger n = .ok (toString n) :=
  if_pos h

theorem writeInteger_of_not_isWritable {n : Int} (h : ¬isWritable n = true) :
    writeInteger n = .error (.givenUp .unreadableText) :=
  if_neg h

/-- What is written is the text of the integer. -/
theorem writeInteger_eq_ok_iff {n : Int} {s : String} :
    writeInteger n = .ok s ↔ isWritable n = true ∧ s = toString n := by
  unfold writeInteger
  split
  · next h => simp [h, eq_comm]
  · next h => simp [h]

/-- A machine gives up on an integer of too many digits, and on no other. -/
theorem writeInteger_givenUp_iff {n : Int} {c : Crash} :
    writeInteger n = .error (.givenUp c) ↔ c = .unreadableText ∧ ¬isWritable n = true := by
  unfold writeInteger
  split
  · next h => simp [h]
  · next h => simp [h, eq_comm]

/-- A digit of another script becomes the basic one. -/
def basicForm (c : Char) : Char :=
  match digitValue? c with
  | some d => Char.ofNat ('0'.toNat + d)
  | none => c

/-- Removes the underscores of a numeral; each must stand between two digits. -/
def dropUnderscores? (afterDigit : Bool) : List Char → Option (List Char)
  | [] => some []
  | '_' :: d :: cs =>
    if afterDigit && isBasicDigit d then (dropUnderscores? true cs).map (d :: ·) else none
  | ['_'] => none
  | c :: cs => (dropUnderscores? (isBasicDigit c) cs).map (c :: ·)

/-- The basic form of a text that may be a numeral, without blank ends and underscores. -/
def plainNumeral? (s : String) : Option (List Char) :=
  dropUnderscores? false ((trimChars s.toList).map basicForm)

/-- Splits off a sign; the flag says whether it is a minus. -/
def takeSign : List Char → Bool × List Char
  | '-' :: cs => (true, cs)
  | '+' :: cs => (false, cs)
  | cs => (false, cs)

/-- The number that basic digits spell. -/
def digitsValue (cs : List Char) : Nat :=
  ofDigits (cs.map basicDigitValue)

/-- What an integer numeral says. -/
inductive IntegerReading where
  | number (n : Int)
  | tooLong
  | malformed
  deriving DecidableEq, Repr

/-- Reads an integer numeral. -/
def readInteger (s : String) : IntegerReading :=
  match plainNumeral? s with
  | none => .malformed
  | some cs =>
    let (negative, digits) := takeSign cs
    if digits.isEmpty || !digits.all isBasicDigit then .malformed
    else if digitLimit < digits.length then .tooLong
    else .number (if negative then -(digitsValue digits : Int) else digitsValue digits)

/-- Reads the exponent part of a float numeral; no part at all is the exponent zero. -/
def readExponent? : List Char → Option Int
  | [] => some 0
  | c :: cs =>
    if c == 'e' || c == 'E' then
      let (negative, digits) := takeSign cs
      if digits.isEmpty || !digits.all isBasicDigit then none
      else some (if negative then -(digitsValue digits : Int) else digitsValue digits)
    else none

/-- Reads the digits of a float numeral, behind its sign. -/
def readDecimal? (negative : Bool) (cs : List Char) : Option Float :=
  let whole := cs.takeWhile isBasicDigit
  let rest := cs.dropWhile isBasicDigit
  let (fraction, rest) :=
    match rest with
    | '.' :: rest => (rest.takeWhile isBasicDigit, rest.dropWhile isBasicDigit)
    | _ => ([], rest)
  if whole.isEmpty && fraction.isEmpty then none
  else (readExponent? rest).map fun e =>
    ofDecimal negative (digitsValue (whole ++ fraction)) (e - fraction.length)

/-- Reads a float numeral: a decimal, or a name of infinity or of what is not a number. -/
def readFloat? (s : String) : Option Float :=
  match plainNumeral? s with
  | none => none
  | some cs =>
    let (negative, body) := takeSign cs
    let word := body.map Char.toLower
    if word == "inf".toList || word == "infinity".toList then some (withSign negative infinity)
    else if word == "nan".toList then some notANumber
    else readDecimal? negative body

/-- The text of a decimal with a point in it: positional when the first digit stands no further than
four places behind the point or sixteen before it, and otherwise with an exponent. -/
def Decimal.text (d : Decimal) : String :=
  let digits := Nat.toDigits 10 d.digits
  let point : Int := digits.length + d.exponent
  if -4 < point && point ≤ 0 then
    "0." ++ String.ofList (List.replicate (-point).toNat '0' ++ digits)
  else if 0 < point && point ≤ 16 then
    let whole := digits.take point.toNat
    let fraction := digits.drop point.toNat
    String.ofList (whole ++ List.replicate (point.toNat - whole.length) '0') ++ "." ++
      (if fraction.isEmpty then "0" else String.ofList fraction)
  else
    let exponent := point - 1
    let size := toString exponent.natAbs
    String.ofList (digits.take 1) ++
      (if digits.length = 1 then "" else "." ++ String.ofList (digits.drop 1)) ++
      (if exponent < 0 then "e-" else "e+") ++ (if size.length < 2 then "0" ++ size else size)

/-- The text of a float with its point or exponent kept, and the given names for what is not
finite. -/
def floatText (nan infinite : String) (x : Float) : String :=
  match Binary64.ofFloat x with
  | .nan => nan
  | .infinite negative => if negative then "-" ++ infinite else infinite
  | .finite negative m e =>
    (if negative then "-" else "") ++ (if m = 0 then "0.0" else (shortest m e).text)

/-- The text of a float as values are shown: a whole one is written as an integer. -/
def displayFloat (x : Float) : String :=
  if isWhole x then toString ((toInt? .truncate x).getD 0) else floatText "NaN" "inf" x

end ModuLang.Number
