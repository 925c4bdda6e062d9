import ModuLang.Host.Limits
import ModuLang.Json.Basic
import ModuLang.Number.Numeral
import ModuLang.Text.Parsed

/-!
# Reading JSON

The reader follows the grammar strictly and reports the first defect together with what is left of
the text there, from which its line and column are counted. Of members with one name the last value
counts, in the place of the first. The nesting that the reader follows is bounded.
-/

namespace ModuLang.Json

open Text

/-- Why a text was not read. -/
inductive ReadFailure where
  /-- The text is no JSON from here on. -/
  | defect (defect : JsonDefect) (left : List Char)
  /-- An integer has too many digits. -/
  | integerTooLong
  /-- The nesting is too deep. -/
  | tooDeep

/-- A step of the reader, which uses at least one character. -/
abbrev Reader (α : Type) :=
  (cs : List Char) → Except ReadFailure (Parsed Char α cs.length)

/-- The characters that may stand between the parts of a document. -/
def isSpace (c : Char) : Bool :=
  c == ' ' || c == '\t' || c == '\n' || c == '\r'

/-- Skips the space in front. -/
def skipSpace (cs : List Char) : List Char :=
  cs.dropWhile isSpace

/-- Skipping space leaves no more than there was. -/
theorem length_skipSpace_le (cs : List Char) : (skipSpace cs).length ≤ cs.length :=
  length_dropWhile_le _ cs

/-- The value of a hexadecimal digit. -/
def hexValue? (c : Char) : Option Nat :=
  if '0' ≤ c && c ≤ '9' then some (c.toNat - '0'.toNat)
  else if 'a' ≤ c && c ≤ 'f' then some (c.toNat - 'a'.toNat + 10)
  else if 'A' ≤ c && c ≤ 'F' then some (c.toNat - 'A'.toNat + 10)
  else none

/-- The number of four hexadecimal digits. -/
def hexNumber? (a b c d : Char) : Option Nat := do
  return ((← hexValue? a) * 16 + (← hexValue? b)) * 256 + (← hexValue? c) * 16 + (← hexValue? d)

/-- The character of a pair of surrogates. -/
def joinSurrogates (high low : Nat) : Char :=
  Char.ofNat (0x10000 + (high - 0xD800) * 0x400 + (low - 0xDC00))

/-- The character of a single code unit. Texts hold characters only, and a surrogate without its
partner is none, so all of these are read as the replacement character: documents that tell one such
surrogate from another, or from that character, are outside what a `Json` can say. -/
def unitChar (n : Nat) : Char :=
  if 0xD800 ≤ n && n < 0xE000 then '\uFFFD' else Char.ofNat n

/-- What a backslash and a character stand for, apart from numbers. -/
def escapeMeaning? : Char → Option Char
  | '"' => some '"'
  | '\\' => some '\\'
  | '/' => some '/'
  | 'b' => some '\x08'
  | 'f' => some '\x0c'
  | 'n' => some '\n'
  | 'r' => some '\r'
  | 't' => some '\t'
  | _ => none

/-- What stands at the front of a string behind its opening quote. -/
inductive StringStep (cs : List Char) where
  | close (rest : List Char) (shorter : rest.length < cs.length)
  | char (c : Char) (rest : List Char) (shorter : rest.length < cs.length)
  | failed (defect : JsonDefect) (left : List Char)
  | unterminated

/-- What follows the number of a code unit: the other half of a pair of surrogates, or not. -/
inductive Partner (cs : List Char) where
  | none
  | low (n : Nat) (rest : List Char) (shorter : rest.length < cs.length)
  | malformed (left : List Char)

/-- Looks for the other half of a pair behind a code unit. -/
def partner (unit : Nat) (cs : List Char) : Partner cs :=
  if 0xD800 ≤ unit && unit < 0xDC00 then
    match cs with
    | '\\' :: 'u' :: a :: b :: c :: d :: e :: rest =>
      match hexNumber? a b c d with
      | none => .malformed ('u' :: a :: b :: c :: d :: e :: rest)
      | some n =>
        if 0xDC00 ≤ n && n < 0xE000 then .low n (e :: rest) (by simp only [List.length_cons]; omega)
        else .none
    | _ => .none
  else .none

/-- A character that is written by its number; `cs` follows the `u`. Two surrogates in a row are one
character. -/
def unicodeEscape (cs : List Char) : StringStep ('\\' :: 'u' :: cs) :=
  match cs with
  | a :: b :: c :: d :: e :: rest =>
    match hexNumber? a b c d with
    | none => .failed .invalidUnicodeEscape ('u' :: cs)
    | some unit =>
      match partner unit (e :: rest) with
      | .none => .char (unitChar unit) (e :: rest) (by simp only [List.length_cons]; omega)
      | .low n behind shorter =>
        .char (joinSurrogates unit n) behind (by simp only [List.length_cons] at *; omega)
      | .malformed left => .failed .invalidUnicodeEscape left
  | _ => .failed .invalidUnicodeEscape ('u' :: cs)

/-- Finds what stands at the front of a string behind its opening quote. -/
def stringStep : (cs : List Char) → StringStep cs
  | [] => .unterminated
  | '"' :: rest => .close rest (by simp)
  | ['\\'] => .unterminated
  | '\\' :: 'u' :: rest => unicodeEscape rest
  | '\\' :: c :: rest =>
    match escapeMeaning? c with
    | none => .failed .invalidEscape ('\\' :: c :: rest)
    | some meaning => .char meaning rest (by simp only [List.length_cons]; omega)
  | c :: rest =>
    if c.toNat < 0x20 then .failed .invalidControl (c :: rest) else .char c rest (by simp)

/-- The rest of a string whose opening quote is the first character of `start`. -/
def stringRest (start : List Char) (cs : List Char) :
    Except ReadFailure (Parsed Char (List Char) cs.length) :=
  match stringStep cs with
  | .close rest shorter => .ok ⟨[], rest, shorter⟩
  | .failed defect left => .error (.defect defect left)
  | .unterminated => .error (.defect .unterminatedString start)
  | .char c rest shorter => do
    let more ← stringRest start rest
    return ⟨c :: more.value, more.rest, Nat.lt_trans more.shorter shorter⟩
termination_by cs.length

/-- A number: its sign, the digits before and behind the point, and the exponent; an integer has
neither of the last two. -/
structure Numeral where
  negative : Bool
  whole : List Char
  fraction : Option (List Char)
  exponent : Option Int

/-- The digits before the point: a zero alone, or digits that do not begin with one. -/
def wholeDigits : List Char → List Char × List Char
  | '0' :: rest => (['0'], rest)
  | cs => (cs.takeWhile isBasicDigit, cs.dropWhile isBasicDigit)

/-- The point and the digits behind it, if both are there. -/
def fractionDigits : List Char → Option (List Char) × List Char
  | '.' :: d :: rest =>
    if isBasicDigit d then
      (some (d :: rest.takeWhile isBasicDigit), rest.dropWhile isBasicDigit)
    else (none, '.' :: d :: rest)
  | cs => (none, cs)

/-- The exponent, if it has a digit. -/
def exponentPart (cs : List Char) : Option Int × List Char :=
  match cs with
  | [] => (none, [])
  | e :: rest =>
    if e == 'e' || e == 'E' then
      let (negative, digits) := Number.takeSign rest
      let value := Number.digitsValue (digits.takeWhile isBasicDigit)
      if digits.head?.any isBasicDigit then
        (some (if negative then -(value : Int) else value), digits.dropWhile isBasicDigit)
      else (none, cs)
    else (none, cs)

/-- Splits off a number behind its sign, if one stands in front. -/
def takeUnsigned? (negative : Bool) (cs : List Char) : Option (Numeral × List Char) :=
  let (whole, rest) := wholeDigits cs
  if whole.isEmpty then none
  else
    let (fraction, rest) := fractionDigits rest
    let (exponent, rest) := exponentPart rest
    some (⟨negative, whole, fraction, exponent⟩, rest)

/-- Splits off a number, if one stands in front. -/
def takeNumeral? : List Char → Option (Numeral × List Char)
  | '-' :: cs => takeUnsigned? true cs
  | cs => takeUnsigned? false cs

/-- The document of a number. -/
def Numeral.toJson (n : Numeral) : Except ReadFailure Json :=
  match n.fraction, n.exponent with
  | none, none =>
    if Number.digitLimit < n.whole.length then .error .integerTooLong
    else
      let size := Number.digitsValue n.whole
      .ok (.int (if n.negative then -(size : Int) else size))
  | fraction, exponent =>
    let digits := fraction.getD []
    .ok (.float (Number.ofDecimal n.negative (Number.digitsValue (n.whole ++ digits))
      (exponent.getD 0 - digits.length)))

/-- The documents that are written as a word. -/
def words : List (List Char × Json) :=
  [("null".toList, .null), ("true".toList, .bool true), ("false".toList, .bool false),
    ("NaN".toList, .float Number.notANumber), ("Infinity".toList, .float Number.infinity),
    ("-Infinity".toList, .float (-Number.infinity))]

/-- The digits before the point and what follows them are all there was. -/
theorem wholeDigits_append (cs : List Char) : (wholeDigits cs).1 ++ (wholeDigits cs).2 = cs := by
  unfold wholeDigits
  split
  · rfl
  · exact List.takeWhile_append_dropWhile

/-- What follows a fraction is no more than there was. -/
theorem length_fractionDigits_le (cs : List Char) : (fractionDigits cs).2.length ≤ cs.length := by
  unfold fractionDigits
  split
  · next d rest =>
    split
    · have := length_dropWhile_le isBasicDigit rest
      simp only [List.length_cons]
      omega
    · exact Nat.le_refl _
  · exact Nat.le_refl _

/-- What follows a sign is no more than there was. -/
theorem length_takeSign_le (cs : List Char) : (Number.takeSign cs).2.length ≤ cs.length := by
  unfold Number.takeSign
  split <;> simp

/-- What follows an exponent is no more than there was. -/
theorem length_exponentPart_le (cs : List Char) : (exponentPart cs).2.length ≤ cs.length := by
  cases cs with
  | nil => simp [exponentPart]
  | cons e rest =>
    have hsign := length_takeSign_le rest
    have hdigits := length_dropWhile_le isBasicDigit (Number.takeSign rest).2
    simp only [exponentPart]
    split
    · split
      · simp only [List.length_cons]
        omega
      · exact Nat.le_refl _
    · exact Nat.le_refl _

/-- What follows a number without sign is less than there was. -/
theorem length_takeUnsigned?_lt {negative : Bool} {cs rest : List Char} {n : Numeral}
    (h : takeUnsigned? negative cs = some (n, rest)) : rest.length < cs.length := by
  simp only [takeUnsigned?] at h
  split at h
  · exact absurd h (by simp)
  · next hwhole =>
    simp only [Option.some.injEq, Prod.mk.injEq] at h
    obtain ⟨-, rfl⟩ := h
    have happend := congrArg List.length (wholeDigits_append cs)
    rw [List.length_append] at happend
    have hpos : 0 < (wholeDigits cs).1.length := by
      apply List.length_pos_iff.2
      simpa using hwhole
    have hfraction := length_fractionDigits_le (wholeDigits cs).2
    have hexponent := length_exponentPart_le (fractionDigits (wholeDigits cs).2).2
    omega

/-- What follows a number is less than there was. -/
theorem length_takeNumeral?_lt {cs rest : List Char} {n : Numeral}
    (h : takeNumeral? cs = some (n, rest)) : rest.length < cs.length := by
  unfold takeNumeral? at h
  split at h
  · have := length_takeUnsigned?_lt h
    simp only [List.length_cons]
    omega
  · exact length_takeUnsigned?_lt h

/-- A document that is no string, array or object. -/
def scalar : Reader Json
  | [] => throw (.defect .expectingValue [])
  | c :: tail => do
    match words.find? fun word => word.1.isPrefixOf (c :: tail) with
    | some (word, value) =>
      return ⟨value, tail.drop (word.length - 1), by
        simp only [List.length_drop, List.length_cons]
        omega⟩
    | none =>
      match h : takeNumeral? (c :: tail) with
      | none => throw (.defect .expectingValue (c :: tail))
      | some (numeral, rest) => return ⟨← numeral.toJson, rest, length_takeNumeral?_lt h⟩

/-- The items of an array that has at least one, behind the opening bracket or a comma. -/
def arrayItems (item : Reader Json) (cs : List Char) :
    Except ReadFailure (Parsed Char (List Json) cs.length) := do
  let first ← item cs
  have hfirst := Nat.lt_of_le_of_lt (length_skipSpace_le first.rest) first.shorter
  match h : skipSpace first.rest with
  | ']' :: rest => return ⟨[first.value], rest, by simp only [h, List.length_cons] at hfirst; omega⟩
  | ',' :: rest =>
    have hrest : (skipSpace rest).length < cs.length := by
      have := length_skipSpace_le rest
      simp only [h, List.length_cons] at hfirst
      omega
    let more ← arrayItems item (skipSpace rest)
    return ⟨first.value :: more.value, more.rest, Nat.lt_trans more.shorter hrest⟩
  | rest => throw (.defect .expectingComma rest)
termination_by cs.length

/-- The name of a member and the colon behind it. -/
def memberName : Reader String
  | '"' :: tail => do
    let name ← stringRest ('"' :: tail) tail
    have hname := Nat.lt_of_le_of_lt (length_skipSpace_le name.rest) name.shorter
    match h : skipSpace name.rest with
    | ':' :: rest =>
      return ⟨String.ofList name.value, rest, by
        simp only [h, List.length_cons] at hname ⊢
        omega⟩
    | rest => throw (.defect .expectingColon rest)
  | cs => throw (.defect .expectingName cs)

/-- The members of an object that has at least one, behind the opening brace or a comma. -/
def objectMembers (item : Reader Json) (cs : List Char) :
    Except ReadFailure (Parsed Char (List (String × Json)) cs.length) := do
  let name ← memberName cs
  let value ← item (skipSpace name.rest)
  have hvalue : (skipSpace value.rest).length < cs.length := by
    have := name.shorter
    have := length_skipSpace_le name.rest
    have := value.shorter
    have := length_skipSpace_le value.rest
    omega
  match h : skipSpace value.rest with
  | '\x7d' :: rest =>
    return ⟨[(name.value, value.value)], rest, by simp only [h, List.length_cons] at hvalue; omega⟩
  | ',' :: rest =>
    have hrest : (skipSpace rest).length < cs.length := by
      have := length_skipSpace_le rest
      simp only [h, List.length_cons] at hvalue
      omega
    let more ← objectMembers item (skipSpace rest)
    return ⟨(name.value, value.value) :: more.value, more.rest, Nat.lt_trans more.shorter hrest⟩
  | rest => throw (.defect .expectingComma rest)
termination_by cs.length

/-- An array behind its opening bracket. -/
def arrayRest (item : Reader Json) (cs : List Char) :
    Except ReadFailure (Parsed Char Json (cs.length + 1)) := do
  have hspace := length_skipSpace_le cs
  match h : skipSpace cs with
  | ']' :: rest => return ⟨.array [], rest, by simp only [h, List.length_cons] at hspace; omega⟩
  | inner =>
    let items ← arrayItems item inner
    return (items.map Json.array).widen (by rw [h] at hspace; omega)

/-- An object behind its opening brace. -/
def objectRest (item : Reader Json) (cs : List Char) :
    Except ReadFailure (Parsed Char Json (cs.length + 1)) := do
  have hspace := length_skipSpace_le cs
  match h : skipSpace cs with
  | '\x7d' :: rest => return ⟨.object [], rest, by simp only [h, List.length_cons] at hspace; omega⟩
  | inner =>
    let members ← objectMembers item inner
    return (members.map fun ms => Json.object (Table.ofList ms).entries).widen
      (by rw [h] at hspace; omega)

/-- A document that may be nested the given number of levels deep. -/
def document : Nat → Reader Json
  | levels, '"' :: tail => do
    let text ← stringRest ('"' :: tail) tail
    return (text.map fun cs => Json.str (String.ofList cs)).widen (by simp)
  | 0, '[' :: _ | 0, '\x7b' :: _ => throw .tooDeep
  | levels + 1, '[' :: tail => arrayRest (document levels) tail
  | levels + 1, '\x7b' :: tail => objectRest (document levels) tail
  | _, cs => scalar cs

variable [Host.Limits]

/-- Reads a text that is one document and nothing else. -/
def read (cs : List Char) : Except ReadFailure Json := do
  if cs.head? == some '\uFEFF' then throw (.defect .byteOrderMark cs)
  let root ← document stackLimit (skipSpace cs)
  match skipSpace root.rest with
  | [] => return root.value
  | rest => throw (.defect .extraData rest)

/-- The line and the column, both from one on, of the place where `left` is left of a text. -/
def position (cs left : List Char) : Nat × Nat :=
  let before := cs.take (cs.length - left.length)
  (before.count '\n' + 1, (before.reverse.takeWhile (· != '\n')).length + 1)

/-- Reads a text that is one document and nothing else. -/
def parse (s : String) : Except Failure Json :=
  match read s.toList with
  | .ok json => .ok json
  | .error .integerTooLong => .error (.crash .unreadableText)
  | .error .tooDeep => .error (.crash .stackOverflow)
  | .error (.defect defect left) =>
    let (line, column) := position s.toList left
    .error (.fault ⟨.invalidJson defect line column, 0⟩)

end ModuLang.Json
