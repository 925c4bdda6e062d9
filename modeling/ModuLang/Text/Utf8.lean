/-!
# UTF-8

Octets are read as a list of units. A unit is a character or a defect: the longest run of octets
that begins a well-formed sequence and cannot be continued, or else a single octet. Strict reading
gives up at the first defect, lenient reading puts the replacement character in its place.
-/

namespace ModuLang.Text

/-- Why octets do not spell a character. -/
inductive Utf8Defect where
  | invalidStart
  | invalidContinuation
  | unexpectedEnd
  deriving DecidableEq, Repr

/-- The wording of a defect. -/
def Utf8Defect.message : Utf8Defect → String
  | .invalidStart => "invalid start byte"
  | .invalidContinuation => "invalid continuation byte"
  | .unexpectedEnd => "unexpected end of data"

/-- Whether an octet continues a sequence. -/
def isContinuation (b : UInt8) : Bool :=
  0x80 ≤ b && b < 0xC0

/-- Whether `b` may follow the leading octet of a longer sequence: the range is cut for the leads
that would otherwise spell a short form, a surrogate or a number past the last code point. -/
def isSecond (lead b : UInt8) : Bool :=
  isContinuation b &&
    (if lead == 0xE0 then 0xA0 ≤ b
     else if lead == 0xED then b < 0xA0
     else if lead == 0xF0 then 0x90 ≤ b
     else if lead == 0xF4 then b < 0x90
     else true)

/-- The six low bits of a continuation octet. -/
def payload (b : UInt8) : Nat :=
  b.toNat % 64

/-- The units of a list of octets. -/
def utf8Units : List UInt8 → List (Except Utf8Defect Char)
  | [] => []
  | a :: as =>
    if a < 0x80 then .ok (Char.ofNat a.toNat) :: utf8Units as
    else if a < 0xC2 || 0xF5 ≤ a then .error .invalidStart :: utf8Units as
    else
      match as with
      | [] => [.error .unexpectedEnd]
      | b :: bs =>
        if !isSecond a b then .error .invalidContinuation :: utf8Units (b :: bs)
        else if a < 0xE0 then
          .ok (Char.ofNat (a.toNat % 32 * 64 + payload b)) :: utf8Units bs
        else
          match bs with
          | [] => [.error .unexpectedEnd]
          | c :: cs =>
            if !isContinuation c then .error .invalidContinuation :: utf8Units (c :: cs)
            else if a < 0xF0 then
              .ok (Char.ofNat ((a.toNat % 16 * 64 + payload b) * 64 + payload c)) :: utf8Units cs
            else
              match cs with
              | [] => [.error .unexpectedEnd]
              | d :: ds =>
                if !isContinuation d then .error .invalidContinuation :: utf8Units (d :: ds)
                else
                  .ok (Char.ofNat
                    (((a.toNat % 8 * 64 + payload b) * 64 + payload c) * 64 + payload d)) ::
                    utf8Units ds

/-- Strict reading: the first defect, if there is one. -/
def decodeUtf8 (bytes : List UInt8) : Except Utf8Defect String :=
  ((utf8Units bytes).mapM id).map String.ofList

/-- Lenient reading: a replacement character for each defect. -/
def decodeUtf8Lenient (bytes : List UInt8) : String :=
  String.ofList ((utf8Units bytes).map fun unit => unit.toOption.getD '\uFFFD')

/-- The octets of a text. -/
def encodeUtf8 (s : String) : List UInt8 :=
  s.toUTF8.toList

end ModuLang.Text
