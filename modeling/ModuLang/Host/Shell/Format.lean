import ModuLang.Text.DecimalDigit
import ModuLang.Text.Utf8

/-!
# Formatted output of the shell

The escapes of `echo`, and the formats of `printf`: directives with flags, a width and a precision.
A format is used again as long as it takes arguments.
-/

namespace ModuLang.Host.Shell

/-- The octal digits in front of a text, at most the given number of them, as a number. -/
def takeOctal : Nat → Nat → List Char → Nat × List Char
  | 0, value, cs => (value, cs)
  | _, value, [] => (value, [])
  | places + 1, value, c :: cs =>
    if '0' ≤ c && c ≤ '7' then takeOctal places (8 * value + Text.basicDigitValue c) cs
    else (value, c :: cs)

/-- The octets of a character. -/
def charBytes (c : Char) : List UInt8 :=
  Text.encodeUtf8 (String.singleton c)

/-- The control character of an escape letter. -/
def controlOf? : Char → Option UInt8
  | 'a' => some 7
  | 'b' => some 8
  | 'f' => some 12
  | 'n' => some 10
  | 'r' => some 13
  | 't' => some 9
  | 'v' => some 11
  | '\\' => some 92
  | _ => none

/-- Resolves the escapes of a text that is to be written, whose octal numbers begin with a zero. The
second result says whether writing goes on. -/
def resolveEscapes : Nat → List Char → List UInt8 × Bool
  | 0, _ | _, [] => ([], true)
  | fuel + 1, '\\' :: c :: rest =>
    let behind (bytes : List UInt8) (rest : List Char) : List UInt8 × Bool :=
      let (more, goesOn) := resolveEscapes fuel rest
      (bytes ++ more, goesOn)
    if c == 'c' then ([], false)
    else if c == '0' then
      let (value, rest) := takeOctal 3 0 rest
      behind [value.toUInt8] rest
    else
      match controlOf? c with
      | some byte => behind [byte] rest
      | none => behind (charBytes '\\') (c :: rest)
  | fuel + 1, c :: rest =>
    let (bytes, goesOn) := resolveEscapes fuel rest
    (charBytes c ++ bytes, goesOn)

/-- What `echo` writes. -/
def echo (args : List String) : List UInt8 :=
  let (args, hasEnd) :=
    match args with
    | "-n" :: rest => (rest, false)
    | args => (args, true)
  let text := (" ".intercalate args).toList
  let (bytes, goesOn) := resolveEscapes (text.length + 1) text
  if hasEnd && goesOn then bytes ++ [10] else bytes

/-! ### Formats -/

/-- How the text of a directive is laid out. -/
structure Layout where
  isLeft : Bool := false
  isZeroed : Bool := false
  isSigned : Bool := false
  width : Nat := 0
  precision : Option Nat := none
  deriving DecidableEq, Repr

/-- The digits in front of a text as a number, and what follows them. -/
def takeNumber (cs : List Char) : Nat × List Char :=
  (Text.ofDigits ((cs.takeWhile Text.isBasicDigit).map Text.basicDigitValue),
    cs.dropWhile Text.isBasicDigit)

/-- The layout in front of a directive's letter. -/
def takeLayout (cs : List Char) : Layout × List Char :=
  let isFlag (c : Char) : Bool := c == '-' || c == '0' || c == '+' || c == ' ' || c == '#'
  let flags := cs.takeWhile isFlag
  let (width, rest) := takeNumber (cs.dropWhile isFlag)
  let layout : Layout :=
    { isLeft := flags.contains '-', isZeroed := flags.contains '0', isSigned := flags.contains '+',
      width }
  match rest with
  | '.' :: rest =>
    let (precision, rest) := takeNumber rest
    ({ layout with precision := some precision }, rest)
  | rest => (layout, rest)

/-- Puts a text into its width. -/
def Layout.pad (l : Layout) (text : List UInt8) : List UInt8 :=
  let blanks := List.replicate (l.width - text.length) (32 : UInt8)
  if l.isLeft then text ++ blanks else blanks ++ text

/-- Lays out a number, given its sign and its digits. -/
def Layout.number (l : Layout) (isNegative : Bool) (digits : List Char) : List UInt8 :=
  let sign := if isNegative then ['-'] else if l.isSigned then ['+'] else []
  let places :=
    match l.precision with
    | some precision => precision
    | none => if l.isZeroed && !l.isLeft then l.width - sign.length else 0
  let zeros := List.replicate (places - digits.length) '0'
  l.pad ((sign ++ zeros ++ digits).flatMap charBytes)

/-- The whole number that a text begins with, and whether it is all of the text. -/
def integerOf (text : String) : Int × Bool :=
  let (isNegative, cs) :=
    match text.toList with
    | '-' :: cs => (true, cs)
    | '+' :: cs => (false, cs)
    | cs => (false, cs)
  let (n, rest) := takeNumber cs
  (if isNegative then -n else n, rest.isEmpty && (!cs.isEmpty || text.isEmpty))

/-- What a format gave: octets, complaints, the arguments left, and whether one was used. -/
structure Filled where
  bytes : List UInt8 := []
  complaints : List String := []
  left : List String := []
  isUsed : Bool := false

/-- What was written before something else. -/
def Filled.after (f : Filled) (bytes : List UInt8) : Filled :=
  { f with bytes := bytes ++ f.bytes }

/-- What a directive writes for an argument, and a complaint about it. -/
def directive (l : Layout) (letter : Char) (arg : String) : List UInt8 × Option String :=
  let whole (base : Nat) : List UInt8 × Option String :=
    let (n, isWhole) := integerOf arg
    let digits := Nat.toDigits base n.natAbs
    let digits := if letter == 'X' then digits.map Char.toUpper else digits
    let complaint :=
      if isWhole then none
      else if Text.isBasicDigit (arg.toList.headD 'x') then some s!"{arg}: not completely converted"
      else some s!"{arg}: expected numeric value"
    (l.number (decide (n < 0)) digits, complaint)
  let text (bytes : List UInt8) : List UInt8 := l.pad (bytes.take (l.precision.getD bytes.length))
  match letter with
  | 'd' | 'i' | 'u' => whole 10
  | 'x' | 'X' => whole 16
  | 'o' => whole 8
  | 'b' => (text (resolveEscapes (arg.length + 1) arg.toList).1, none)
  | 'c' => (l.pad ((arg.toList.take 1).flatMap charBytes), none)
  | _ => (text (Text.encodeUtf8 arg), none)

/-- Fills in a format once. -/
def fillFormat : Nat → List Char → List String → Filled
  | 0, _, args | _, [], args => { left := args }
  | fuel + 1, '%' :: '%' :: rest, args => (fillFormat fuel rest args).after [37]
  | fuel + 1, '%' :: rest, args =>
    match takeLayout rest with
    | (_, []) => { left := args, complaints := ["missing format character"] }
    | (layout, letter :: rest) =>
      if !"diuxXobcs".toList.contains letter then
        { complaints := [s!"%{letter}: invalid directive"] }
      else
      let (shown, complaint) := directive layout letter (args.headD "")
      let more := (fillFormat fuel rest args.tail).after shown
      { more with complaints := complaint.toList ++ more.complaints, isUsed := true }
  | fuel + 1, '\\' :: c :: rest, args =>
    if '0' ≤ c && c ≤ '7' then
      let (value, rest) := takeOctal 3 0 (c :: rest)
      (fillFormat fuel rest args).after [value.toUInt8]
    else
      match controlOf? c with
      | some byte => (fillFormat fuel rest args).after [byte]
      | none => (fillFormat fuel (c :: rest) args).after (charBytes '\\')
  | fuel + 1, c :: rest, args => (fillFormat fuel rest args).after (charBytes c)

/-- What `printf` writes, and its complaints. -/
def printf (format : List Char) : Nat → List String → List UInt8 × List String
  | 0, _ => ([], [])
  | fuel + 1, args =>
    let filled := fillFormat (format.length + 1) format args
    if filled.isUsed && !filled.left.isEmpty then
      let (bytes, complaints) := printf format fuel filled.left
      (filled.bytes ++ bytes, filled.complaints ++ complaints)
    else (filled.bytes, filled.complaints)

end ModuLang.Host.Shell
