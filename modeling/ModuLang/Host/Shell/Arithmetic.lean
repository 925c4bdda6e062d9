import ModuLang.Host.Shell.Word

/-!
# Arithmetic of the shell

The expressions between doubled brackets: whole numbers of 64 bits, the values of parameters,
assignments to them, and the usual operators with their usual precedence. A comparison is one if it
holds and zero otherwise. A part that is passed over is read all the same, but assigns nothing and
divides by anything.
-/

namespace ModuLang.Host.Shell.Arithmetic

/-- A symbol of an expression. -/
inductive Symbol where
  | number (value : Int)
  | name (text : String)
  | operator (text : String)
  deriving DecidableEq, Repr

/-- What is wrong with an expression. -/
inductive Complaint where
  /-- The expression cannot be read, or has no value. -/
  | expression (reason : String)
  /-- The value of a parameter is no number. -/
  | number (text : String)
  deriving DecidableEq, Repr

/-- The value of a digit in any base up to sixteen. -/
def digitValue? (c : Char) : Option Nat :=
  if Text.isBasicDigit c then some (Text.basicDigitValue c)
  else if 'a' ≤ c && c ≤ 'f' then some (c.toNat - 'a'.toNat + 10)
  else if 'A' ≤ c && c ≤ 'F' then some (c.toNat - 'A'.toNat + 10)
  else none

/-- Whether a character is a digit in a base. -/
def isDigitIn (base : Nat) (c : Char) : Bool :=
  (digitValue? c).any (· < base)

/-- The numeral of a base in front of a text, and what follows it. -/
def takeDigits (base : Nat) (cs : List Char) : Int × List Char :=
  ((cs.takeWhile (isDigitIn base)).foldl (fun n c => base * n + (digitValue? c).getD 0) 0,
    cs.dropWhile (isDigitIn base))

/-- The numeral in front of a text, and what follows it: a leading zero makes it octal, and an `x`
behind that hexadecimal. -/
def takeNumeral : List Char → Int × List Char
  | '0' :: x :: c :: cs =>
    if (x == 'x' || x == 'X') && isDigitIn 16 c then takeDigits 16 (c :: cs)
    else takeDigits 8 ('0' :: x :: c :: cs)
  | '0' :: cs => takeDigits 8 ('0' :: cs)
  | cs => takeDigits 10 cs

/-- The number that a value stands for, if it does; nothing stands for zero. -/
def numberOf? (text : String) : Option Int :=
  let isBlank (c : Char) : Bool := c == ' ' || c == '\t' || c == '\n'
  let (isNegative, cs) :=
    match text.toList.dropWhile isBlank with
    | '-' :: cs => (true, cs)
    | '+' :: cs => (false, cs)
    | cs => (false, cs)
  let (n, rest) := takeNumeral cs
  if (rest.dropWhile isBlank).isEmpty && n < 0x8000000000000000 then
    some (if isNegative then -n else n)
  else none

/-- The operators of more than one character, the longest first. -/
def longOperators : List String :=
  ["<<=", ">>=", "==", "!=", "<=", ">=", "&&", "||", "<<", ">>", "+=", "-=", "*=", "/=", "%=", "&=",
    "|=", "^="]

/-- The operator in front of a text that is not empty. -/
def operatorOf (cs : List Char) : String :=
  (longOperators.find? fun op => op.toList.isPrefixOf cs).getD (String.ofList (cs.take 1))

/-- The symbols of an expression; each uses up fuel. Numerals that are too great stand for the
greatest number. -/
def symbols : Nat → List Char → List Symbol
  | 0, _ | _, [] => []
  | fuel + 1, c :: cs =>
    if c == ' ' || c == '\t' || c == '\n' then symbols fuel cs
    else if Text.isBasicDigit c then
      let (n, rest) := takeNumeral (c :: cs)
      .number (min n 0x7FFFFFFFFFFFFFFF) :: symbols fuel rest
    else if isNameChar c then
      .name (String.ofList ((c :: cs).takeWhile isNameChar)) ::
        symbols fuel (cs.dropWhile isNameChar)
    else
      let operator := operatorOf (c :: cs)
      .operator operator :: symbols fuel ((c :: cs).drop operator.length)

/-- How tightly a binary operator binds. -/
def precedence? : String → Option Nat
  | "||" => some 1
  | "&&" => some 2
  | "|" => some 3
  | "^" => some 4
  | "&" => some 5
  | "==" | "!=" => some 6
  | "<" | "<=" | ">" | ">=" => some 7
  | "<<" | ">>" => some 8
  | "+" | "-" => some 9
  | "*" | "/" | "%" => some 10
  | _ => none

/-- The binary operator that an assignment applies first: the empty one for a plain assignment. -/
def assigning? : String → Option String
  | "=" => some ""
  | "+=" => some "+"
  | "-=" => some "-"
  | "*=" => some "*"
  | "/=" => some "/"
  | "%=" => some "%"
  | "<<=" => some "<<"
  | ">>=" => some ">>"
  | "&=" => some "&"
  | "|=" => some "|"
  | "^=" => some "^"
  | _ => none

/-- One for a statement that holds. -/
def truth (b : Bool) : Int :=
  if b then 1 else 0

/-- A whole number cut to 64 bits. -/
def cut (n : Int) : Int :=
  n.bmod 0x10000000000000000

/-- The bits of a number. -/
def bitsOf (n : Int) : BitVec 64 :=
  BitVec.ofInt 64 n

/-- The value of a binary operator. -/
def apply (isLive : Bool) (operator : String) (a b : Int) : Except Complaint Int :=
  let divide (quotient : Int → Int → Int) : Except Complaint Int :=
    if b = 0 && isLive then .error (.expression "division by zero") else .ok (cut (quotient a b))
  let places := (b % 64).toNat
  match operator with
  | "||" => .ok (truth (a != 0 || b != 0))
  | "&&" => .ok (truth (a != 0 && b != 0))
  | "|" => .ok (bitsOf a ||| bitsOf b).toInt
  | "^" => .ok (bitsOf a ^^^ bitsOf b).toInt
  | "&" => .ok (bitsOf a &&& bitsOf b).toInt
  | "==" => .ok (truth (a == b))
  | "!=" => .ok (truth (a != b))
  | "<" => .ok (truth (a < b))
  | "<=" => .ok (truth (a ≤ b))
  | ">" => .ok (truth (b < a))
  | ">=" => .ok (truth (b ≤ a))
  | "<<" => .ok (cut (a * Nat.pow 2 places))
  | ">>" => .ok (a.fdiv (Nat.pow 2 places))
  | "+" => .ok (cut (a + b))
  | "-" => .ok (cut (a - b))
  | "*" => .ok (cut (a * b))
  | "/" => divide Int.tdiv
  | _ => divide Int.tmod

/-- How far an expression has been read, and what it has assigned, the last first. -/
structure Progress where
  left : List Symbol
  assigned : List (String × Int) := []

/-- A step that reads from an expression. -/
abbrev Reader (α : Type) := StateT Progress (Except Complaint) α

/-- Uses up the next symbols. -/
def skip (count : Nat) : Reader Unit :=
  modify fun p => { p with left := p.left.drop count }

/-- The value of a parameter. -/
def valueOf (outside : String → Except Complaint Int) (name : String) : Reader Int := do
  match (← get).assigned.lookup name with
  | some n => return n
  | none => outside name

/-- The operators that bind at least as tightly as asked, behind a first operand; each uses up fuel.
`inner` reads an expression of a level of precedence. -/
def operators (inner : Bool → Nat → Reader Int) (isLive : Bool) (least : Nat) :
    Nat → Int → Reader Int
  | 0, value => return value
  | fuel + 1, value => do
    match (← get).left with
    | .operator op :: _ =>
      match precedence? op with
      | none => return value
      | some level =>
        if level < least then return value
        else
          skip 1
          let isNeeded := !((op == "&&" && value == 0) || (op == "||" && value != 0))
          let second ← inner (isLive && isNeeded) (level + 1)
          operators inner isLive least fuel (← apply isLive op value second)
    | _ => return value

/-- An operand: a number, a parameter, an operator in front of an operand, or an expression in
brackets. `inner` reads an expression of a level of precedence. -/
def operand (outside : String → Except Complaint Int) (inner : Bool → Nat → Reader Int)
    (isLive : Bool) : Reader Int := do
  let next := (← get).left.head?
  skip 1
  match next with
  | some (.number n) => return n
  | some (.name name) => valueOf outside name
  | some (.operator "-") => return cut (-(← inner isLive 11))
  | some (.operator "+") => inner isLive 11
  | some (.operator "!") => return truth ((← inner isLive 11) == 0)
  | some (.operator "~") => return -1 - (← inner isLive 11)
  | some (.operator "(") =>
    let n ← inner isLive 0
    if (← get).left.head? == some (.operator ")") then
      skip 1
      return n
    else throw (.expression "expecting ')'")
  | _ => throw (.expression "expecting primary")

/-- A choice between two expressions, or an expression without one. -/
def choice (inner : Bool → Nat → Reader Int) (isLive : Bool) : Reader Int := do
  let test ← inner isLive 1
  if (← get).left.head? != some (.operator "?") then return test
  else
    skip 1
    let yes ← inner (isLive && test != 0) 0
    if (← get).left.head? != some (.operator ":") then throw (.expression "expecting ':'")
    else
      skip 1
      let no ← inner (isLive && test == 0) 0
      return if test != 0 then yes else no

/-- An assignment, or an expression without one. -/
def assignment (outside : String → Except Complaint Int) (inner : Bool → Nat → Reader Int)
    (isLive : Bool) : Reader Int := do
  match (← get).left with
  | .name name :: .operator op :: _ =>
    match assigning? op with
    | none => choice inner isLive
    | some change =>
      skip 2
      let second ← inner isLive 0
      let value ←
        if change.isEmpty then pure second
        else apply isLive change (← valueOf outside name) second
      if isLive then modify fun p => { p with assigned := (name, value) :: p.assigned }
      return value
  | _ => choice inner isLive

/-- The value of an expression; each level uses up fuel. Its operators bind at least as tightly as
asked, and level zero stands for assignments and choices as well. -/
def expression (outside : String → Except Complaint Int) : Nat → Bool → Nat → Reader Int
  | 0, _, _ => throw (.expression "expecting primary")
  | fuel + 1, isLive, 0 => assignment outside (expression outside fuel) isLive
  | fuel + 1, isLive, least => do
    let first ← operand outside (expression outside fuel) isLive
    operators (expression outside fuel) isLive least ((← get).left.length + 1) first

/-- The value of an expression with what it assigns, or what is wrong with it. -/
def evaluate (outside : String → Except Complaint Int) (text : List Char) :
    Except Complaint (Int × List (String × Int)) := do
  let symbols := symbols (text.length + 1) text
  let (n, p) ← (expression outside (3 * symbols.length + 3) true 0).run { left := symbols }
  if p.left.isEmpty then return (n, p.assigned) else throw (.expression "expecting EOF")

end ModuLang.Host.Shell.Arithmetic
