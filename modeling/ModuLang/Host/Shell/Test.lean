import ModuLang.Host.Shell.State

/-!
# Tests of the shell

A test is an expression over words: comparisons of texts and of whole numbers, questions about
files, and their negations and combinations. Whether a word is an operator depends on the words
around it, since any word can be an operand.
-/

namespace ModuLang.Host.Shell.Test

/-- What a word of a test is. -/
inductive Symbol where
  | operand
  | negation
  | conjunction
  | disjunction
  | opening
  | closing
  | unary
  | binary
  deriving DecidableEq, Repr

/-- The operators that stand before their operand. -/
def unaryOperators : List String :=
  ["-b", "-c", "-d", "-e", "-f", "-g", "-G", "-h", "-k", "-L", "-n", "-O", "-p", "-r", "-s", "-S",
    "-t", "-u", "-w", "-x", "-z"]

/-- The operators that stand between their operands. -/
def binaryOperators : List String :=
  ["=", "!=", "<", ">", "-eq", "-ne", "-gt", "-ge", "-lt", "-le", "-nt", "-ot", "-ef"]

/-- What the first of some words is: `none` if there is no word. An operator that has nothing to
stand before is an operand, and so is one in front of a binary operator with its operand. -/
def symbol? : List String → Option Symbol
  | [] => none
  | word :: rest =>
    if unaryOperators.contains word then
      match rest with
      | [] => some .operand
      | [_] => some .unary
      | next :: _ => some (if binaryOperators.contains next then .operand else .unary)
    else if binaryOperators.contains word then some .binary
    else
      match word with
      | "!" => some .negation
      | "-a" => some .conjunction
      | "-o" => some .disjunction
      | "(" => some (if rest.isEmpty then .operand else .opening)
      | ")" => some .closing
      | _ => some .operand

/-- Whether a test holds, the last word that it used, and the words behind that. -/
structure Verdict where
  holds : Bool
  last : String
  rest : List String

/-- The whole number that a word stands for. -/
def number (word : String) : Except String Int :=
  let blank (c : Char) : Bool := c == ' ' || c == '\t' || c == '\n'
  let trimmed := ((word.toList.dropWhile blank).reverse.dropWhile blank).reverse
  match trimmed, integerOf (String.ofList trimmed) with
  | _ :: _, (n, true) =>
    if -0x8000000000000000 ≤ n && n < 0x8000000000000000 then .ok n
    else .error s!"Illegal number: {word}"
  | _, _ => .error s!"Illegal number: {word}"

/-- The answer to a question about one operand. -/
def unaryHolds (s : State) (operator operand : String) : Bool :=
  let entry := (s.files.find (.verbatim operand)).toOption
  match operator with
  | "-n" => !operand.isEmpty
  | "-z" => operand.isEmpty
  | "-e" | "-r" | "-w" | "-O" | "-G" => entry.isSome
  | "-x" | "-d" => entry == some .directory
  | "-f" => s.files.isFile (.verbatim operand)
  | "-s" => entry.isSome && entry != some (.file [])
  | "-c" =>
    match entry with
    | some (.device _) => true
    | _ => false
  | _ => false

/-- The answer to a question about two operands. -/
def binaryHolds (s : State) (operator a b : String) : Except String Bool :=
  let compare (holds : Int → Int → Bool) : Except String Bool := do
    let m ← number a
    let n ← number b
    return holds m n
  let place? (path : String) : Option (List String) :=
    (s.files.locate (.verbatim path)).toOption.filter fun place => (s.files.lookup place).isSome
  match operator with
  | "=" => .ok (a == b)
  | "!=" => .ok (a != b)
  | "<" => .ok (decide (a < b))
  | ">" => .ok (decide (b < a))
  | "-eq" => compare (· == ·)
  | "-ne" => compare (· != ·)
  | "-lt" => compare fun m n => decide (m < n)
  | "-le" => compare fun m n => decide (m ≤ n)
  | "-gt" => compare fun m n => decide (n < m)
  | "-ge" => compare fun m n => decide (n ≤ m)
  | "-ef" => .ok ((place? a).isSome && place? a == place? b)
  | _ => .ok false

/-- A comparison of two operands, if the words begin with one. -/
def comparison? (s : State) : List String → Option (Except String Verdict)
  | a :: operator :: rest =>
    if !binaryOperators.contains operator then none
    else
      match rest with
      | [] => some (.error s!"{operator}: argument expected")
      | b :: rest => some ((binaryHolds s operator a b).map (⟨·, b, rest⟩))
  | _ => none

/-- A test without a combination; `all` reads one with combinations. -/
def primary (s : State) (all : List String → Except String Verdict) (words : List String) :
    Except String Verdict :=
  match symbol? words, words with
  | some .opening, _ :: inner =>
    if symbol? inner = some .closing then .ok ⟨false, ")", inner.tail⟩
    else do
      let v ← all inner
      if symbol? v.rest = some .closing then return ⟨v.holds, ")", v.rest.tail⟩
      else throw "closing paren expected"
  | some .unary, operator :: operand :: rest =>
    .ok ⟨unaryHolds s operator operand, operand, rest⟩
  | _, [] => .ok ⟨false, "", []⟩
  | _, word :: rest => (comparison? s words).getD (.ok ⟨!word.isEmpty, word, rest⟩)

/-- A test that is perhaps negated; each negation uses up fuel. -/
def negated (s : State) (all : List String → Except String Verdict) :
    Nat → List String → Except String Verdict
  | 0, words => primary s all words
  | fuel + 1, words =>
    match symbol? words, words with
    | some .negation, [word] => .ok ⟨true, word, []⟩
    | some .negation, _ :: rest => do
      let v ← negated s all fuel rest
      return { v with holds := !v.holds }
    | _, _ => primary s all words

/-- Tests all of which have to hold; each uses up fuel. -/
def conjunction (s : State) (all : List String → Except String Verdict) :
    Nat → List String → Except String Verdict
  | 0, words => negated s all 0 words
  | fuel + 1, words => do
    let v ← negated s all words.length words
    if symbol? v.rest = some .conjunction then
      let w ← conjunction s all fuel v.rest.tail
      return { w with holds := v.holds && w.holds }
    else return v

/-- Tests one of which has to hold; each uses up fuel. -/
def disjunction (s : State) (all : List String → Except String Verdict) :
    Nat → List String → Except String Verdict
  | 0, words => conjunction s all 0 words
  | fuel + 1, words => do
    let v ← conjunction s all words.length words
    if symbol? v.rest = some .disjunction then
      let w ← disjunction s all fuel v.rest.tail
      return { w with holds := v.holds || w.holds }
    else return v

/-- A test; each level of brackets uses up fuel. -/
def expression (s : State) : Nat → List String → Except String Verdict
  | 0, words => .ok ⟨false, "", words⟩
  | fuel + 1, words => disjunction s (expression s fuel) words.length words

/-- Whether all of some words, taken as a test, hold. -/
def whole (s : State) (words : List String) : Except String Bool := do
  let v ← expression s (words.length + 1) words
  if v.rest.isEmpty then return v.holds else throw s!"{v.last}: unexpected operator"

/-- Whether a test holds, or else whether it does not. Three words are a comparison if they can be
one. Otherwise three or four words in brackets, or behind a mark of negation, are a test of their
own: marks in front count once, however many there are. -/
def holdsUnless (s : State) (isNegated : Bool) (words : List String) : Except String Bool :=
  let turned (result : Except String Bool) : Except String Bool := result.map (· != isNegated)
  if words.length = 3 && (comparison? s words).isSome then
    turned (((comparison? s words).getD (.ok ⟨false, "", []⟩)).map Verdict.holds)
  else if words.length != 3 && words.length != 4 then turned (whole s words)
  else
    match words with
    | "!" :: inner => holdsUnless s true inner
    | "(" :: inner =>
      turned (if inner.getLast? = some ")" then whole s inner.dropLast else whole s words)
    | _ => turned (whole s words)

/-- Whether a test holds. -/
def holds (s : State) (words : List String) : Except String Bool :=
  holdsUnless s false words

end ModuLang.Host.Shell.Test
