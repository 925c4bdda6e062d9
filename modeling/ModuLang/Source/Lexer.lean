import ModuLang.Error
import ModuLang.Number.Numeral
import ModuLang.Source.Token
import ModuLang.Text.Lines

/-!
# From text to tokens

A program is cut into lines, and a line into tokens, gaps and comments. What stands at the front of
a line is found by `scan`, whose result says how it splits the line. A comment between `/*` and `*/`
may run over lines; the lines inside it give no token, not even the one of their end.

`lexLine` and `tokenize` give the tokens before the first failure together with that failure.
-/

namespace ModuLang.Source

open Text

/-- The characters that separate tokens within a line. -/
def isGap (c : Char) : Bool :=
  c == ' ' || c == '\t' || c == '\r' || c == '\x0c' || c == '\x0b'

/-- The characters that an identifier may begin with. -/
def isWordStart (c : Char) : Bool :=
  ('A' ≤ c && c ≤ 'Z') || ('a' ≤ c && c ≤ 'z') || c == '_'

/-- The characters that an identifier may go on with. -/
def isWordPart (c : Char) : Bool :=
  isWordStart c || isBasicDigit c

/-- What stands at the front of a text that is not empty. -/
inductive Scan (cs : List Char) where
  | token (kind : TokenKind) (text rest : List Char)
      (whole : text ++ rest = cs) (nonempty : text ≠ [])
  | comment (text rest : List Char) (whole : text ++ rest = cs) (nonempty : text ≠ [])
  | openComment
  | unrecognised

/-- Splits a text behind the first end of a comment. -/
def splitAtCommentEnd? : List Char → Option (List Char × List Char)
  | [] => none
  | [_] => none
  | c :: d :: cs =>
    if c = '*' ∧ d = '/' then some (['*', '/'], cs)
    else (splitAtCommentEnd? (d :: cs)).map fun (text, rest) => (c :: text, rest)

/-- Splitting behind the end of a comment loses nothing. -/
theorem splitAtCommentEnd?_append {cs text rest : List Char}
    (h : splitAtCommentEnd? cs = some (text, rest)) : text ++ rest = cs := by
  induction cs generalizing text with
  | nil => simp [splitAtCommentEnd?] at h
  | cons c tail ih =>
    cases tail with
    | nil => simp [splitAtCommentEnd?] at h
    | cons d cs =>
      rw [splitAtCommentEnd?] at h
      split at h
      · next hcd =>
        obtain ⟨rfl, rfl⟩ := hcd
        simp only [Option.some.injEq, Prod.mk.injEq] at h
        obtain ⟨rfl, rfl⟩ := h
        rfl
      · obtain ⟨⟨text', rest'⟩, hsplit, hpair⟩ := Option.map_eq_some_iff.1 h
        simp only [Prod.mk.injEq] at hpair
        obtain ⟨rfl, rfl⟩ := hpair
        simp [ih hsplit]

/-- A single character as a token. -/
def scanOne (kind : TokenKind) (c : Char) (cs : List Char) : Scan (c :: cs) :=
  .token kind [c] cs rfl (by simp)

/-- A numeral: digits, with a point and digits behind them if both are there. -/
def scanNumeral (c : Char) (cs : List Char) : Scan (c :: cs) :=
  let whole := cs.takeWhile isBasicDigit
  match h : cs.dropWhile isBasicDigit with
  | '.' :: d :: rest =>
    if isBasicDigit d then
      .token .float (c :: whole ++ '.' :: d :: rest.takeWhile isBasicDigit)
        (rest.dropWhile isBasicDigit)
        (by
          have hrest := List.takeWhile_append_dropWhile (p := isBasicDigit) (l := rest)
          have hcs := List.takeWhile_append_dropWhile (p := isBasicDigit) (l := cs)
          rw [h] at hcs
          simp [whole, hrest, hcs])
        (by simp)
    else
      .token .number (c :: whole) ('.' :: d :: rest)
        (by
          have hcs := List.takeWhile_append_dropWhile (p := isBasicDigit) (l := cs)
          rw [h] at hcs
          simp [whole, hcs])
        (by simp)
  | rest =>
    .token .number (c :: whole) rest
      (by
        have hcs := List.takeWhile_append_dropWhile (p := isBasicDigit) (l := cs)
        rw [h] at hcs
        simp [whole, hcs])
      (by simp)

/-- A string: everything up to the next quote, which has to be there. -/
def scanString (cs : List Char) : Scan ('"' :: cs) :=
  let body := cs.takeWhile (· != '"')
  match h : cs.dropWhile (· != '"') with
  | [] => .unrecognised
  | q :: rest =>
    .token .string ('"' :: body ++ [q]) rest
      (by
        have hcs := List.takeWhile_append_dropWhile (p := (· != '"')) (l := cs)
        rw [h] at hcs
        simp [body, hcs])
      (by simp)

/-- A word: an identifier or a reserved word. -/
def scanWord (c : Char) (cs : List Char) : Scan (c :: cs) :=
  let word := c :: cs.takeWhile isWordPart
  .token (wordKind (String.ofList word)) word (cs.dropWhile isWordPart)
    (by simp [word]) (by simp [word])

/-- A comment that runs to the end of the line. -/
def scanLineComment (cs : List Char) : Scan ('/' :: '/' :: cs) :=
  .comment ('/' :: '/' :: cs.takeWhile (· != '\n')) (cs.dropWhile (· != '\n')) (by simp) (by simp)

/-- A comment that runs to its closing mark. -/
def scanBlockComment (cs : List Char) : Scan ('/' :: '*' :: cs) :=
  match h : splitAtCommentEnd? cs with
  | some (text, rest) =>
    .comment ('/' :: '*' :: text) rest (by simp [splitAtCommentEnd?_append h]) (by simp)
  | none => .openComment

/-- Finds what stands at the front of a text. -/
def scan : (cs : List Char) → Scan cs
  | [] => .unrecognised
  | '/' :: '/' :: cs => scanLineComment cs
  | '/' :: '*' :: cs => scanBlockComment cs
  | '"' :: cs => scanString cs
  | '=' :: '=' :: cs => .token .equal ['=', '='] cs rfl (by simp)
  | '!' :: '=' :: cs => .token .unequal ['!', '='] cs rfl (by simp)
  | c :: cs =>
    if isBasicDigit c then scanNumeral c cs
    else if isWordStart c then scanWord c cs
    else
      match c with
      | '=' => scanOne .assign '=' cs
      | '+' => scanOne .plus '+' cs
      | '-' => scanOne .minus '-' cs
      | '*' => scanOne .star '*' cs
      | '.' => scanOne .dot '.' cs
      | ',' => scanOne .comma ',' cs
      | ';' => scanOne .semicolon ';' cs
      | ':' => scanOne .colon ':' cs
      | '(' => scanOne .leftParen '(' cs
      | ')' => scanOne .rightParen ')' cs
      | '\x7b' => scanOne .leftBrace '\x7b' cs
      | '\x7d' => scanOne .rightBrace '\x7d' cs
      | _ => .unrecognised

/-- Whether something can be recognised at the front of a text. -/
def isRecognised (cs : List Char) : Bool :=
  match scan cs with
  | .unrecognised => false
  | _ => true

/-- The rest of an unrecognised run: up to a blank or to where something is recognised. -/
def unrecognisedRun : List Char → List Char
  | [] => []
  | c :: cs => if isBlank c || isRecognised (c :: cs) then [] else c :: unrecognisedRun cs

/-- What is wrong with the numeral of an integer token. -/
def integerDefect? (digits : List Char) (line : Int) : Option Failure :=
  if Number.digitLimit < digits.length then some (.crash .unreadableText)
  else if Number.intMax < (Number.digitsValue digits : Int) then
    some (.fault ⟨.literalTooLarge (String.ofList digits), line⟩)
  else none

/-- A numeral has no defect if it is short enough to be read and in range. -/
theorem integerDefect?_eq_none_iff {digits : List Char} {line : Int} :
    integerDefect? digits line = none ↔
      digits.length ≤ Number.digitLimit ∧ (Number.digitsValue digits : Int) ≤ Number.intMax := by
  unfold integerDefect?
  rw [← Nat.not_lt, ← Int.not_lt]
  split
  · next hlong => simp [hlong]
  · next hshort =>
    split
    · next hlarge => simp [hlarge]
    · next hsmall => simp [hshort, hsmall]

/-- The part of a split that is not the token is shorter than the whole. -/
theorem length_rest_lt {text rest cs : List Char} (whole : text ++ rest = cs)
    (nonempty : text ≠ []) : rest.length < cs.length := by
  have := List.length_pos_iff.2 nonempty
  rw [← whole, List.length_append]
  omega

/-- The tokens of one line, up to the first failure. -/
def lexLine (line : Int) (cs : List Char) : List (TokenKind × String) × Option Failure :=
  match cs with
  | [] => ([], none)
  | c :: tail =>
    if isGap c then lexLine line tail
    else
      match scan (c :: tail) with
      | .comment _ rest whole nonempty =>
        have := length_rest_lt whole nonempty
        lexLine line rest
      | .openComment => ([], some (.fault ⟨.commentRunsOn, line⟩))
      | .unrecognised =>
        ([], some (.fault ⟨.unexpectedText (String.ofList (c :: unrecognisedRun tail)), line⟩))
      | .token kind text rest whole nonempty =>
        match if kind = .number then integerDefect? text line else none with
        | some failure => ([], some failure)
        | none =>
          have := length_rest_lt whole nonempty
          let (tokens, failure) := lexLine line rest
          ((kind, String.ofList text) :: tokens, failure)
termination_by cs.length
decreasing_by all_goals simp only [List.length_cons] at *; omega

/-- The tokens of a line with their line number, and the one of its end. -/
def lineTokens (line : Int) (tokens : List (TokenKind × String)) : List Token :=
  tokens.map (fun (kind, text) => ⟨kind, text, line⟩) ++ [⟨.newline, "\n", line⟩]

/-- The tokens of the lines from the given number on, up to the first failure. `commentSince` is the
line of the comment that is open at their start. A line with a failure gives no token at all. -/
def tokenizeLines (line : Int) (commentSince : Option Int) :
    List (List Char) → List Token × Option Failure
  | [] => ([], commentSince.map fun since => .fault ⟨.unterminatedComment, since⟩)
  | cs :: rest =>
    let visible? :=
      match commentSince with
      | none => some cs
      | some _ => (splitAtCommentEnd? cs).map (·.2)
    match visible? with
    | none => tokenizeLines (line + 1) commentSince rest
    | some visible =>
      match lexLine line visible with
      | (tokens, none) =>
        let (more, failure) := tokenizeLines (line + 1) none rest
        (lineTokens line tokens ++ more, failure)
      | (tokens, some (.fault ⟨.commentRunsOn, _⟩)) =>
        let (more, failure) := tokenizeLines (line + 1) (some line) rest
        (lineTokens line tokens ++ more, failure)
      | (_, some failure) => ([], some failure)

/-- The tokens of a program, up to the first failure. -/
def tokenize (source : String) : List Token × Option Failure :=
  tokenizeLines 1 none (lines source.toList)

/-- How much a token adds to the number of open brackets. -/
def Token.opens (t : Token) : Int :=
  match t.kind with
  | .leftBrace | .leftParen => 1
  | .rightBrace | .rightParen => -1
  | _ => 0

/-- Whether a program has an open bracket, so that it has to go on. A lexical error is left to the
parser to report. -/
def needsMoreInput (source : String) : Except Crash Bool :=
  match tokenize source with
  | (_, some (.fault _)) => .ok false
  | (_, some (.crash c)) => .error c
  | (tokens, none) => .ok (decide (0 < tokens.foldl (fun depth t => depth + t.opens) 0))

end ModuLang.Source
