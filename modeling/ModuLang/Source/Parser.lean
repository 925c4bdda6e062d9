import ModuLang.Host.Limits
import ModuLang.Source.Lexer
import ModuLang.Source.StringLiteral
import ModuLang.Text.Parsed
import ModuLang.Value

/-!
# From tokens to programs

The parser reads from a list of tokens. A step that succeeds gives back the tokens that it did not
use, and these are fewer than it was given, so the loops of the grammar come to an end. Behind the
last token stands an `Ending`: the end of the text, or the failure that it cannot be read past.
A failure is met only by a step that looks that far.

The nesting that the parser follows is bounded: `operand` and `statement` take the number of levels
that are left, and none left is a stack overflow.
-/

namespace ModuLang.Source

/-- What stands behind the last token. -/
inductive Ending where
  | endOfText (line : Int)
  | failed (failure : Failure)

/-- A value that was read, and fewer than `bound` tokens behind it. -/
abbrev Parsed (α : Type) (bound : Nat) := Text.Parsed Token α bound

/-- A step that uses at least one token. -/
abbrev Parser (α : Type) := (ts : List Token) → Except Failure (Parsed α ts.length)

/-- An error of the grammar. -/
def failAt {α : Type} (cause : Cause) (line : Int) : Except Failure α :=
  .error (.fault ⟨cause, line⟩)

/-- The next token, which at the end is a token of its own kind. -/
def peek (ending : Ending) : List Token → Except Failure Token
  | t :: _ => .ok t
  | [] =>
    match ending with
    | .endOfText line => .ok ⟨.endOfText, "", line⟩
    | .failed failure => .error failure

/-- Uses the next token if it is of a kind that is wanted. -/
def accept (ending : Ending) (wanted : TokenKind → Bool) (ts : List Token) :
    Except Failure (Option (Parsed Token ts.length)) :=
  match ts with
  | t :: rest => .ok (if wanted t.kind then some ⟨t, rest, by simp⟩ else none)
  | [] => (peek ending []).map fun _ => none

/-- Uses the next token, which has to be of a kind that is wanted. -/
def expect (ending : Ending) (wanted : TokenKind → Bool) (what : Expectation) : Parser Token :=
  fun ts => do
    match ← accept ending wanted ts with
    | some token => return token
    | none => do
      let t ← peek ending ts
      failAt (.expected what t.describe) t.line

/-- Skips the ends of lines. -/
def skipNewlines (ts : List Token) : List Token :=
  ts.dropWhile (·.kind == .newline)

/-- Skips the ends of lines and the semicolons between statements. -/
def skipSeparators (ts : List Token) : List Token :=
  ts.dropWhile fun t => t.kind == .newline || t.kind == .semicolon

/-- Skipping the ends of lines leaves no more than there was. -/
theorem length_skipNewlines_le (ts : List Token) : (skipNewlines ts).length ≤ ts.length :=
  Text.length_dropWhile_le _ ts

/-- Skipping separators leaves no more than there was. -/
theorem length_skipSeparators_le (ts : List Token) : (skipSeparators ts).length ≤ ts.length :=
  Text.length_dropWhile_le _ ts

/-- The kinds of tokens that may name a variable, so that a reserved word is refused later, with a
better message. -/
def isNameKind : TokenKind → Bool
  | .identifier | .letWord | .fnWord | .importWord | .ifWord | .returnWord | .asWord => true
  | _ => false

/-- The kinds of tokens that end a statement. -/
def endsStatement : TokenKind → Bool
  | .newline | .semicolon | .rightBrace | .endOfText => true
  | _ => false

/-- The kinds of tokens that an operand without sign may begin with. -/
def startsTerm : TokenKind → Bool
  | .number | .float | .boolean | .string | .leftBrace | .identifier => true
  | _ => false

/-- The kinds of tokens that a statement other than an expression begins with. -/
def startsStatement : TokenKind → Bool
  | .letWord | .importWord | .fnWord | .ifWord | .returnWord => true
  | _ => false

/-! ### Expressions -/

/-- The arguments of a call behind the opening bracket or a comma: at least one. -/
def arguments (ending : Ending) (expr : Parser Node) (ts : List Token) :
    Except Failure (Parsed (List Node) ts.length) := do
  let arg ← expr (skipNewlines ts)
  let close ← expect ending (fun k => k == .comma || k == .rightParen) .argumentEnd
    (skipNewlines arg.rest)
  have hclose : close.rest.length < ts.length := by
    have := length_skipNewlines_le ts
    have := arg.shorter
    have := length_skipNewlines_le arg.rest
    have := close.shorter
    omega
  if close.value.kind = .comma then
    let more ← arguments ending expr close.rest
    return ⟨arg.value :: more.value, more.rest, Nat.lt_trans more.shorter hclose⟩
  else return ⟨[arg.value], close.rest, hclose⟩
termination_by ts.length

/-- The arguments of a call behind its opening bracket, if there are any. -/
def argumentList (ending : Ending) (expr : Parser Node) : Parser (List Node) := fun ts => do
  match ← accept ending (· == .rightParen) (skipNewlines ts) with
  | some close =>
    return ⟨[], close.rest, Nat.lt_of_lt_of_le close.shorter (length_skipNewlines_le ts)⟩
  | none => arguments ending expr ts

/-- The properties and calls that follow an object expression. -/
def propertyChain (ending : Ending) (expr : Parser Node) (object : Node) (ts : List Token) :
    Except Failure (Parsed Node (ts.length + 1)) := do
  match ← accept ending (· == .dot) ts with
  | none => return ⟨object, ts, by simp⟩
  | some dot =>
    let name ← expect ending (· == .identifier) .propertyName dot.rest
    have hname : name.rest.length < ts.length := Nat.lt_trans name.shorter dot.shorter
    match ← accept ending (· == .leftParen) name.rest with
    | none =>
      let node := Node.property object name.value.text name.value.line
      return (← propertyChain ending expr node name.rest).widen (by omega)
    | some paren =>
      let args ← argumentList ending expr paren.rest
      have hargs : args.rest.length < ts.length :=
        Nat.lt_trans args.shorter (Nat.lt_trans paren.shorter hname)
      let node := Node.methodCall object name.value.text args.value name.value.line
      return (← propertyChain ending expr node args.rest).widen (by omega)
termination_by ts.length

/-- The properties of an object literal behind its opening brace. -/
def recordBody (ending : Ending) (expr : Parser Node) (ts : List Token) :
    Except Failure (Parsed (List (String × Node)) ts.length) := do
  let first ← expect ending
    (fun k => k == .rightBrace || k == .string || isNameKind k || k == .boolean) .literalKey
    (skipNewlines ts)
  have hfirst := Nat.lt_of_lt_of_le first.shorter (length_skipNewlines_le ts)
  if first.value.kind = .rightBrace then return ⟨[], first.rest, hfirst⟩
  else
    let text := first.value.text
    let key := if first.value.kind = .string then unquote text else text
    let colon ← expect ending (· == .colon) (.literalColon key) first.rest
    let value ← expr (skipNewlines colon.rest)
    let close ← expect ending (fun k => k == .comma || k == .rightBrace) .literalEnd
      (skipNewlines value.rest)
    have hclose : close.rest.length < ts.length := by
      have := colon.shorter
      have := length_skipNewlines_le colon.rest
      have := value.shorter
      have := length_skipNewlines_le value.rest
      have := close.shorter
      omega
    if close.value.kind = .comma then
      let more ← recordBody ending expr close.rest
      return ⟨(key, value.value) :: more.value, more.rest, Nat.lt_trans more.shorter hclose⟩
    else return ⟨[(key, value.value)], close.rest, hclose⟩
termination_by ts.length

/-- A single operand without sign. -/
def term (ending : Ending) (expr : Parser Node) : Parser Node := fun ts => do
  match ← accept ending startsTerm ts with
  | none =>
    let t ← peek ending ts
    failAt (.expectedExpression t.describe) t.line
  | some first =>
    let t := first.value
    let literal (value : Value) : Parsed Node ts.length :=
      ⟨.literal value t.line, first.rest, first.shorter⟩
    match t.kind with
    | .number => return literal (.int (Number.digitsValue t.text.toList))
    | .float => return literal (.float ((Number.readFloat? t.text).getD 0))
    | .boolean => return literal (.bool (t.text = "true"))
    | .string => return ⟨.text ⟨t.text, t.line⟩, first.rest, first.shorter⟩
    | .leftBrace =>
      let properties ← recordBody ending expr first.rest
      return (properties.map (Node.record · t.line)).widen (Nat.le_of_lt first.shorter)
    | _ =>
      match ← accept ending (· == .leftParen) first.rest with
      | none =>
        return (← propertyChain ending expr (.identifier t.text t.line) first.rest).widen
          first.shorter
      | some paren =>
        let args ← argumentList ending expr paren.rest
        have hargs : args.rest.length < ts.length :=
          Nat.lt_trans args.shorter (Nat.lt_trans paren.shorter first.shorter)
        return (← propertyChain ending expr (.call t.text args.value t.line) args.rest).widen hargs

/-- The additions and subtractions that follow the left operand. -/
def sumChain (ending : Ending) (operand : Parser Node) (left : Node) (ts : List Token) :
    Except Failure (Parsed Node (ts.length + 1)) := do
  match ← accept ending (fun k => k == .plus || k == .minus) ts with
  | none => return ⟨left, ts, by simp⟩
  | some sign =>
    let right ← operand sign.rest
    have hright : right.rest.length < ts.length := Nat.lt_trans right.shorter sign.shorter
    let op := if sign.value.kind = .plus then BinaryOperator.add else .subtract
    let node := Node.binary op left right.value sign.value.line
    return (← sumChain ending operand node right.rest).widen (by omega)
termination_by ts.length

/-- Operands joined by `+` and `-`, grouped to the left. -/
def sum (ending : Ending) (operand : Parser Node) : Parser Node := fun ts => do
  let first ← operand ts
  return (← sumChain ending operand first.value first.rest).widen first.shorter

/-- An operand with its signs; a minus subtracts from nothing. -/
def operand (ending : Ending) : Nat → Parser Node
  | 0 => fun _ => .error (.crash .stackOverflow)
  | levels + 1 => fun ts => do
    match ← accept ending (· == .minus) ts with
    | none => term ending (sum ending (operand ending levels)) ts
    | some sign =>
      let inner ← operand ending levels sign.rest
      let line := sign.value.line
      return ⟨.binary .subtract (.literal .null line) inner.value line, inner.rest,
        Nat.lt_trans inner.shorter sign.shorter⟩

/-- An expression. -/
def expression (ending : Ending) (levels : Nat) : Parser Node :=
  sum ending (operand ending levels)

/-! ### Statements -/

/-- A statement that must be followed by what ends one. -/
def ended (ending : Ending) (statement : Parser Node) : Parser Node := fun ts => do
  let node ← statement ts
  let t ← peek ending node.rest
  if endsStatement t.kind then return node
  else failAt (.expected .endOfStatement t.describe) t.line

/-- The statements of a body behind its opening brace, which stands at the given line. -/
def bodyStatements (ending : Ending) (statement : Parser Node) (openLine : Int) (ts : List Token) :
    Except Failure (Parsed (List Node) ts.length) := do
  have hinner := length_skipSeparators_le ts
  match ← accept ending (· == .rightBrace) (skipSeparators ts) with
  | some close => return ⟨[], close.rest, Nat.lt_of_lt_of_le close.shorter hinner⟩
  | none =>
    let t ← peek ending (skipSeparators ts)
    if t.kind = .endOfText then failAt (.bodyNotClosed openLine) t.line
    else
      let node ← ended ending statement (skipSeparators ts)
      have hnode := Nat.lt_of_lt_of_le node.shorter hinner
      let more ← bodyStatements ending statement openLine node.rest
      return ⟨node.value :: more.value, more.rest, Nat.lt_trans more.shorter hnode⟩
termination_by ts.length

/-- A body between braces. -/
def body (ending : Ending) (statement : Parser Node) : Parser (List Node) := fun ts => do
  let brace ← expect ending (· == .leftBrace) .bodyStart ts
  let statements ← bodyStatements ending statement brace.value.line brace.rest
  return statements.widen (Nat.le_of_lt brace.shorter)

/-- A binding, whose first token is the given one. -/
def letStatement (ending : Ending) (expr : Parser Node) (word : Token) : Parser Node := fun ts => do
  let name ← expect ending isNameKind .variableName ts
  let sign ← expect ending (· == .assign) (.assignmentTo name.value.text) name.rest
  let value ← expr sign.rest
  return ⟨.binding name.value.text value.value word.line, value.rest,
    Nat.lt_trans value.shorter (Nat.lt_trans sign.shorter name.shorter)⟩

/-- An import, whose first token is the given one. -/
def importStatement (ending : Ending) (word : Token) : Parser Node := fun ts => do
  let target ← expect ending (· == .string) .importTarget ts
  let quotation : Quotation := ⟨target.value.text, target.value.line⟩
  match ← accept ending (· == .asWord) target.rest with
  | none => return ⟨.importing quotation none word.line, target.rest, target.shorter⟩
  | some asWord =>
    let chosen ← expect ending (fun k => k == .identifier || k == .star) .importAlias asWord.rest
    return ⟨.importing quotation (some chosen.value.text) word.line, chosen.rest,
      Nat.lt_trans chosen.shorter (Nat.lt_trans asWord.shorter target.shorter)⟩

/-- The parameters of a function that has at least one. -/
def parameters (ending : Ending) (ts : List Token) :
    Except Failure (Parsed (List String) ts.length) := do
  let name ← expect ending (· == .identifier) .parameterName ts
  match ← accept ending (· == .comma) name.rest with
  | none => return ⟨[name.value.text], name.rest, name.shorter⟩
  | some comma =>
    have hcomma : comma.rest.length < ts.length := Nat.lt_trans comma.shorter name.shorter
    let more ← parameters ending comma.rest
    return ⟨name.value.text :: more.value, more.rest, Nat.lt_trans more.shorter hcomma⟩
termination_by ts.length

/-- The parameters of a function behind the opening bracket, with the closing one. -/
def parameterList (ending : Ending) : Parser (List String) := fun ts => do
  match ← accept ending (· == .rightParen) ts with
  | some close => return ⟨[], close.rest, close.shorter⟩
  | none =>
    let names ← parameters ending ts
    let close ← expect ending (· == .rightParen) .endOfParameters names.rest
    return ⟨names.value, close.rest, Nat.lt_trans close.shorter names.shorter⟩

/-- The definition of a function, whose first token is the given one. -/
def functionStatement (ending : Ending) (statement : Parser Node) (word : Token) : Parser Node :=
  fun ts => do
    let name ← expect ending (· == .identifier) .functionName ts
    let paren ← expect ending (· == .leftParen) (.parameterList name.value.text) name.rest
    let params ← parameterList ending paren.rest
    let statements ← body ending statement params.rest
    return ⟨.definition name.value.text params.value statements.value word.line, statements.rest,
      Nat.lt_trans statements.shorter
        (Nat.lt_trans params.shorter (Nat.lt_trans paren.shorter name.shorter))⟩

/-- A condition: an expression that has to be there, or a comparison of two. -/
def condition (ending : Ending) (expr : Parser Node) (line : Int) : Parser Node := fun ts => do
  let left ← expr ts
  match ← accept ending (fun k => k == .equal || k == .unequal) left.rest with
  | none => return ⟨.isPresent left.value line, left.rest, left.shorter⟩
  | some sign =>
    let right ← expr sign.rest
    let op := if sign.value.kind = .equal then BinaryOperator.equal else .unequal
    return ⟨.binary op left.value right.value line, right.rest,
      Nat.lt_trans right.shorter (Nat.lt_trans sign.shorter left.shorter)⟩

/-- A conditional, whose first token is the given one. -/
def ifStatement (ending : Ending) (expr statement : Parser Node) (word : Token) : Parser Node :=
  fun ts => do
    let test ← condition ending expr word.line ts
    let statements ← body ending statement test.rest
    return ⟨.conditional test.value statements.value word.line, statements.rest,
      Nat.lt_trans statements.shorter test.shorter⟩

/-- A return, whose first token is the given one. -/
def returnStatement (ending : Ending) (expr : Parser Node) (inFunction : Bool) (word : Token)
    (ts : List Token) : Except Failure (Parsed Node (ts.length + 1)) := do
  if !inFunction then failAt .returnOutsideFunction word.line
  else if endsStatement (← peek ending ts).kind then
    return ⟨.returning none word.line, ts, by simp⟩
  else
    let value ← expr ts
    return (value.map fun node => Node.returning (some node) word.line).widen (by simp)

/-- A statement; the flag says whether it stands inside a function. -/
def statement (ending : Ending) : Nat → Bool → Parser Node
  | 0, _ => fun _ => .error (.crash .stackOverflow)
  | levels + 1, inFunction => fun ts => do
    let expr := expression ending levels
    match ← accept ending startsStatement ts with
    | none => expr ts
    | some first =>
      let word := first.value
      have hle := Nat.le_of_lt first.shorter
      match word.kind with
      | .letWord => return (← letStatement ending expr word first.rest).widen hle
      | .importWord => return (← importStatement ending word first.rest).widen hle
      | .fnWord =>
        let inner := statement ending levels true
        return (← functionStatement ending inner word first.rest).widen hle
      | .ifWord =>
        let inner := statement ending levels inFunction
        return (← ifStatement ending expr inner word first.rest).widen hle
      | _ => return (← returnStatement ending expr inFunction word first.rest).widen first.shorter

/-! ### Programs -/

/-- A program as far as it can be read: its statements, and the failure behind them. -/
structure Program where
  statements : List Node
  failure : Option Failure

/-- The statements of a program, up to the first failure. -/
def programStatements (ending : Ending) (levels : Nat) (ts : List Token) : Program :=
  match peek ending (skipSeparators ts) with
  | .error failure => ⟨[], some failure⟩
  | .ok t =>
    if t.kind = .endOfText then ⟨[], none⟩
    else if t.kind = .rightBrace then ⟨[], some (.fault ⟨.strayBrace, t.line⟩)⟩
    else
      match ended ending (statement ending levels false) (skipSeparators ts) with
      | .error failure => ⟨[], some failure⟩
      | .ok node =>
        have := Nat.lt_of_lt_of_le node.shorter (length_skipSeparators_le ts)
        let more := programStatements ending levels node.rest
        ⟨node.value :: more.statements, more.failure⟩
termination_by ts.length

variable [Host.Limits]

/-- Reads a program. -/
def parse (source : String) : Program :=
  let (tokens, failure) := tokenize source
  let ending :=
    match failure with
    | some failure => Ending.failed failure
    | none => .endOfText ((tokens.getLast?.map Token.line).getD 0)
  programStatements ending stackLimit tokens

/-- Reads a program that has to be right to its end. -/
def parseAll (source : String) : Except Failure (List Node) :=
  let program := parse source
  match program.failure with
  | some failure => .error failure
  | none => .ok program.statements

end ModuLang.Source
