import ModuLang.Text.DecimalDigit

/-!
# Words of the shell

A command is cut into words, operators and redirections. A word is a list of pieces, which remember
whether they were quoted: only what stands outside quotes is split into fields and matched against
file names. What a dollar sign stands for is kept as it was written until the word is used. A
document, which a redirection announces and which follows on the next lines, is a word as well.
-/

namespace ModuLang.Host.Shell

/-- What is to be done if a parameter has no value. -/
inductive Remedy where
  /-- Another text takes its place. -/
  | replace
  /-- It is given another text as its value. -/
  | assign
  /-- The shell ends with the text as its complaint. -/
  | refuse
  /-- Nothing, but where it has a value the text takes its place. -/
  | invert
  deriving DecidableEq, Repr

/-- What becomes of the value of a parameter. Texts are expanded in their turn. -/
inductive Use where
  | value
  /-- The number of its characters. -/
  | size
  /-- The flag says whether an empty value counts as none. -/
  | remedied (remedy : Remedy) (isEmptyNone : Bool) (text : List Char)
  /-- A part that matches a pattern is taken away, at the front or at the back: the longest such
  part or the shortest. -/
  | trimmed (isFront isLongest : Bool) (pattern : List Char)
  deriving DecidableEq, Repr

/-- What a dollar sign or a pair of backquotes stands for. -/
inductive Expansion where
  | parameter (name : String) (use : Use)
  /-- The value of an arithmetic expression. -/
  | arithmetic (text : List Char)
  /-- What a command prints. -/
  | command (text : List Char)
  /-- Braces that name no parameter. -/
  | malformed
  deriving DecidableEq, Repr

/-- A piece of a word. -/
inductive Piece where
  | char (c : Char) (isQuoted : Bool)
  /-- A quoted piece without characters, which is a field all the same. -/
  | emptyText
  | expansion (e : Expansion) (isQuoted : Bool)
  deriving DecidableEq, Repr

/-- A word of a command. -/
abbrev Word := List Piece

/-- The text of a word that has neither quotes nor expansions. -/
def bareText? (w : Word) : Option String :=
  (w.mapM fun (piece : Piece) =>
    match piece with
    | .char c false => some c
    | _ => none).map String.ofList

/-- Why a text cannot be cut into words. -/
inductive Defect where
  | openQuote
  | openBrace
  | openParenthesis
  | openArithmetic
  | openBackquote
  deriving DecidableEq, Repr

/-- The wording of a defect. -/
def Defect.message : Defect → String
  | .openQuote => "Unterminated quoted string"
  | .openBrace => "Missing '\x7d'"
  | .openParenthesis => "end of file unexpected (expecting \")\")"
  | .openArithmetic => "Missing '))'"
  | .openBackquote => "EOF in backquote substitution"

/-- Whether a character may be in the name of a parameter. -/
def isNameChar (c : Char) : Bool :=
  c.isAlphanum || c == '_'

/-- Whether a text is the name of a parameter that can be assigned to. -/
def isName (cs : List Char) : Bool :=
  !cs.isEmpty && cs.all isNameChar && !Text.isBasicDigit (cs.headD '0')

/-- Whether a character is a parameter of the shell itself. -/
def isSpecial (c : Char) : Bool :=
  c == '?' || c == '$' || c == '#' || c == '@' || c == '*' || c == '!' || c == '-'

/-- What stands before the bracket that closes one opened earlier, and what follows it. The depth
counts the brackets opened since, and the quote is the one that is open. -/
def untilClosed (depth : Nat) (quote : Option Char) : List Char → Option (List Char × List Char)
  | [] => none
  | '\\' :: c :: rest =>
    (untilClosed depth quote rest).map fun (inner, behind) => ('\\' :: c :: inner, behind)
  | c :: rest =>
    let goOn (depth : Nat) (quote : Option Char) : Option (List Char × List Char) :=
      (untilClosed depth quote rest).map fun (inner, behind) => (c :: inner, behind)
    match quote with
    | some q => goOn depth (if c == q then none else some q)
    | none =>
      if c == '\'' || c == '"' then goOn depth (some c)
      else if c == '(' then goOn (depth + 1) none
      else if c == ')' then if depth = 0 then some ([], rest) else goOn (depth - 1) none
      else goOn depth none

/-- What stands before the brace that closes one opened earlier, and what follows it. The depth
counts the braces opened since, and the quote is the one that is open: inside double quotes a single
quote is a character like others. -/
def untilBrace (isQuoted : Bool) (depth : Nat) (quote : Option Char) :
    List Char → Option (List Char × List Char)
  | [] => none
  | '\\' :: c :: rest =>
    (untilBrace isQuoted depth quote rest).map fun (inner, behind) => ('\\' :: c :: inner, behind)
  | '$' :: '\x7b' :: rest =>
    (untilBrace isQuoted (depth + 1) quote rest).map fun (inner, behind) =>
      ('$' :: '\x7b' :: inner, behind)
  | c :: rest =>
    let goOn (depth : Nat) (quote : Option Char) : Option (List Char × List Char) :=
      (untilBrace isQuoted depth quote rest).map fun (inner, behind) => (c :: inner, behind)
    match quote with
    | some q => goOn depth (if c == q then none else some q)
    | none =>
      if c == '"' || (c == '\'' && !isQuoted) then goOn depth (some c)
      else if c == '\x7d' then if depth = 0 then some ([], rest) else goOn (depth - 1) none
      else goOn depth none

/-- The name of a parameter in front of a text, and what follows it. -/
def takeName (cs : List Char) : List Char × List Char :=
  match cs with
  | c :: rest =>
    if isSpecial c then ([c], rest)
    else if Text.isBasicDigit c then
      (cs.takeWhile Text.isBasicDigit, cs.dropWhile Text.isBasicDigit)
    else (cs.takeWhile isNameChar, cs.dropWhile isNameChar)
  | [] => ([], [])

/-- What becomes of a value, as it is written behind the parameter's name. -/
def use? (cs : List Char) : Option Use :=
  let (isEmptyNone, cs) :=
    match cs with
    | ':' :: rest => (true, rest)
    | cs => (false, cs)
  match cs with
  | [] => if isEmptyNone then none else some .value
  | '-' :: text => some (.remedied .replace isEmptyNone text)
  | '=' :: text => some (.remedied .assign isEmptyNone text)
  | '?' :: text => some (.remedied .refuse isEmptyNone text)
  | '+' :: text => some (.remedied .invert isEmptyNone text)
  | '#' :: '#' :: pattern => if isEmptyNone then none else some (.trimmed true true pattern)
  | '#' :: pattern => if isEmptyNone then none else some (.trimmed true false pattern)
  | '%' :: '%' :: pattern => if isEmptyNone then none else some (.trimmed false true pattern)
  | '%' :: pattern => if isEmptyNone then none else some (.trimmed false false pattern)
  | _ => none

/-- Reads what stands between braces. -/
def braced (cs : List Char) : Expansion :=
  let plain : Expansion :=
    match takeName cs with
    | ([], _) => .malformed
    | (name, rest) => ((use? rest).map (.parameter (String.ofList name))).getD .malformed
  match cs with
  | '#' :: c :: rest =>
    match takeName (c :: rest) with
    | (c :: name, []) => .parameter (String.ofList (c :: name)) .size
    | _ => plain
  | _ => plain

/-- The expansion behind a dollar sign, if there is one, and what follows it. The flag says whether
double quotes are open. -/
def takeExpansion (isQuoted : Bool) : List Char → Except Defect (Option (Expansion × List Char))
  | '(' :: '(' :: cs =>
    match untilClosed 0 none cs with
    | some (inner, ')' :: rest) => .ok (some (.arithmetic inner, rest))
    | _ => .error .openArithmetic
  | '(' :: cs =>
    match untilClosed 0 none cs with
    | some (inner, rest) => .ok (some (.command inner, rest))
    | none => .error .openParenthesis
  | '\x7b' :: cs =>
    match untilBrace isQuoted 0 none cs with
    | some (inner, rest) => .ok (some (braced inner, rest))
    | none => .error .openBrace
  | c :: cs =>
    if isSpecial c || Text.isBasicDigit c then
      .ok (some (.parameter (String.singleton c) .value, cs))
    else
      let name := (c :: cs).takeWhile isNameChar
      if name.isEmpty then .ok none
      else .ok (some (.parameter (String.ofList name) .value, (c :: cs).dropWhile isNameChar))
  | [] => .ok none

/-- A command between backquotes: a backslash before one of the characters that would end or begin
something is dropped. -/
def takeBackquoted : List Char → Except Defect (List Char × List Char)
  | [] => .error .openBackquote
  | '\\' :: c :: rest => do
    let (inner, behind) ← takeBackquoted rest
    return (if c == '\x60' || c == '\\' || c == '$' then c :: inner else '\\' :: c :: inner, behind)
  | c :: rest =>
    if c == '\x60' then .ok ([], rest)
    else do
      let (inner, behind) ← takeBackquoted rest
      return (c :: inner, behind)

/-- The characters that a backslash may keep from their meaning inside double quotes. -/
def isEscapable (c : Char) : Bool :=
  c == '$' || c == '"' || c == '\\' || c == '\x60'

/-- The number of line ends in an expansion. -/
def Expansion.lineEnds : Expansion → Nat
  | .parameter _ (.remedied _ _ text) | .parameter _ (.trimmed _ _ text)
  | .arithmetic text | .command text => text.count '\n'
  | .parameter _ _ | .malformed => 0

/-- A word, the number of line ends in it, and what follows it. -/
structure TakenWord where
  word : Word
  lineEnds : Nat
  behind : List Char

/-- How far a word goes. -/
inductive Extent where
  /-- Up to a blank or an operator. -/
  | word
  /-- Up to the end of the text. -/
  | text
  /-- Up to the end of the text, where double quotes are characters like others. -/
  | document
  deriving DecidableEq, Repr

/-- A word at the front of a text; the flag says whether double quotes are open. -/
def takeWord (extent : Extent) : Nat → Bool → List Char → Except Defect TakenWord
  | 0, _, cs => .ok ⟨[], 0, cs⟩
  | _, isQuoted, [] =>
    if isQuoted && extent = .word then .error .openQuote else .ok ⟨[], 0, []⟩
  | fuel + 1, isQuoted, c :: rest =>
    let goOn (isQuoted : Bool) (pieces : List Piece) (lineEnds : Nat) (rest : List Char) :
        Except Defect TakenWord := do
      let more ← takeWord extent fuel isQuoted rest
      return ⟨pieces ++ more.word, lineEnds + more.lineEnds, more.behind⟩
    match c, rest with
    | '"', rest =>
      if extent = .document then goOn true [.char '"' true] 0 rest
      else goOn (!isQuoted) [.emptyText] 0 rest
    | '\\', d :: rest =>
      if d == '\n' then goOn isQuoted [] 1 rest
      else if isQuoted && (!isEscapable d || (d == '"' && extent = .document)) then
        goOn true [.char '\\' true, .char d true] 0 rest
      else goOn isQuoted [.char d true] 0 rest
    | '$', rest => do
      match ← takeExpansion isQuoted rest with
      | some (e, behind) => goOn isQuoted [.expansion e isQuoted] e.lineEnds behind
      | none => goOn isQuoted [.char '$' isQuoted] 0 rest
    | '\x60', rest => do
      let (inner, behind) ← takeBackquoted rest
      goOn isQuoted [.expansion (.command inner) isQuoted] (inner.count '\n') behind
    | c, rest =>
      if isQuoted then goOn true [.char c true] (if c == '\n' then 1 else 0) rest
      else if c == '\'' then
        let inner := rest.takeWhile (· != '\'')
        match rest.dropWhile (· != '\'') with
        | _ :: behind =>
          goOn false (.emptyText :: inner.map (Piece.char · true)) (inner.count '\n') behind
        | [] => .error .openQuote
      else if extent = .word && " \t\n;&|<>()".toList.contains c then .ok ⟨[], 0, c :: rest⟩
      else goOn false [.char c false] 0 rest

/-- All of a text as a word; the flag says whether double quotes are open. -/
def wordOf (extent : Extent) (isQuoted : Bool) (text : List Char) : Except Defect Word :=
  (takeWord extent (text.length + 1) isQuoted text).map TakenWord.word

/-! ### Tokens -/

/-- A token of a command. -/
inductive Token where
  | word (w : Word)
  | operator (text : String)
  | newline
  /-- A redirection of the descriptor with the given number. -/
  | redirect (descriptor : Nat) (operator : String)
  /-- The text of a document that a redirection on an earlier line announced. -/
  | document (w : Word)
  | endOfText
  deriving DecidableEq, Repr

/-- A token, and the line that it begins on. -/
structure PlacedToken where
  token : Token
  line : Nat
  deriving DecidableEq, Repr

/-- The operator in front of a text. -/
def takeOperator? : List Char → Option (String × List Char)
  | '&' :: '&' :: rest => some ("&&", rest)
  | '|' :: '|' :: rest => some ("||", rest)
  | ';' :: ';' :: rest => some (";;", rest)
  | ';' :: rest => some (";", rest)
  | '&' :: rest => some ("&", rest)
  | '|' :: rest => some ("|", rest)
  | '(' :: rest => some ("(", rest)
  | ')' :: rest => some (")", rest)
  | _ => none

/-- The redirection in front of a text. -/
def takeRedirect? (cs : List Char) : Option (Token × List Char) :=
  let (descriptor?, rest) :=
    match cs with
    | d :: rest => if Text.isBasicDigit d then (some (Text.basicDigitValue d), rest) else (none, cs)
    | [] => (none, cs)
  match rest with
  | '>' :: '>' :: rest => some (.redirect (descriptor?.getD 1) ">>", rest)
  | '>' :: '&' :: rest => some (.redirect (descriptor?.getD 1) ">&", rest)
  | '>' :: '|' :: rest => some (.redirect (descriptor?.getD 1) ">", rest)
  | '>' :: rest => some (.redirect (descriptor?.getD 1) ">", rest)
  | '<' :: '<' :: '-' :: rest => some (.redirect (descriptor?.getD 0) "<<-", rest)
  | '<' :: '<' :: rest => some (.redirect (descriptor?.getD 0) "<<", rest)
  | '<' :: '&' :: rest => some (.redirect (descriptor?.getD 0) "<&", rest)
  | '<' :: rest => some (.redirect (descriptor?.getD 0) "<", rest)
  | _ => none

/-- A document that was announced: the line that ends it, whether its text is taken as it is, and
whether tabs in front of its lines are dropped. -/
structure Announcement where
  ending : List Char
  isLiteral : Bool
  isUnindented : Bool

/-- The announcement that a word makes behind a redirection. -/
def Announcement.ofWord (isUnindented : Bool) (w : Word) : Announcement where
  ending := w.filterMap fun
    | .char c _ => some c
    | _ => none
  isLiteral := w.any fun
    | .char _ isQuoted => isQuoted
    | _ => true
  isUnindented := isUnindented

/-- The lines of a document, and what follows the line that ends it; each line uses up fuel. -/
def Announcement.take (a : Announcement) : Nat → List Char → List (List Char) × List Char
  | 0, cs => ([], cs)
  | _, [] => ([], [])
  | fuel + 1, cs =>
    let line := cs.takeWhile (· != '\n')
    let behind := cs.drop (line.length + 1)
    let line := if a.isUnindented then line.dropWhile (· == '\t') else line
    if line == a.ending then ([], behind)
    else
      let (lines, behind) := a.take fuel behind
      (line :: lines, behind)

/-- A text as the word of a document. -/
def Announcement.word (a : Announcement) (text : List Char) : Except Defect Word :=
  if a.isLiteral then .ok (text.map (Piece.char · true)) else wordOf .document true text

/-- The documents that were announced before the end of a line, and what follows them. -/
def takeDocuments : List Announcement → List Char → Except Defect (List Word × List Char)
  | [], cs => .ok ([], cs)
  | a :: announced, cs => do
    let (lines, behind) := a.take (cs.length + 1) cs
    let w ← a.word (lines.flatMap (· ++ ['\n']))
    let (more, behind) ← takeDocuments announced behind
    return (w :: more, behind)

/-- What has been announced on a line so far. -/
structure Announced where
  documents : List Announcement := []
  /-- The next word makes an announcement; the flag says whether of an unindented document. -/
  next : Option Bool := none

/-- What has been announced behind a token. -/
def Announced.behind (a : Announced) : Token → Announced
  | .redirect _ "<<" => { a with next := some false }
  | .redirect _ "<<-" => { a with next := some true }
  | .word w =>
    match a.next with
    | some isUnindented => ⟨a.documents ++ [.ofWord isUnindented w], none⟩
    | none => a
  | _ => { a with next := none }

/-- The tokens of a text, and the defect that they cannot be read past, if there is one, with the
last line that was read. -/
def tokens : Nat → Announced → Nat → List Char → List PlacedToken × Option Defect × Nat
  | 0, _, line, _ => ([], none, line)
  | _, announced, line, [] =>
    (announced.documents.map fun _ => ⟨.document [], line⟩, none, line)
  | fuel + 1, announced, line, c :: rest =>
    let placed (t : Token) (line' : Nat) (rest : List Char) :
        List PlacedToken × Option Defect × Nat :=
      let (more, ending) := tokens fuel (announced.behind t) line' rest
      (⟨t, line⟩ :: more, ending)
    if c == ' ' || c == '\t' then tokens fuel announced line rest
    else if c == '\\' && rest.head? == some '\n' then tokens fuel announced (line + 1) rest.tail
    else if c == '#' then tokens fuel announced line (rest.dropWhile (· != '\n'))
    else if c == '\n' then
      match takeDocuments announced.documents rest with
      | .error defect => ([], some defect, line + rest.count '\n')
      | .ok (documents, behind) =>
        let line' := line + 1 + rest.count '\n' - behind.count '\n'
        let (more, ending) := tokens fuel {} line' behind
        (⟨.newline, line⟩ :: documents.map (⟨.document ·, line⟩) ++ more, ending)
    else
      match takeRedirect? (c :: rest) with
      | some (token, behind) => placed token line behind
      | none =>
        match takeOperator? (c :: rest) with
        | some (op, behind) => placed (.operator op) line behind
        | none =>
          match takeWord .word (fuel + 1) false (c :: rest) with
          | .error defect => ([], some defect, line + rest.count '\n')
          | .ok taken => placed (.word taken.word) (line + taken.lineEnds) taken.behind

/-- Moves documents, in order, to the redirections that announced them. -/
def placeDocuments : List Word → List PlacedToken → List PlacedToken
  | d :: documents, ⟨.redirect descriptor operator, line⟩ :: ⟨.word w, line'⟩ :: ts =>
    if operator.startsWith "<<" then
      ⟨.redirect descriptor operator, line⟩ :: ⟨.word d, line'⟩ :: placeDocuments documents ts
    else ⟨.redirect descriptor operator, line⟩ :: ⟨.word w, line'⟩ ::
      placeDocuments (d :: documents) ts
  | documents, ⟨.document _, _⟩ :: ts => placeDocuments documents ts
  | documents, t :: ts => t :: placeDocuments documents ts
  | _, [] => []

/-- The tokens of a text with the documents in their places. -/
def tokensOf (text : List Char) : List PlacedToken × Option Defect × Nat :=
  let (ts, ending) := tokens (text.length + 1) {} 1 text
  let documents := ts.filterMap fun t =>
    match t.token with
    | .document w => some w
    | _ => none
  (placeDocuments documents ts, ending)

end ModuLang.Host.Shell
