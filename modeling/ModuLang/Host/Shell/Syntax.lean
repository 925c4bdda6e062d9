import ModuLang.Host.Shell.Word

/-!
# Commands of the shell

A command is read from tokens one line at a time, since the shell runs each line before it looks at
the next. Reserved words count only where a command may begin.
-/

namespace ModuLang.Host.Shell

/-- A redirection to what a word names. -/
structure Redirection where
  descriptor : Nat
  operator : String
  target : Word
  deriving DecidableEq, Repr

/-- A command. -/
inductive Command where
  | nothing
  | simple (line : Nat) (words : List Word) (redirections : List Redirection)
  /-- A command in the shell itself, all of which is redirected. -/
  | redirected (line : Nat) (body : Command) (redirections : List Redirection)
  /-- A command whose changes of the shell are forgotten. -/
  | subshell (body : Command)
  /-- A command that is not waited for. -/
  | background (body : Command)
  /-- The second reads what the first writes. -/
  | pipe (first second : Command)
  | negated (body : Command)
  | sequence (first second : Command)
  | onSuccess (first second : Command)
  | onFailure (first second : Command)
  | conditional (test yes no : Command)
  /-- The body is repeated as long as the test succeeds, or else as long as it fails. -/
  | loop (isWhile : Bool) (test body : Command)
  /-- The body is run for every field of the words, or else for every argument of the shell. -/
  | each (name : String) (words : Option (List Word)) (body : Command)
  /-- The first command is run that has a pattern which the subject matches. -/
  | choice (line : Nat) (subject : Word) (branches : List (List Word × Command))
  /-- A name is given to a command. -/
  | define (name : String) (body : Command)
  deriving Repr

/-- A command behind another. -/
def Command.followedBy : Command → Command → Command
  | .nothing, second => second
  | first, second => .sequence first second

/-- An error of the grammar, and the line that it was noticed on. -/
structure SyntaxError where
  line : Nat
  text : String
  deriving DecidableEq, Repr

/-- The tokens that are left, and what stands behind them. -/
structure Input where
  left : List PlacedToken
  defect : Option Defect
  lastLine : Nat

/-- A step that reads from tokens. -/
abbrev Parser (α : Type) := Input → Except SyntaxError (α × Input)

/-- The words that have a meaning of their own where a command may begin. -/
def reservedWords : List String :=
  ["!", "\x7b", "\x7d", "case", "do", "done", "elif", "else", "esac", "fi", "for", "if", "in",
    "then", "until", "while"]

/-- The reserved words that end a list of commands. -/
def endingWords : List String :=
  ["\x7d", "do", "done", "elif", "else", "esac", "fi", "then"]

/-- The reserved word that a token is. -/
def Token.reserved? : Token → Option String
  | .word w => (bareText? w).filter fun text => reservedWords.contains text
  | _ => none

/-- Whether a token is the given operator or reserved word. -/
def Token.spells (t : Token) (text : String) : Bool :=
  t == .operator text || t.reserved? == some text

/-- Whether a token ends a list of commands. -/
def Token.endsList (t : Token) : Bool :=
  t == .operator ")" || t == .operator ";;" || endingWords.any t.spells

/-- How a token is called in an error. -/
def Token.describe (t : Token) : String :=
  match t with
  | .word _ =>
    match t.reserved? with
    | some text => s!"\"{text}\""
    | none => "word"
  | .operator text => s!"\"{text}\""
  | .newline => "newline"
  | .redirect _ _ => "redirection"
  | .document _ => "newline"
  | .endOfText => "end of file"

/-- The next token. -/
def Input.peek (i : Input) : Except SyntaxError PlacedToken :=
  match i.left, i.defect with
  | t :: _, _ => .ok t
  | [], none => .ok ⟨.endOfText, i.lastLine⟩
  | [], some defect => .error ⟨i.lastLine, defect.message⟩

/-- What follows the next token. -/
def Input.next (i : Input) : Input :=
  { i with left := i.left.tail }

/-- What follows the ends of lines. -/
def Input.skipNewlines (i : Input) : Input :=
  { i with left := i.left.dropWhile (·.token == .newline) }

/-- The error of a token that may not stand where it does. -/
def unexpected {α : Type} (t : PlacedToken) : Except SyntaxError α :=
  .error ⟨t.line, s!"{t.token.describe} unexpected"⟩

/-- Uses the next token, which has to be the given operator or reserved word. -/
def expect (text : String) (i : Input) : Except SyntaxError Input := do
  let t ← i.peek
  if t.token.spells text then return i.next
  else .error ⟨t.line, s!"{t.token.describe} unexpected (expecting \"{text}\")"⟩

/-- The redirections behind a command, in order. -/
def redirections : List PlacedToken → List Redirection × List PlacedToken
  | ⟨.redirect descriptor operator, _⟩ :: ⟨.word target, _⟩ :: rest =>
    let (more, behind) := redirections rest
    (⟨descriptor, operator, target⟩ :: more, behind)
  | ts => ([], ts)

/-- The words and redirections of a simple command, and what follows them. -/
def simpleParts : List PlacedToken → List Word × List Redirection × List PlacedToken
  | ⟨.word w, _⟩ :: rest =>
    let (words, rs, behind) := simpleParts rest
    (w :: words, rs, behind)
  | ⟨.redirect descriptor operator, _⟩ :: ⟨.word target, _⟩ :: rest =>
    let (words, rs, behind) := simpleParts rest
    (words, ⟨descriptor, operator, target⟩ :: rs, behind)
  | ts => ([], [], ts)

/-- A simple command. A bracket behind a single word defines a function, whose body `command`
reads. -/
def simple (command : Parser Command) : Parser Command := fun i => do
  let line := (← i.peek).line
  let (words, rs, left) := simpleParts i.left
  let i := { i with left }
  match (← i.peek).token, words with
  | .redirect _ _, _ => unexpected (← i.next.peek)
  | .operator "(", [w] =>
    if !rs.isEmpty then return (.simple line words rs, i)
    else do
      let i ← expect ")" i.next
      match (bareText? w).filter fun name => isName name.toList with
      | none => .error ⟨line, "Bad function name"⟩
      | some name =>
        let (body, i) ← command i.skipNewlines
        return (.define name body, i)
  | _, _ => return (.simple line words rs, i)

/-- A compound command up to its last word, with the redirections that follow it. -/
def closed (last : String) (body : Command) (i : Input) :
    Except SyntaxError (Command × Input) := do
  let line := (← i.peek).line
  let i ← expect last i
  let (rs, left) := redirections i.left
  return (if rs.isEmpty then body else .redirected line body rs, { i with left })

/-- The part of a conditional behind its test: each further test uses up fuel. -/
def branches (list : Parser Command) (test : Command) : Nat → Parser Command
  | 0, i => .ok (.nothing, i)
  | fuel + 1, i => do
    let i ← expect "then" i
    let (yes, i) ← list i
    let t := (← i.peek).token
    if t.spells "elif" then do
      let (test', i) ← list i.next
      let (no, i) ← branches list test' fuel i
      return (.conditional test yes no, i)
    else if t.spells "else" then do
      let (no, i) ← list i.next
      return (.conditional test yes no, i)
    else return (.conditional test yes .nothing, i)

/-- The words of a `for`, and what follows them. -/
def wordsOf : List PlacedToken → List Word × List PlacedToken
  | ⟨.word w, _⟩ :: rest =>
    let (more, behind) := wordsOf rest
    (w :: more, behind)
  | ts => ([], ts)

/-- A loop over words, behind its first word. -/
def forLoop (list : Parser Command) : Parser Command := fun i => do
  let t ← i.peek
  let badName : Except SyntaxError (Command × Input) := .error ⟨t.line, "Bad for loop variable"⟩
  match t.token with
  | .word w =>
    match bareText? w with
    | none => badName
    | some name =>
      if !isName name.toList then badName
      else do
        let i := i.next.skipNewlines
        if (← i.peek).token.spells "in" then do
          let (words, left) := wordsOf i.next.left
          let i := { i with left }
          let t ← i.peek
          if t.token == .newline || t.token == .operator ";" then do
            let i ← expect "do" i.next.skipNewlines
            let (body, i) ← list i
            closed "done" (.each name (some words) body) i
          else unexpected t
        else do
          let i := if (← i.peek).token == .operator ";" then i.next else i
          let i ← expect "do" i.skipNewlines
          let (body, i) ← list i
          closed "done" (.each name none body) i
  | _ => badName

/-- The patterns of a branch up to the bracket behind them; each uses up fuel. -/
def patterns : Nat → Parser (List Word)
  | 0, i => .ok ([], i)
  | fuel + 1, i => do
    let t ← i.peek
    match t.token with
    | .word w =>
      let i := i.next
      if (← i.peek).token == .operator "|" then do
        let (more, i) ← patterns fuel i.next
        return (w :: more, i)
      else return ([w], ← expect ")" i)
    | .endOfText => return ([], ← expect ")" i)
    | _ => unexpected t

/-- The branches of a choice behind those that were read; each uses up fuel. The last may do without
the mark that ends a branch. -/
def choices (list : Parser Command) : Nat → Parser (List (List Word × Command))
  | 0, i => .ok ([], i)
  | fuel + 1, i => do
    let i := i.skipNewlines
    if (← i.peek).token.spells "esac" then return ([], i)
    else do
      let (ps, i) ← patterns (i.left.length + 1)
        (if (← i.peek).token == .operator "(" then i.next else i)
      let i := i.skipNewlines
      let t := (← i.peek).token
      let (body, i) ← if t == .operator ";;" || t.spells "esac" then .ok (.nothing, i) else list i
      if (← i.peek).token == .operator ";;" then do
        let (more, i) ← choices list fuel i.next
        return ((ps, body) :: more, i)
      else if (← i.peek).token.spells "esac" then return ([(ps, body)], i)
      else do
        let i ← expect ";;" i
        return ([(ps, body)], i)

/-- A choice by patterns, behind its first word. -/
def caseChoice (list : Parser Command) : Parser Command := fun i => do
  let t ← i.peek
  match t.token with
  | .word subject =>
    let i ← expect "in" i.next.skipNewlines
    let (branches, i) ← choices list (i.left.length + 1) i
    closed "esac" (.choice t.line subject branches) i
  | _ => .error ⟨t.line, s!"{t.token.describe} unexpected (expecting word)"⟩

/-- A command of a pipeline; a function around another uses up fuel. -/
def commandWithin (list : Parser Command) : Nat → Parser Command
  | 0, i => .ok (.nothing, i)
  | fuel + 1, i => do
    let t ← i.peek
    match t.token with
    | .operator "(" => do
      let (body, i) ← list i.next
      closed ")" (.subshell body) i
    | .redirect _ _ => simple (commandWithin list fuel) i
    | .word _ =>
      match t.token.reserved? with
      | none => simple (commandWithin list fuel) i
      | some "\x7b" => do
        let (body, i) ← list i.next
        closed "\x7d" body i
      | some "if" => do
        let (test, i) ← list i.next
        let (body, i) ← branches list test (i.left.length + 1) i
        closed "fi" body i
      | some "for" => forLoop list i.next
      | some "case" => caseChoice list i.next
      | some word =>
        if word = "while" || word = "until" then do
          let (test, i) ← list i.next
          let i ← expect "do" i
          let (body, i) ← list i
          closed "done" (.loop (word = "while") test body) i
        else unexpected t
    | _ => unexpected t

/-- A command of a pipeline. -/
def command (list : Parser Command) : Parser Command := fun i =>
  commandWithin list (i.left.length + 1) i

/-- Commands that are piped into each other; each uses up fuel. -/
def piped (list : Parser Command) : Nat → Command → Parser Command
  | 0, first, i => .ok (first, i)
  | fuel + 1, first, i => do
    if (← i.peek).token == .operator "|" then do
      let (second, i) ← command list i.next.skipNewlines
      piped list fuel (.pipe first second) i
    else return (first, i)

/-- A pipeline, perhaps negated. -/
def pipeline (list : Parser Command) : Parser Command := fun i => do
  let isNegated := (← i.peek).token.spells "!"
  let (first, i) ← command list (if isNegated then i.next else i)
  let (all, i) ← piped list (i.left.length + 1) first i
  return (if isNegated then .negated all else all, i)

/-- Pipelines that hang on each other; each uses up fuel. -/
def linked (list : Parser Command) : Nat → Command → Parser Command
  | 0, first, i => .ok (first, i)
  | fuel + 1, first, i => do
    let t := (← i.peek).token
    if t == .operator "&&" || t == .operator "||" then do
      let (second, i) ← pipeline list i.next.skipNewlines
      linked list fuel (if t == .operator "&&" then .onSuccess first second
        else .onFailure first second) i
    else return (first, i)

/-- The commands of a list behind those that were read; each uses up fuel. A line of its own ends at
a newline, and a list inside another command at a word that ends lists. -/
def items (isLine : Bool) (list : Parser Command) : Nat → Bool → Command → Parser Command
  | 0, _, before, i => .ok (before, i)
  | fuel + 1, isFirst, before, i => do
    let i := if isLine then i else i.skipNewlines
    let t := (← i.peek).token
    if t == .newline then return (before, i.next)
    else if t == .endOfText || (!isLine && !isFirst && t.endsList) then return (before, i)
    else do
      let (first, i) ← pipeline list i
      let (all, i) ← linked list (i.left.length + 1) first i
      let t ← i.peek
      let isBackground := t.token == .operator "&"
      let before := before.followedBy (if isBackground then .background all else all)
      if isBackground || t.token == .operator ";" then items isLine list fuel false before i.next
      else if t.token == .newline || t.token == .endOfText then
        items isLine list fuel false before i
      else if isLine then unexpected t
      else return (before, i)

/-- A list inside another command; each level uses up fuel. -/
def innerList : Nat → Parser Command
  | 0, i => .ok (.nothing, i)
  | fuel + 1, i => items false (innerList fuel) (i.left.length + 1) true .nothing i

/-- The commands of a line. -/
def commandLine : Parser Command := fun i =>
  items true (innerList (i.left.length + 1)) (i.left.length + 1) true .nothing i

end ModuLang.Host.Shell
