/-!
# Tokens

A token is a piece of program text with its kind and its line. The end of each line is a token too,
since it may end a statement.
-/

namespace ModuLang.Source

/-- The kinds of tokens. -/
inductive TokenKind where
  | letWord
  | fnWord
  | importWord
  | returnWord
  | asWord
  | ifWord
  | boolean
  | float
  | number
  | string
  | identifier
  | equal
  | unequal
  | assign
  | plus
  | minus
  | star
  | dot
  | comma
  | semicolon
  | colon
  | leftParen
  | rightParen
  | leftBrace
  | rightBrace
  | newline
  | endOfText
  deriving DecidableEq, Repr

/-- The name of a kind of token. -/
def TokenKind.name : TokenKind → String
  | .letWord => "let"
  | .fnWord => "fn"
  | .importWord => "import"
  | .returnWord => "return"
  | .asWord => "as"
  | .ifWord => "if"
  | .boolean => "boolean"
  | .float => "float"
  | .number => "number"
  | .string => "string"
  | .identifier => "identifier"
  | .equal => "eq"
  | .unequal => "neq"
  | .assign => "assign"
  | .plus => "plus"
  | .minus => "minus"
  | .star => "star"
  | .dot => "dot"
  | .comma => "comma"
  | .semicolon => "semicolon"
  | .colon => "colon"
  | .leftParen => "lparen"
  | .rightParen => "rparen"
  | .leftBrace => "lbrace"
  | .rightBrace => "rbrace"
  | .newline => "newline"
  | .endOfText => "eof"

/-- A token. -/
structure Token where
  kind : TokenKind
  text : String
  line : Int
  deriving DecidableEq, Repr

/-- The kind of a word: a reserved one has its own. -/
def wordKind (word : String) : TokenKind :=
  if word = "let" then .letWord
  else if word = "fn" then .fnWord
  else if word = "import" then .importWord
  else if word = "return" then .returnWord
  else if word = "as" then .asWord
  else if word = "if" then .ifWord
  else if word = "true" || word = "false" then .boolean
  else .identifier

/-- A token as an error message shows it. -/
def Token.describe (t : Token) : String :=
  match t.kind with
  | .endOfText => "end of input"
  | .newline => "end of line"
  | _ => s!"'{t.text}'"

end ModuLang.Source
