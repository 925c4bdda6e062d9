/-!
# String literals

A string literal stands between double quotes. Behind a backslash, five characters have a meaning of
their own; any other backslash stands for itself.
-/

namespace ModuLang.Source

/-- The character that a backslash and the given character stand for. -/
def escapeMeaning? : Char → Option Char
  | 't' => some '\t'
  | 'n' => some '\n'
  | 'r' => some '\r'
  | '"' => some '"'
  | '\\' => some '\\'
  | _ => none

/-- Resolves the escapes of a literal's body. -/
def unescape : List Char → List Char
  | [] => []
  | [c] => [c]
  | c :: d :: cs =>
    if c = '\\' then
      match escapeMeaning? d with
      | some meaning => meaning :: unescape cs
      | none => c :: unescape (d :: cs)
    else c :: unescape (d :: cs)

/-- The text between the quotes; a text that is not between quotes is its own. -/
def stripQuotes (cs : List Char) : List Char :=
  match cs with
  | '"' :: rest => if rest.getLast? = some '"' then rest.dropLast else cs
  | _ => cs

/-- The text that a literal stands for. -/
def unquote (raw : String) : String :=
  String.ofList (unescape (stripQuotes raw.toList))

end ModuLang.Source
