/-!
# Lines

Text that comes from a file, a command or the standard input may end its lines in three ways;
`normalizeNewlines` makes them one. Program text is cut into lines at line feeds alone.
-/

namespace ModuLang.Text

/-- A carriage return, with the line feed behind it if there is one, becomes a line feed. -/
def normalizeNewlines : List Char → List Char
  | [] => []
  | '\r' :: '\n' :: cs => '\n' :: normalizeNewlines cs
  | c :: cs => (if c == '\r' then '\n' else c) :: normalizeNewlines cs

/-- The pieces between the occurrences of a separator; there is one more of them than of these. -/
def splitAt {α : Type} [BEq α] (separator : α) : List α → List (List α)
  | [] => [[]]
  | c :: cs =>
    match splitAt separator cs with
    | [] => [[c]]
    | piece :: pieces => if c == separator then [] :: piece :: pieces else (c :: piece) :: pieces

/-- The pieces between line feeds. -/
def lines (cs : List Char) : List (List Char) :=
  splitAt '\n' cs

/-- The first line with its line feed, and what follows it. -/
def takeLine : List Char → List Char × List Char
  | [] => ([], [])
  | c :: cs =>
    if c == '\n' then ([c], cs)
    else ((c :: (takeLine cs).1), (takeLine cs).2)

end ModuLang.Text
