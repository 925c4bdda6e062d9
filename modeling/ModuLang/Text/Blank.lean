/-!
# Blank characters

The white space of the language's text functions: trimming, numerals and the extent of an
unrecognised run in a lexical error. It is the set of characters that Unicode calls white space or
separators of paragraphs, segments and lines, so it also holds the four information separators
`U+001C` to `U+001F`, which core's `Char.isWhitespace` does not count.
-/

namespace ModuLang.Text

/-- Whether a character is blank. -/
def isBlank (c : Char) : Bool :=
  let n := c.toNat
  (9 ≤ n && n ≤ 13) || (28 ≤ n && n ≤ 32) || n == 0x85 || n == 0xA0 || n == 0x1680 ||
    (0x2000 ≤ n && n ≤ 0x200A) || n == 0x2028 || n == 0x2029 || n == 0x202F || n == 0x205F ||
    n == 0x3000

/-- A list of characters without its blank ends. -/
def trimChars (cs : List Char) : List Char :=
  ((cs.dropWhile isBlank).reverse.dropWhile isBlank).reverse

/-- A text without its blank ends. -/
def trim (s : String) : String :=
  String.ofList (trimChars s.toList)

end ModuLang.Text
