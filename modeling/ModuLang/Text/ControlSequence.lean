import ModuLang.Text.DecimalDigit
import ModuLang.Text.Parsed

/-!
# Control sequences

A terminal takes an escape and an opening bracket, parameters and a letter as a command and not as
text. Such sequences are left out of a report that is not meant to command a terminal. An escape
that begins no whole sequence is text.
-/

namespace ModuLang.Text

/-- The characters between the bracket and the letter of a control sequence. -/
def isSequenceParameter (c : Char) : Bool :=
  c == ';' || c == '?' || isBasicDigit c

/-- A text without its control sequences. -/
def dropControlSequences (cs : List Char) : List Char :=
  match cs with
  | [] => []
  | '\x1b' :: '[' :: rest =>
    match _h : rest.dropWhile isSequenceParameter with
    | c :: behind =>
      if c.isAlpha then dropControlSequences behind
      else '\x1b' :: '[' :: dropControlSequences rest
    | [] => '\x1b' :: '[' :: rest
  | c :: rest => c :: dropControlSequences rest
termination_by cs.length
decreasing_by
  · have hle := length_dropWhile_le isSequenceParameter rest
    rw [_h, List.length_cons] at hle
    simp only [List.length_cons]
    omega
  all_goals
    simp only [List.length_cons]
    omega

/-- A text without its control sequences. -/
def withoutControlSequences (s : String) : String :=
  String.ofList (dropControlSequences s.toList)

end ModuLang.Text
