import ModuLang.Host.Shell.Word

/-!
# Patterns of the shell

A pattern is matched against file names, against the subject of a choice, and against the ends of a
value. Only characters outside quotes have a meaning of their own in it.
-/

namespace ModuLang.Host.Shell

/-- A character of an expanded word, and whether it was quoted. -/
abbrev FieldChar := Char × Bool

/-- A part of a pattern. -/
inductive Wildcard where
  | exactly (c : Char)
  /-- Any character. -/
  | one
  /-- Any characters. -/
  | many
  /-- A character that lies in one of the ranges, or else in none of them. -/
  | among (isNegated : Bool) (ranges : List (Char × Char))
  deriving DecidableEq, Repr

/-- A pattern. -/
abbrev Pattern := List Wildcard

/-- The ranges up to the bracket that closes them, and what follows it. A closing bracket in front
is a character like others. -/
def takeRanges : Bool → List FieldChar → Option (List (Char × Char) × List FieldChar)
  | isFirst, (c, isQuoted) :: rest =>
    if c == ']' && !isQuoted && !isFirst then some ([], rest)
    else
      match rest with
      | ('-', false) :: (d, isQuoted') :: rest =>
        if d == ']' && !isQuoted' then some ([(c, c), ('-', '-')], rest)
        else (takeRanges false rest).map fun (ranges, behind) => ((c, d) :: ranges, behind)
      | rest => (takeRanges false rest).map fun (ranges, behind) => ((c, c) :: ranges, behind)
  | _, [] => none

/-- The pattern that expanded characters spell; each part uses up fuel. -/
def patternParts : Nat → List FieldChar → Pattern
  | 0, _ | _, [] => []
  | fuel + 1, ('*', false) :: rest => .many :: patternParts fuel rest
  | fuel + 1, ('?', false) :: rest => .one :: patternParts fuel rest
  | fuel + 1, ('[', false) :: rest =>
    let (isNegated, inner) :=
      match rest with
      | ('!', false) :: inner => (true, inner)
      | ('^', false) :: inner => (true, inner)
      | inner => (false, inner)
    match takeRanges true inner with
    | some (ranges, behind) => .among isNegated ranges :: patternParts fuel behind
    | none => .exactly '[' :: patternParts fuel rest
  | fuel + 1, (c, _) :: rest => .exactly c :: patternParts fuel rest

/-- The pattern that expanded characters spell. -/
def Pattern.ofField (field : List FieldChar) : Pattern :=
  patternParts (field.length + 1) field

/-- Whether a part of a pattern matches other characters than one. -/
def Wildcard.isWild : Wildcard → Bool
  | .exactly _ => false
  | _ => true

/-- Whether a text matches a pattern as a whole. -/
def Pattern.accepts (p : Pattern) (cs : List Char) : Bool :=
  match p, cs with
  | [], cs => cs.isEmpty
  | .many :: p, [] => accepts p []
  | .many :: p, c :: cs => accepts p (c :: cs) || accepts (.many :: p) cs
  | _ :: _, [] => false
  | .exactly d :: p, c :: cs => d == c && accepts p cs
  | .one :: p, _ :: cs => accepts p cs
  | .among isNegated ranges :: p, c :: cs =>
    (ranges.any fun (low, high) => low ≤ c && c ≤ high) != isNegated && accepts p cs
termination_by p.length + cs.length

/-- What is left of a text without the part at its front that matches: the longest such part or the
shortest. -/
def Pattern.trimFront (p : Pattern) (isLongest : Bool) (cs : List Char) : List Char :=
  let sizes := List.range (cs.length + 1)
  match (if isLongest then sizes.reverse else sizes).find? fun n => p.accepts (cs.take n) with
  | some n => cs.drop n
  | none => cs

/-- What is left of a text without the part at its back that matches. -/
def Pattern.trimBack (p : Pattern) (isLongest : Bool) (cs : List Char) : List Char :=
  let sizes := List.range (cs.length + 1)
  match (if isLongest then sizes else sizes.reverse).find? fun n => p.accepts (cs.drop n) with
  | some n => cs.take n
  | none => cs

end ModuLang.Host.Shell
