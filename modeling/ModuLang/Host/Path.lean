import ModuLang.Text.Lines

/-!
# Paths

A path is a root and the names below it. Reading one from text drops empty names and single dots, so
different texts may be one path; two dots are kept, since what they mean depends on the file system.
-/

namespace ModuLang.Host

/-- A path: its root, which is empty for a relative one, and the names below. -/
structure Path where
  root : String := ""
  parts : List String := []
  deriving DecidableEq, Repr

namespace Path

/-- The root of a path text: two leading slashes, and not three, are a root of their own. -/
def rootOf : List Char → String
  | '/' :: '/' :: '/' :: _ => "/"
  | '/' :: '/' :: _ => "//"
  | '/' :: _ => "/"
  | _ => ""

/-- Reads a path. -/
def ofString (s : String) : Path where
  root := rootOf s.toList
  parts := ((Text.splitAt '/' s.toList).map String.ofList).filter fun part =>
    part != "" && part != "."

/-- A path as it is written: empty names and single dots stay, since each of them asks for a
directory. -/
def verbatim (s : String) : Path :=
  match s.toList with
  | '/' :: cs => ⟨"/", (Text.splitAt '/' cs).map String.ofList⟩
  | cs => ⟨"", (Text.splitAt '/' cs).map String.ofList⟩

/-- The text of a path. -/
def text (p : Path) : String :=
  if p.root.isEmpty && p.parts.isEmpty then "." else p.root ++ "/".intercalate p.parts

/-- Whether a path starts from the root. -/
def isAbsolute (p : Path) : Bool :=
  !p.root.isEmpty

/-- A path seen from another; an absolute one stays what it is. -/
def join (p q : Path) : Path :=
  if q.isAbsolute then q else { p with parts := p.parts ++ q.parts }

/-- The path without its last name. -/
def parent (p : Path) : Path :=
  { p with parts := p.parts.dropLast }

/-- The last name. -/
def name (p : Path) : String :=
  p.parts.getLast?.getD ""

/-- The last name without its extension, which is what follows the last dot, unless that dot is at
either end. -/
def stem (p : Path) : String :=
  let cs := p.name.toList.reverse
  let extension := cs.takeWhile (· != '.')
  match cs.dropWhile (· != '.') with
  | '.' :: stem => if extension.isEmpty || stem.isEmpty then p.name else String.ofList stem.reverse
  | _ => p.name

/-- The path from the root, seen from a working directory, with two dots undone. -/
def resolve (p : Path) (workingDirectory : List String) : Path where
  root := "/"
  parts := p.parts.foldl (fun place part => if part = ".." then place.dropLast else place ++ [part])
    (if p.isAbsolute then [] else workingDirectory)

end Path

end ModuLang.Host
