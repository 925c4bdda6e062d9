import ModuLang.Error
import ModuLang.Text.Blank
import ModuLang.Text.Lines

/-!
# Error reports

The report of an error that the front ends show: its message, the file, the line, and the text of
that line where it is known.
-/

namespace ModuLang

/-- The text of a line, counted from one, without blank ends. -/
def lineText? (source : String) (line : Int) : Option String :=
  if 0 < line then
    ((Text.lines source.toList)[line.toNat - 1]?).map fun cs => String.ofList (Text.trimChars cs)
  else none

/-- The report of an error with the given message at a line of a file, whose text may be known. -/
def report (message : String) (line : Int) (filename : String) (source : Option String) : String :=
  let head := [s!"⚠️  {message}", "Traceback (most recent call last):",
    s!"    File \"{filename}\", line {line}"]
  let shown := source.bind (lineText? · line)
  "\n".intercalate (head ++ (shown.map fun text => s!"      {text}").toList)

/-- The report of an error. -/
def Fault.report (f : Fault) (filename : String) (source : Option String) : String :=
  ModuLang.report f.cause.message f.line filename source

end ModuLang
