import ModuLang.Machine

/-!
# The packages `file` and `os`

Whole files are read and written as text, and commands are run for what they print. Text that comes
in has its line ends made one. A file is opened, and emptied, before what is to be written is looked
at, so a value that cannot be shown leaves an empty file.
-/

namespace ModuLang.Library

open Eval Host

/-- Whether a text can be handed to the host at all. -/
def isHostText (s : String) : Bool :=
  !s.toList.contains '\x00'

/-- The text of octets, with its line ends made one. -/
def decodeText (bytes : List UInt8) : Except Text.Utf8Defect String :=
  (Text.decodeUtf8 bytes).map fun s => String.ofList (Text.normalizeNewlines s.toList)

/-- The path that a value names. -/
def pathOf (function : String) (v : Value) : Eval Path :=
  match v with
  | .str s => if isHostText s then return Path.ofString s else crash .unreadableText
  | _ => fail (.pathNotText function)

/-- Reports an error of the operating system. -/
def orBlame {α : Type} : Except OsError α → Eval α
  | .ok a => pure a
  | .error e => fail (.fileRefused e)

/-- The text of a file. -/
def readFile (path : Value) : Eval Value := do
  let p ← pathOf "read" path
  let bytes ← orBlame ((← world).files.read p)
  match decodeText bytes with
  | .ok s => return .str s
  | .error _ => crash .undecodable

/-- Writes the display form of a value to a file, behind what is there if `isAppended`. -/
def writeFile (function : String) (isAppended : Bool) (path content : Value) : Eval Value := do
  let p ← pathOf function path
  let w ← world
  let place ← orBlame (w.files.openForWriting p)
  let kept := if isAppended then w.files.contentAt place else []
  let opened ← orBlame (w.files.store place kept)
  setWorld { w with files := opened }
  let text ← display content
  let written ← orBlame (opened.store place (kept ++ Text.encodeUtf8 text))
  setWorld { w with files := written }
  return .null

/-- Applies a function of the package `file`. -/
def applyFile (f : FileFunction) (args : List Value) : Eval Value :=
  match f, args with
  | .read, [path] => readFile path
  | .write, [path, content] => writeFile "write" false path content
  | .writeAppend, [path, content] => writeFile "write_append" true path content
  | _, _ => return .null

/-- Runs a command and gives what it printed, without blank ends. -/
def execute (v : Value) : Eval Value := do
  match v with
  | .str command =>
    if !isHostText command then crash .unreadableText
    else if Shell.lengthLimit ≤ command.utf8ByteSize then fail .commandTooLong
    else
      let w ← world
      let result := w.shell w.files command
      setWorld (w.adopt result.files)
      match decodeText result.output, decodeText result.errors with
      | .ok output, .ok errors =>
        if result.status = 0 then return .str (Text.trim output)
        else fail (.commandFailed result.status (Text.trim errors))
      | _, _ => crash .undecodable
  | _ => fail .commandNotText

end ModuLang.Library
