import ModuLang.Error
import ModuLang.Host.Path
import ModuLang.Number.Numeral

/-!
# Settings

What a user may set outside the program: lists of directories and the port of the server.
-/

namespace ModuLang.Host

/-- The directories of a setting, separated by colons; blanks around them do not count. Without the
setting, or with an empty one, they are the given ones. -/
def directoriesOf (setting : Option String) (defaults : List Path) : List Path :=
  match setting with
  | none => defaults
  | some raw =>
    if raw.isEmpty then defaults
    else
      let parts := (Text.splitAt ':' raw.toList).map fun cs => Text.trim (String.ofList cs)
      (parts.filter fun part => !part.isEmpty).map Path.ofString

/-- The port of the server where none is set. -/
def defaultPort : Int := 2424

/-- The four characters that separate records, which count as blanks only in the language itself. -/
def isSeparator (c : Char) : Bool :=
  '\x1c' ≤ c && c ≤ '\x1f'

/-- An integer that the user gave as a text. -/
def readSetting (raw : String) : Except Crash Int :=
  if raw.toList.any isSeparator then .error .unreadableText
  else
    match Number.readInteger raw with
    | .number n => .ok n
    | _ => .error .unreadableText

/-- The port of the server. -/
def serverPort (setting : Option String) : Except Crash Int :=
  match setting with
  | none => .ok defaultPort
  | some raw => if raw.isEmpty then .ok defaultPort else readSetting raw

end ModuLang.Host
