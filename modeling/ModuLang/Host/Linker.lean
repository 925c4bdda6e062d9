import ModuLang.Host.FileSystem
import ModuLang.Text.Utf8

/-!
# Foreign functions

A linker loads libraries and finds the functions in them. A function gets the number of its
arguments and the arguments, which are texts as octets, and gives a word. What the word says is up
to the caller; where it is an address, there are octets at it.

Which libraries a host has is its own affair: a `Linker` is any answer to that. `Linker.standard` is
a host that has the standard C library with two of its functions.
-/

namespace ModuLang.Host

/-- What a foreign function gave. -/
structure ForeignResult where
  word : UInt64
  /-- The octets at the place that the word points to, up to the first zero. -/
  pointee : List UInt8 := []
  deriving DecidableEq, Repr

/-- The word as a number, which has no sign. -/
def ForeignResult.number (result : ForeignResult) : Int :=
  result.word.toNat

/-- How a host loads libraries and finds the functions in them. -/
structure Linker where
  /-- Why a library cannot be loaded. -/
  defect? : FileSystem → String → Option LibraryDefect
  /-- The function of a name in a library that can be loaded. -/
  symbol? : String → String → Option (List (List UInt8) → ForeignResult)

namespace Linker

/-! ### The standard C library -/

/-- The octets that a library begins with: a mark, the word size, the order of octets, the version
and the system. -/
def libraryMark : List UInt8 :=
  [0x7f, 0x45, 0x4c, 0x46, 2, 1, 1, 0, 0, 0, 0, 0, 0, 0, 0, 0]

/-- The least number of octets in a library. -/
def libraryHeaderSize : Nat := 64

/-- What is wrong with a file that is no library. -/
def headerDefect (content : List UInt8) : LibraryDefect :=
  if content.length < libraryHeaderSize then .tooShort
  else if content.take 4 != libraryMark.take 4 then .notALibrary
  else if content[4]? != some 2 then .wrongClass
  else if content.take 16 != libraryMark then .unopened .missing
  else .wrongVersion

/-- Why there is no library of a name: a name with a slash in it is a path, and any other is looked
for among the libraries of the host. The empty name stands for the program itself. -/
def libraryDefect? (files : FileSystem) (name : String) : Option LibraryDefect :=
  if name.toList.contains '/' then
    match files.find (.verbatim name) with
    | .error kind => some (.unopened kind)
    | .ok .directory => some (.unreadable .isADirectory)
    | .ok (.file content) => some (headerDefect content)
    | .ok (.device _) => some .tooShort
  else if name == "libc.so.6" || name == "" then none
  else if nameLimit < name.utf8ByteSize then some (.unopened .nameTooLong)
  else some (.unopened .missing)

/-- The texts of the first error numbers. -/
def errorTexts : List String :=
  ["Success", "Operation not permitted", "No such file or directory", "No such process",
    "Interrupted system call", "Input/output error", "No such device or address",
    "Argument list too long", "Exec format error", "Bad file descriptor", "No child processes",
    "Resource temporarily unavailable", "Cannot allocate memory", "Permission denied",
    "Bad address", "Block device required", "Device or resource busy", "File exists",
    "Invalid cross-device link", "No such device", "Not a directory", "Is a directory",
    "Invalid argument", "Too many open files in system", "Too many open files",
    "Inappropriate ioctl for device", "Text file busy", "File too large",
    "No space left on device", "Illegal seek", "Read-only file system", "Too many links",
    "Broken pipe", "Numerical argument out of domain", "Numerical result out of range"]

/-- Where the texts of the error numbers are; any address would do. -/
def errorTextAddress : UInt64 := 0x7f0000000000

/-- Finds a function; its name ends before the first null character. The functions see the number of
their arguments only, as the first of what they are given. -/
def symbolOfName? (name : String) : Option (List (List UInt8) → ForeignResult) :=
  match String.ofList (name.toList.takeWhile (· != '\x00')) with
  | "abs" => some fun args => { word := args.length.toUInt64 }
  | "strerror" => some fun args =>
    { word := errorTextAddress
      pointee := Text.encodeUtf8 (errorTexts.getD args.length s!"Unknown error {args.length}") }
  | _ => none

/-- A host that has the standard C library. -/
def standard : Linker where
  defect? := libraryDefect?
  symbol? _ name := symbolOfName? name

end Linker

end ModuLang.Host
