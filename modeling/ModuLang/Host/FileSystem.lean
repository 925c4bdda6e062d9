import ModuLang.Error
import ModuLang.Host.Path

/-!
# The file system

A file system holds files, directories and devices by the names that lead to them from the root, and
has a working directory, which relative paths start from. A path is walked name by name, and the
first name that cannot be passed decides the error.

Each place has one entry and each entry one place: there are no symbolic links and no second names
for a file. Nor are there permissions, so everything that is there can be read and written.
-/

namespace ModuLang.Host

/-- The devices that can be read and written like files; they hold nothing. -/
inductive Device where
  /-- What is written to it is forgotten. -/
  | null
  /-- Nothing can be written to it. -/
  | full
  deriving DecidableEq, Repr

/-- What a path may lead to. -/
inductive Entry where
  | file (content : List UInt8)
  | directory
  | device (device : Device)
  deriving DecidableEq, Repr

/-- The entries by their names from the root, and the working directory. -/
structure FileSystem where
  entries : List (List String × Entry) := []
  workingDirectory : List String := []

instance : Inhabited FileSystem := ⟨{}⟩

/-- The greatest number of octets in a name. -/
def nameLimit : Nat := 255

/-- The number of octets that a path must stay below. -/
def pathLimit : Nat := 4096

namespace FileSystem

/-- The entry at a place; the root is a directory. -/
def lookup (fs : FileSystem) (place : List String) : Option Entry :=
  if place.isEmpty then some .directory else fs.entries.lookup place

/-- Puts an entry into a list: in its old place, or else at the end. -/
def putEntry (place : List String) (entry : Entry) :
    List (List String × Entry) → List (List String × Entry)
  | [] => [(place, entry)]
  | (p, e) :: rest => if p = place then (p, entry) :: rest else (p, e) :: putEntry place entry rest

/-- Puts an entry at a place. -/
def put (fs : FileSystem) (place : List String) (entry : Entry) : FileSystem :=
  { fs with entries := putEntry place entry fs.entries }

/-- Removes the entry at a place. -/
def remove (fs : FileSystem) (place : List String) : FileSystem :=
  { fs with entries := fs.entries.filter fun e => e.1 != place }

/-- Makes the directories that lead to a place, and the one at it. -/
def makeDirectories (fs : FileSystem) (place : List String) : FileSystem :=
  (List.range place.length).foldl (fun fs i =>
    let above := place.take (i + 1)
    if (fs.lookup above).isSome then fs else fs.put above .directory) fs

/-- The directories at the root of a host. -/
def rootDirectories : List String :=
  ["bin", "dev", "etc", "home", "lib", "opt", "proc", "root", "run", "sys", "tmp", "usr", "var"]

/-- The file system of a host with nothing in its working directory. -/
def host (workingDirectory : List String) : FileSystem :=
  let devices := [(["dev", "null"], Entry.device .null), (["dev", "full"], .device .full)]
  let entries := rootDirectories.map (fun name => ([name], Entry.directory)) ++ devices
  makeDirectories { entries, workingDirectory } workingDirectory

/-- The place that a name leads to from a directory. -/
def step (place : List String) (name : String) : List String :=
  if name = ".." then place.dropLast
  else if name = "" || name = "." then place
  else place ++ [name]

/-- Walks from a place along some names; all but the last have to be directories. -/
def walk (fs : FileSystem) (place : List String) :
    List String → Except OsErrorKind (List String)
  | [] => .ok place
  | name :: names =>
    match fs.lookup place with
    | none => .error .missing
    | some .directory =>
      if nameLimit < name.utf8ByteSize then .error .nameTooLong else fs.walk (step place name) names
    | some _ => .error .notADirectory

/-- The place that a path leads to; a path without text leads nowhere. -/
def locate (fs : FileSystem) (p : Path) : Except OsErrorKind (List String) :=
  if p.text.isEmpty then .error .missing
  else if pathLimit ≤ p.text.utf8ByteSize then .error .nameTooLong
  else fs.walk (if p.isAbsolute then [] else fs.workingDirectory) p.parts

/-- Names the path in an error. -/
def blame {α : Type} (p : Path) : Except OsErrorKind α → Except OsError α
  | .ok a => .ok a
  | .error kind => .error ⟨kind, some p.text⟩

/-- The entry that a path leads to. -/
def find (fs : FileSystem) (p : Path) : Except OsErrorKind Entry := do
  match fs.lookup (← fs.locate p) with
  | none => .error .missing
  | some entry => .ok entry

/-- The content of a file. -/
def read (fs : FileSystem) (p : Path) : Except OsError (List UInt8) :=
  blame p do
    match ← fs.find p with
    | .directory => .error .isADirectory
    | .file content => .ok content
    | .device _ => .ok []

/-- Opens a file for writing: the place that it is at, or will be. -/
def openForWriting (fs : FileSystem) (p : Path) : Except OsError (List String) :=
  blame p do
    let place ← fs.locate p
    match fs.lookup place with
    | some .directory => .error .isADirectory
    | _ => .ok place

/-- The content of the file at a place, which is empty if there is none. -/
def contentAt (fs : FileSystem) (place : List String) : List UInt8 :=
  match fs.lookup place with
  | some (.file content) => content
  | _ => []

/-- Gives the file at a place its content; a device keeps nothing of it. -/
def store (fs : FileSystem) (place : List String) (content : List UInt8) :
    Except OsError FileSystem :=
  match fs.lookup place with
  | some (.device .null) => .ok fs
  | some (.device .full) => if content.isEmpty then .ok fs else .error ⟨.noSpace, none⟩
  | _ => .ok (fs.put place (.file content))

/-- The names in a directory, in increasing order. -/
def children (fs : FileSystem) (place : List String) : List String :=
  (fs.entries.filterMap fun (p, _) => if p.dropLast = place then p.getLast? else none).mergeSort
    (· ≤ ·)

/-- Removes the entry at a place and all below it. -/
def removeAll (fs : FileSystem) (place : List String) : FileSystem :=
  { fs with entries := fs.entries.filter fun e => !place.isPrefixOf e.1 }

/-- Whether a path leads to a file. -/
def isFile (fs : FileSystem) (p : Path) : Bool :=
  match fs.find p with
  | .ok (.file _) => true
  | _ => false

/-- The files below the working directory that are new or changed since an earlier state, by their
path from there. -/
def changesSince (before after : FileSystem) : List (String × List UInt8) :=
  let base := after.workingDirectory
  after.entries.filterMap fun (place, entry) =>
    match entry with
    | .file content =>
      if !base.isPrefixOf place || before.lookup place == some entry then none
      else some ("/".intercalate (place.drop base.length), content)
    | _ => none

end FileSystem

end ModuLang.Host
