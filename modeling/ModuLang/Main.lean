import ModuLang.CommandLine
import Std.Time.DateTime.Timestamp

/-!
# The program

The outermost layer: it takes the world from the host, hands it to the command line, and brings what
has changed back to the host. The files are those below the working directory and, for a file
elsewhere, those next to it.
-/

namespace ModuLang.Main

open Host

/-- Adds what a directory entry leads to. -/
partial def addEntry (directory : List String) (fs : FileSystem) (entry : IO.FS.DirEntry) :
    IO FileSystem := do
  let place := directory ++ [entry.fileName]
  if ← entry.path.isDir then
    (← entry.path.readDir).foldlM (addEntry place) (fs.put place .directory)
  else
    return fs.put place (.file (← IO.FS.readBinFile entry.path).toList)

/-- The files below the working directory. -/
def takeFiles : IO FileSystem := do
  let directory ← IO.currentDir
  let place := (Path.ofString directory.toString).parts
  (← directory.readDir).foldlM (addEntry place) (FileSystem.host place)

/-- Adds a file that is not below the working directory, with those next to it. -/
def addScript (fs : FileSystem) (file : String) : IO FileSystem := do
  let place := ((Path.ofString file).resolve fs.workingDirectory).parts.dropLast
  if fs.workingDirectory.isPrefixOf place then return fs
  else
    match (← (IO.FS.realPath file)).parent with
    | none => return fs
    | some directory =>
      (← directory.readDir).foldlM (addEntry place) (fs.makeDirectories place)

/-- The files that a command may use. -/
def filesFor (args : List String) : IO FileSystem := do
  let fs ← takeFiles
  match CommandLine.invocation? args with
  | some ⟨_, .run file _⟩ => addScript fs file
  | _ => return fs

/-- The world of the host. -/
def takeWorld (args : List String) : IO World := do
  let stdin ← IO.getStdin
  let isInteractive := CommandLine.invocation? args |>.any (·.command == .repl)
  let input ← if (← stdin.isTty) && !isInteractive then pure "" else stdin.readToEnd
  return {
    files := ← filesFor args
    input := input.toList
    searchPath := ← IO.getEnv "MODU_PATH"
    clock := (← Std.Time.Timestamp.now).toSecondsSinceUnixEpoch.val
    seed := (← IO.rand 0 0x4000000000000000).toUInt64 }

/-- Brings changed files back to the host. -/
def writeBack (before after : FileSystem) : IO Unit := do
  for (path, content) in FileSystem.changesSince before after do
    IO.FS.writeBinFile path (ByteArray.mk content.toArray)

end ModuLang.Main

open ModuLang in
/-- Runs the command that the arguments ask for. -/
def main (args : List String) : IO UInt32 := do
  match CommandLine.invocation? args with
  | none =>
    IO.eprintln "Usage: modu [-v] (run FILE | repl)"
    return 2
  | some ⟨_, .serve _⟩ =>
    IO.eprintln "This build has no network; requests can be answered through the library."
    return 1
  | some _ =>
    let world ← Main.takeWorld args
    let ending := CommandLine.run world args
    IO.print ending.world.output
    Main.writeBack world.files ending.world.files
    if ending.crash.isSome then IO.eprintln "The host cannot carry this program further."
    return ending.status.toUInt32
