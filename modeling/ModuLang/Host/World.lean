import ModuLang.Host.Linker
import ModuLang.Host.Shell
import ModuLang.Text.Lines

/-!
# The world around a program

What a program can read from and write to: files, the standard input and output, the list of
directories to import from, the clock, and a source of random bits. It is a value; an effect is a
change of it.

Three parts of a host do as they like, and a world has them as functions: its source of random bits,
its command shell and its linker. Nothing is taken for granted about them. The ones that a world has
unless it says otherwise are those of a plain host.
-/

namespace ModuLang.Host

/-- Counts with a large odd step and mixes the bits of the count. -/
def mixedCounter (seed : UInt64) : UInt64 × UInt64 :=
  let seed := seed + 0x9E3779B97F4A7C15
  let a := (seed ^^^ (seed >>> 30)) * 0xBF58476D1CE4E5B9
  let b := (a ^^^ (a >>> 27)) * 0x94D049BB133111EB
  (b ^^^ (b >>> 31), seed)

/-- Everything outside the program. -/
structure World where
  files : FileSystem := {}
  /-- What the standard input still holds. -/
  input : List Char := []
  /-- What was written to the standard output. -/
  output : String := ""
  /-- The directories to import from, as the user gave them. -/
  searchPath : Option String := none
  /-- Seconds since the beginning of 1970. -/
  clock : Int := 0
  /-- The state of the random source. -/
  seed : UInt64 := 0
  /-- The random source: it gives 64 bits and its next state. -/
  random : UInt64 → UInt64 × UInt64 := mixedCounter
  /-- The command shell: it gives what a command leaves behind. -/
  shell : FileSystem → String → Shell.Result := Shell.run
  /-- The linker, which finds foreign functions. -/
  linker : Linker := .standard

instance : Inhabited World := ⟨{}⟩

namespace World

/-- Writes to the standard output. -/
def write (w : World) (s : String) : World :=
  { w with output := w.output ++ s }

/-- Reads a line of the standard input, with its end. -/
def readLine (w : World) : String × World :=
  let (line, rest) := Text.takeLine w.input
  (String.ofList line, { w with input := rest })

/-- Takes over what another program left of the files; its working directory is its own. -/
def adopt (w : World) (files : FileSystem) : World :=
  { w with files := { files with workingDirectory := w.files.workingDirectory } }

/-- The next 64 random bits. -/
def randomBits (w : World) : UInt64 × World :=
  let (bits, seed) := w.random w.seed
  (bits, { w with seed })

end World

end ModuLang.Host
