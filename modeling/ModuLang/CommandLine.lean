import ModuLang.Interpreter
import ModuLang.Report
import ModuLang.Text.ControlSequence

/-!
# The command line

`run FILE` runs a file, `repl` is an interactive shell on the standard input. The option `-v` in
front of the command makes all tokens be read before anything runs. A usage error ends with status 2
and prints nothing to the standard output.
-/

namespace ModuLang.CommandLine

open Host

variable [Limits]

/-- What the command line asks for. -/
inductive Command where
  /-- To run a file; further arguments are an error, noticed after the file is looked at. -/
  | run (file : String) (further : List String)
  | repl
  | serve (port : Option Int)
  deriving DecidableEq, Repr

/-- A command, and whether it is verbose. -/
structure Invocation where
  isVerbose : Bool
  command : Command
  deriving DecidableEq, Repr

/-- Whether an argument is a verbose option: its long form, or letters behind a single dash. -/
def isVerboseOption (arg : String) : Bool :=
  arg == "--verbose" ||
    match arg.toList with
    | '-' :: letters => !letters.isEmpty && letters.all (· == 'v')
    | _ => false

/-- Whether an argument is an option. -/
def isOption (arg : String) : Bool :=
  match arg.toList with
  | '-' :: _ :: _ => true
  | _ => false

/-- The arguments of a command that has no options of its own; two dashes end the options. -/
def plainArguments? : List String → Option (List String)
  | [] => some []
  | "--" :: rest => some rest
  | arg :: rest => if isOption arg then none else (plainArguments? rest).map (arg :: ·)

/-- The arguments of a server; it may be told the host to listen on. -/
def serverArguments? : List String → Option (List String)
  | "--host" :: _ :: rest => serverArguments? rest
  | arg :: rest =>
    if arg == "--" then some rest
    else if isOption arg then none
    else (serverArguments? rest).map (arg :: ·)
  | [] => some []

/-- Reads the command behind the options. -/
def command? : List String → Option Command
  | "run" :: args => do
    match ← plainArguments? args with
    | file :: further => return .run file further
    | [] => none
  | "repl" :: args => do
    match ← plainArguments? args with
    | [] => return .repl
    | _ => none
  | "server" :: args => do
    match ← serverArguments? args with
    | [] => return .serve none
    | [port] =>
      match Number.readInteger port with
      | .number n => return .serve (some n)
      | _ => none
    | _ => none
  | _ => none

/-- Reads the arguments of the program. -/
def invocation? : List String → Option Invocation
  | "--" :: rest => (command? rest).map (⟨false, ·⟩)
  | arg :: rest =>
    if isVerboseOption arg then (invocation? rest).map fun i => { i with isVerbose := true }
    else (command? (arg :: rest)).map (⟨false, ·⟩)
  | [] => none

/-- How the program ended: its status, the crash that ended it, and the world that it left. -/
structure Ending where
  status : Nat
  crash : Option Crash := none
  world : World

/-- The ending of a usage error. -/
def usageError (w : World) : Ending :=
  ⟨2, none, w⟩

/-- The way that a program is run. -/
def runner (isVerbose : Bool) : Config → String → Eval Unit :=
  if isVerbose then runVerbosely else runProgram

/-- Prints a text that is not the program's own; it commands no terminal. -/
def announce (w : World) (text : String) : World :=
  w.write (Text.withoutControlSequences text)

/-- Whether the text of a path leads to something that can be read. -/
def isReadable (w : World) (file : String) : Bool :=
  match w.files.find (.verbatim file) with
  | .ok .directory | .error _ => false
  | .ok _ => true

/-- Runs a file, which has to be there. -/
def runFile (w : World) (isVerbose : Bool) (file : String) (further : List String) : Ending :=
  let path := Path.ofString file
  if !Library.isHostText file then ⟨1, some .unreadableText, w⟩
  else if !isReadable w file || !further.isEmpty then usageError w
  else
    match Session.readScript w file with
    | .error c => ⟨1, some c, w⟩
    | .ok source =>
      let config : Config := { scriptPath := some path }
      let session := Session.new config w
      let (result, session) := session.step (runner isVerbose config source)
      let w := session.machine.world
      match result with
      | .ok () | .error .exited => ⟨0, none, w⟩
      | .error (.failed (.fault f)) =>
        ⟨1, none, announce w ("\n" ++ f.report path.text (some source) ++ "\n")⟩
      | .error (.failed (.crash c)) => ⟨1, some c, w⟩
      | .error (.returned _) => ⟨1, none, w⟩

/-- Prints to the standard output of a session. -/
def say (s : Session) (text : String) : Session :=
  { s with machine.world := announce s.machine.world text }

/-- Takes a line from the standard input of a session; none is left at its end. -/
def nextLine? (s : Session) : Option (String × Session) :=
  let (line, w) := s.machine.world.readLine
  if line.isEmpty then none else some (line, { s with machine.world := w })

/-- Reads on while a program has an open bracket; each line uses up fuel. -/
def readOn : Nat → Session → String → Except Crash String × Session
  | 0, s, source => (.ok source, s)
  | fuel + 1, s, source =>
    match Source.needsMoreInput source with
    | .error c => (.error c, s)
    | .ok false => (.ok source, s)
    | .ok true =>
      let s := say s "|   "
      match nextLine? s with
      | none => (.ok source, s)
      | some (line, s) => readOn fuel s (source ++ line)

/-- One program after the other until the standard input ends; each line uses up fuel. -/
def replLoop (isVerbose : Bool) : Nat → Session → Ending
  | 0, s => ⟨0, none, s.machine.world⟩
  | fuel + 1, s =>
    let s := say s "> "
    match nextLine? s with
    | none => ⟨0, none, (say s "\n").machine.world⟩
    | some (line, s) =>
      match readOn fuel s line with
      | (.error c, s) => ⟨1, some c, s.machine.world⟩
      | (.ok source, s) =>
        if (Text.trim source).isEmpty then replLoop isVerbose fuel s
        else
          let (result, s) := s.step (runner isVerbose s.config source)
          match result with
          | .ok () => replLoop isVerbose fuel s
          | .error (.failed (.fault f)) =>
            let s := say s ("\n" ++ f.report "<stdin>" (some source) ++ "\n\n")
            replLoop isVerbose fuel s
          | .error .exited => ⟨0, none, s.machine.world⟩
          | .error (.failed (.crash c)) => ⟨1, some c, s.machine.world⟩
          | .error (.returned _) => ⟨1, none, s.machine.world⟩

/-- The interactive shell. -/
def repl (w : World) (isVerbose : Bool) : Ending :=
  let fuel := w.input.length + 2
  replLoop isVerbose fuel (say (Session.new {} w) "Modu REPL\n")

/-- Carries out what the arguments ask for; the line ends of the standard input are made one.
Serving is left to the caller. -/
def run (w : World) (args : List String) : Ending :=
  let w := { w with input := Text.normalizeNewlines w.input }
  match invocation? args with
  | none => usageError w
  | some ⟨isVerbose, .run file further⟩ => runFile w isVerbose file further
  | some ⟨isVerbose, .repl⟩ => repl w isVerbose
  | some ⟨_, .serve _⟩ => ⟨0, none, w⟩

end ModuLang.CommandLine
