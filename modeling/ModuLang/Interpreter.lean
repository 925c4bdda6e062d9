import ModuLang.Evaluation

/-!
# Running programs

A program is run statement by statement, as far as it can be read; a failure to read it comes after
the effects of the statements before. A stack overflow is reported as a runaway, at the line of the
last statement that was begun.

A session feeds programs to one machine: what one binds, the next one sees.
-/

namespace ModuLang

open Eval Host

variable [Host.Limits]

/-- Reports a stack overflow of a step at a line. -/
def overflowAt {α : Type} (line : Int) (step : Eval α) : Eval α :=
  tryCatch step fun
    | .failed (.crash .stackOverflow) => throw (.failed (.fault ⟨.recursionTooDeep, line⟩))
    | i => throw i

/-- Runs the statements of a program, and then fails as it does. `line` is the line of the last
statement that was begun. -/
def runTopLevel (ev : Evaluator) (config : Config) (failure : Option Failure) (line : Int) :
    List Node → Eval Unit
  | [] =>
    match failure with
    | some failure => overflowAt line (throw (.failed failure))
    | none => return
  | statement :: rest => do
    let _ ← overflowAt statement.line (ev config statement)
    runTopLevel ev config failure statement.line rest

/-- Runs a program with the given number of levels for its evaluation. -/
def runWithin (levels : Nat) (config : Config) (source : String) : Eval Unit :=
  let program := Source.parse source
  runTopLevel (evaluate levels) config program.failure 0 program.statements

/-- Runs a program. -/
def runProgram (config : Config) (source : String) : Eval Unit :=
  runWithin stackLimit config source

/-- Shows a statement of a program before it is evaluated, which takes the host two levels for each
level of the statement. -/
def evaluateVerbosely (config : Config) (statement : Node) : Eval Value :=
  if statement.isWithin (stackLimit / 2) then evaluate stackLimit config statement
  else crash .stackOverflow

/-- Runs a program whose tokens and statements are shown: all tokens are read first, so that a
lexical error comes before any effect. -/
def runVerbosely (config : Config) (source : String) : Eval Unit := do
  match (Source.tokenize source).2 with
  | some failure => throw (.failed failure)
  | none =>
    let program := Source.parse source
    runTopLevel evaluateVerbosely config program.failure 0 program.statements

/-- The environment of a new program. -/
def initialEnvironment (config : Config) : Environment :=
  Environment.update {} (builtins config)

/-- A session: its configuration and its machine. -/
structure Session where
  config : Config
  machine : Machine

namespace Session

/-- A new session in a world. -/
def new (config : Config) (world : World) : Session :=
  ⟨config, { env := initialEnvironment config, world }⟩

/-- Takes a step on the session's machine. -/
def step (s : Session) (program : Eval Unit) : Except Interrupt Unit × Session :=
  let (result, machine) := program.run s.machine
  (result, { s with machine })

/-- Runs a program. -/
def eval (s : Session) (source : String) : Except Interrupt Unit × Session :=
  s.step (runProgram s.config source)

/-- Reads a file that is to be run. -/
def readScript (w : World) (path : String) : Except Crash String :=
  if !Library.isHostText path then .error .unreadableText
  else
    match w.files.read (Path.ofString path) with
    | .error e => .error (.os e)
    | .ok bytes =>
      match Library.decodeText bytes with
      | .ok source => .ok source
      | .error _ => .error .undecodable

/-- Runs a file. From then on imports are looked for next to it, even if it cannot be read. -/
def runFile (s : Session) (path : String) : Except Interrupt Unit × Session :=
  let s := { s with config := s.config.withScript (Path.ofString path) }
  match readScript s.machine.world path with
  | .error c => (.error (.failed (.crash c)), s)
  | .ok source => s.eval source

end Session

end ModuLang
