import ModuLang.Display
import ModuLang.Environment
import ModuLang.Host.World

/-!
# The machine

A running program has an environment, a heap, a stack of frames and the world around it. A step may
be interrupted: by an error or a crash, by a `return`, or by the end of the program. What it did
before that stays done.

A frame is one call or one imported file. It counts the statements that were begun in it, and their
number is limited, as is the number of frames.
-/

namespace ModuLang

/-- What the embedder decides about a run. -/
structure Config where
  /-- The file that is run; imports are looked for next to it. -/
  scriptPath : Option Host.Path := none
  /-- Whether the program comes from someone who may not touch the host. -/
  onServer : Bool := false
  /-- The number of statements that one frame may begin. -/
  maxBodyStatements : Int := 100
  /-- The number of frames. -/
  maxCallDepth : Int := 64
  /-- Whether a `return` in a method ends the method and gives its value. -/
  returnFromMethods : Bool := true

instance : Inhabited Config := ⟨{}⟩

/-- The configuration for a file. -/
def Config.withScript (c : Config) (p : Host.Path) : Config :=
  { c with scriptPath := some p }

/-- A call or an imported file that is running. -/
structure Frame where
  name : String
  counted : Bool := true
  statements : Nat := 0
  deriving DecidableEq, Repr

/-- The state of a running program; the innermost frame comes first. -/
structure Machine where
  env : Environment := {}
  heap : Heap := {}
  frames : List Frame := []
  world : Host.World := {}

instance : Inhabited Machine := ⟨{}⟩

/-- Why a step did not give a value. -/
inductive Interrupt where
  | failed (failure : Failure)
  | returned (value : Value)
  | exited

/-- A step of a program. -/
abbrev Eval := ExceptT Interrupt (StateM Machine)

namespace Eval

variable {α : Type}

/-- Ends with an error whose line is not known yet. -/
def fail (cause : Cause) : Eval α :=
  throw (.failed (.fault ⟨cause, 0⟩))

/-- Ends with a crash. -/
def crash (c : Crash) : Eval α :=
  throw (.failed (.crash c))

/-- A step that only computes. -/
def ofExcept : Except Failure α → Eval α
  | .ok a => pure a
  | .error failure => throw (.failed failure)

/-- A step that only computes, and fails at a line that is not known yet. -/
def ofCause : Except Cause α → Eval α
  | .ok a => pure a
  | .error cause => throw (.failed cause.failure)

/-- The heap. -/
def heap : Eval Heap := do
  return (← get).heap

/-- The environment. -/
def env : Eval Environment := do
  return (← get).env

/-- Replaces the environment. -/
def setEnv (e : Environment) : Eval Unit :=
  modify fun m => { m with env := e }

/-- Binds a name. -/
def define (name : String) (value : Value) : Eval Unit :=
  modify fun m => { m with env := m.env.define name value }

/-- The world. -/
def world : Eval Host.World := do
  return (← get).world

/-- Replaces the world. -/
def setWorld (w : Host.World) : Eval Unit :=
  modify fun m => { m with world := w }

/-- Writes to the standard output. -/
def write (s : String) : Eval Unit :=
  modify fun m => { m with world := m.world.write s }

/-- Makes an object. -/
def alloc (o : Object) : Eval Value :=
  modifyGet fun m =>
    let (a, h) := m.heap.alloc o
    (.object a, { m with heap := h })

/-- The object at an address. -/
def object (a : Address) : Eval Object := do
  return (← heap).get a

/-- Changes the object at an address. -/
def setObject (a : Address) (o : Object) : Eval Unit :=
  modify fun m => { m with heap := m.heap.set a o }

/-- An independent copy of a value. -/
def copyValue (v : Value) : Eval Value :=
  modifyGet fun m =>
    let (copy, h) := m.heap.copyValue v
    (copy, { m with heap := h })

/-- A clone of an environment. -/
def clone (e : Environment) : Eval Environment :=
  modifyGet fun m =>
    let (copy, h) := e.clone m.heap
    (copy, { m with heap := h })

/-- The display form of a value. -/
def display (v : Value) : Eval String := do
  ofCause ((← heap).display v)

/-- Runs a step and then another part of the machine's work, however the step ended. -/
def afterwards (step : Eval α) (cleanup : Machine → Machine) : Eval α :=
  ExceptT.mk do
    let result ← step.run
    modify cleanup
    return result

/-- Runs a step in another environment, which is given up afterwards. -/
def inside (e : Environment) (step : Eval α) : Eval α := do
  let outer ← env
  setEnv e
  step.afterwards fun m => { m with env := outer }

/-- Runs a step in a new frame, if there is room for one. -/
def inFrame (config : Config) (name : String) (counted : Bool) (step : Eval α) : Eval α := do
  let frames := (← get).frames
  if config.maxCallDepth ≤ frames.length then fail .recursionTooDeep
  else
    modify fun m => { m with frames := ⟨name, counted, 0⟩ :: frames }
    step.afterwards fun m => { m with frames := m.frames.tail }

/-- Whether a statement counts toward the limit of a frame; a `return` does not, as it ends the
body. -/
def countsToward (frame : Frame) : Node → Bool
  | .returning _ _ => false
  | _ => frame.counted

/-- Counts a statement that is about to begin. -/
def countStatement (config : Config) (statement : Node) : Eval Unit := do
  match (← get).frames with
  | [] => pure ()
  | frame :: below =>
    if countsToward frame statement then
      let begun := frame.statements + 1
      modify fun m => { m with frames := { frame with statements := begun } :: below }
      if config.maxBodyStatements < begun then fail .recursionTooDeep

/-- Gives a line to an error of a step that has none. -/
def atLine (line : Int) (step : Eval α) : Eval α :=
  tryCatch step fun
    | .failed (.fault f) => throw (.failed (.fault (f.atLine line)))
    | i => throw i

/-- Runs a step and catches a `return`. -/
def catchReturn (step : Eval α) : Eval (Except Value α) :=
  tryCatch (do return .ok (← step)) fun
    | .returned v => return .error v
    | i => throw i

end Eval

end ModuLang
