import ModuLang.Host.FileSystem
import ModuLang.Host.Shell.Arithmetic
import ModuLang.Host.Shell.Format
import ModuLang.Host.Shell.Pattern
import ModuLang.Host.Shell.Syntax

/-!
# The state of a shell

A shell works on a file system, has parameters, and reads from and writes to descriptors that can be
redirected. Words are expanded in a state, since what they stand for depends on the parameters and,
for a command inside a word, on everything else.
-/

namespace ModuLang.Host.Shell

/-- Where a descriptor writes to. -/
inductive Sink where
  | output
  | errors
  /-- What is written is kept for another command. -/
  | collected
  | file (place : List String)
  | closed
  deriving DecidableEq, Repr

/-- A way to leave loops or a function before their end. -/
inductive Jump where
  /-- Ends as many loops as the number says, from the inside out. -/
  | endLoops (count : Nat)
  /-- Ends all of as many loops but the last, which goes on with its next turn. -/
  | nextTurn (count : Nat)
  | endFunction
  deriving DecidableEq, Repr

/-- The state of a shell. -/
structure State where
  files : FileSystem
  /-- The name that the shell complains under. -/
  name : String := "sh"
  arguments : List String := []
  parameters : List (String × String) := []
  /-- The names of the parameters that other programs are given. -/
  exported : List String := []
  functions : List (String × Command) := []
  /-- The parameters of the functions that are being run, as they were before; the innermost
  function stands first. -/
  hidden : List (List (String × Option String)) := []
  /-- What is run when the shell ends. -/
  farewell : String := ""
  /-- How the last command ended. -/
  status : Int := 0
  /-- How the last command inside a word ended. -/
  innerStatus : Int := 0
  /-- The number of loops around the command that is being run. -/
  loopDepth : Nat := 0
  jump : Option Jump := none
  /-- The status of the command that is being run is tested by another. -/
  isTested : Bool := false
  /-- A command that fails ends the shell, unless its status is tested. -/
  endsOnFailure : Bool := false
  /-- A parameter without a value ends the shell. -/
  refusesUnset : Bool := false
  /-- The shell was told to end. -/
  isOver : Bool := false
  /-- The shell was ended from outside. -/
  isKilled : Bool := false
  /-- The line of the command that is being run. -/
  line : Nat := 1
  /-- What the standard input still holds. -/
  input : List UInt8 := []
  output : List UInt8 := []
  errors : List UInt8 := []
  collected : List UInt8 := []
  outputSink : Sink := .output
  errorSink : Sink := .errors

/-- The number of the shell's process. -/
def processNumber : String := "1000"

namespace State

/-- Writes octets to a sink. -/
def write (s : State) (sink : Sink) (bytes : List UInt8) : State :=
  match sink with
  | .output => { s with output := s.output ++ bytes }
  | .errors => { s with errors := s.errors ++ bytes }
  | .collected => { s with collected := s.collected ++ bytes }
  | .file place =>
    match s.files.store place (s.files.contentAt place ++ bytes) with
    | .ok files => { s with files }
    | .error _ => s
  | .closed => s

/-- Why a utility cannot write to a sink. -/
def obstacle? (s : State) : Sink → Option String
  | .closed => some "standard output: Bad file descriptor"
  | .file place =>
    match s.files.store place [0] with
    | .ok _ => none
    | .error e => some s!"write error: {e.kind.message}"
  | _ => none

/-- No further command is run before something has been left. -/
def isStopped (s : State) : Bool :=
  s.isOver || s.jump.isSome

/-- Writes octets to the standard output. -/
def print (s : State) (bytes : List UInt8) : State :=
  s.write s.outputSink bytes

/-- Writes a line to the standard output. -/
def printLine (s : State) (text : String) : State :=
  s.print (Text.encodeUtf8 (text ++ "\n"))

/-- Ends a command with a status. -/
def finish (s : State) (status : Int) : State :=
  { s with status }

/-- Writes a line to the error output, and ends a command with a status. -/
def report (s : State) (status : Int) (text : String) : State :=
  (s.write s.errorSink (Text.encodeUtf8 (text ++ "\n"))).finish status

/-- A complaint of the shell itself. -/
def complain (s : State) (status : Int) (text : String) : State :=
  s.report status s!"{s.name}: {s.line}: {text}"

/-- A complaint that ends the shell. -/
def abort (s : State) (text : String) : State :=
  { s.complain 2 text with isOver := true }

/-- The text of a place. -/
def placeText (place : List String) : String :=
  "/" ++ "/".intercalate place

/-- The value of a parameter, if it has one. -/
def parameter? (s : State) (name : String) : Option String :=
  match name with
  | "?" => some (toString s.status)
  | "$" => some processNumber
  | "#" => some (toString s.arguments.length)
  | "0" => some s.name
  | "!" => none
  | "-" => some ((if s.endsOnFailure then "e" else "") ++ if s.refusesUnset then "u" else "")
  | "@" | "*" => if s.arguments.isEmpty then none else some (" ".intercalate s.arguments)
  | name =>
    if name.toList.all Text.isBasicDigit then s.arguments[(integerOf name).1.toNat - 1]?
    else
      match s.parameters.lookup name with
      | some value => some value
      | none => if name = "PWD" then some (placeText s.files.workingDirectory) else none

/-- The value of a parameter: none is empty. -/
def parameter (s : State) (name : String) : String :=
  (s.parameter? name).getD ""

/-- Gives a parameter a value. -/
def assign (s : State) (name value : String) : State :=
  { s with parameters := (name, value) :: s.parameters.filter (·.1 != name) }

/-- Gives a parameter back a value that it had, or takes its value away. -/
def reassign (s : State) (name : String) : Option String → State
  | some value => s.assign name value
  | none => { s with parameters := s.parameters.filter (·.1 != name) }

/-- Takes over from a shell that was started in this one, and forgets its changes of itself. -/
def afterChild (s child : State) : State :=
  { s with
    files := { child.files with workingDirectory := s.files.workingDirectory }
    status := child.status
    input := child.input
    output := child.output
    errors := child.errors
    collected := child.collected
    isOver := child.isKilled
    isKilled := child.isKilled }

/-- Runs something in a shell of its own, and collects what it writes. -/
def collect (s : State) (action : State → State) : List UInt8 × State :=
  let child := action { s with collected := [], outputSink := .collected, farewell := "" }
  (child.collected, { s.afterChild child with collected := s.collected })

end State

/-! ### Expansion -/

/-- The fields of a word: those that are complete, and the one that is being read, if any. Both are
kept from the last to the first. -/
structure Fields where
  complete : List (List FieldChar) := []
  last : List FieldChar := []
  isOpen : Bool := false

namespace Fields

/-- Adds characters to the last field. -/
def extend (f : Fields) (cs : List FieldChar) : Fields :=
  { f with last := cs.reverse ++ f.last, isOpen := true }

/-- Completes the last field. -/
def close (f : Fields) : Fields :=
  if f.isOpen then { complete := f.last.reverse :: f.complete } else f

/-- All fields, in order. -/
def toList (f : Fields) : List (List FieldChar) :=
  f.close.complete.reverse

/-- Whether a character ends a field. -/
def isSeparator (c : Char) : Bool :=
  c == ' ' || c == '\t' || c == '\n'

/-- Adds a text that is split at blanks. -/
def extendSplit (f : Fields) (cs : List Char) : Fields :=
  cs.foldl (fun f c => if isSeparator c then f.close else f.extend [(c, false)]) f

/-- Adds texts, each of which begins a field of its own but the first. -/
def extendEach (extend : Fields → String → Fields) (f : Fields) : List String → Fields
  | [] => f
  | text :: texts => texts.foldl (fun f text => extend f.close text) (extend f text)

end Fields

/-- The text that a command printed, without the ends of lines behind it. -/
def withoutLineEnds (bytes : List UInt8) : String :=
  let cs := (Text.decodeUtf8Lenient bytes).toList
  String.ofList (cs.reverse.dropWhile (· == '\n')).reverse

/-- The wording of what is wrong with an arithmetic expression. -/
def Arithmetic.Complaint.message (text : String) : Arithmetic.Complaint → String
  | .expression reason => s!"arithmetic expression: {reason}: \"{text}\""
  | .number value => s!"Illegal number: {value}"

/-- The value of an arithmetic expression; what it assigns is kept. -/
def calculate (s : State) (text : String) : Except String (String × State) :=
  let valueOf (name : String) : Except Arithmetic.Complaint Int :=
    match Arithmetic.numberOf? (s.parameter name) with
    | some n => .ok n
    | none => .error (.number (s.parameter name))
  match Arithmetic.evaluate valueOf text.toList with
  | .error complaint => .error (complaint.message text)
  | .ok (n, assigned) =>
    .ok (toString n,
      assigned.reverse.foldl (fun s (name, value) => s.assign name (toString value)) s)

/-- Adds a value to fields; the flags say whether words are split, and whether this one is
quoted. -/
def Fields.put (isSplit isQuoted : Bool) (f : Fields) (value : String) : Fields :=
  if isQuoted || !isSplit then f.extend (value.toList.map (·, isQuoted))
  else f.extendSplit value.toList

/-- Adds all arguments of the shell to fields. Between quotes, `@` makes each a field of its own. -/
def Fields.putArguments (isSplit isQuoted : Bool) (s : State) (name : String) (f : Fields) :
    Fields :=
  if !isSplit || (isQuoted && name == "*") then f.put isSplit isQuoted (" ".intercalate s.arguments)
  else f.extendEach (Fields.put isSplit isQuoted) s.arguments

/-- Expands the pieces of a word into fields, or says what is wrong with them; the flag says whether
values are split, and `run` runs a command. Each level of texts inside texts uses up fuel. -/
def expandPieces (run : List Char → State → State) :
    Nat → Bool → Fields × State → Word → Except String (Fields × State)
  | 0, _, acc, _ => .ok acc
  | fuel + 1, isSplit, acc, w => w.foldlM (fun (f, s) piece => do
    -- The characters that a text inside the word stands for, taken as one.
    let inner (isQuoted : Bool) (s : State) (text : List Char) :
        Except String (List FieldChar × State) := do
      let w ← (wordOf .text isQuoted text).mapError Defect.message
      let (f, s) ← expandPieces run fuel false ({}, s) w
      return (f.last.reverse, s)
    match piece with
    | .char c isQuoted =>
      if isSplit && !isQuoted && Fields.isSeparator c then return (f.close, s)
      else return (f.extend [(c, isQuoted)], s)
    | .emptyText => return (f.extend [], s)
    | .expansion .malformed _ => throw "Bad substitution"
    | .expansion (.arithmetic text) isQuoted =>
      let (expression, s) ← inner true s text
      let (value, s) ← calculate s (String.ofList (expression.map (·.1)))
      return (f.put isSplit isQuoted value, s)
    | .expansion (.command text) isQuoted =>
      let (bytes, after) := s.collect (run text)
      return (f.put isSplit isQuoted (withoutLineEnds bytes),
        { after with status := s.status, innerStatus := after.status })
    | .expansion (.parameter name use) isQuoted =>
      let value? := s.parameter? name
      let value := value?.getD ""
      let isUnset := value?.isNone && name != "@" && name != "*"
      if isUnset && s.refusesUnset && !(use matches .remedied _ _ _) then
        throw s!"{name}: parameter not set"
      match use with
      | .value =>
        if name == "@" || name == "*" then return (f.putArguments isSplit isQuoted s name, s)
        else return (f.put isSplit isQuoted value, s)
      | .size =>
        if name == "@" || name == "*" then
          return (f.put isSplit isQuoted (toString s.arguments.length), s)
        else return (f.put isSplit isQuoted (toString value.utf8ByteSize), s)
      | .trimmed isFront isLongest text =>
        let (field, s) ← inner false s text
        let pattern := Pattern.ofField field
        let left :=
          if isFront then pattern.trimFront isLongest value.toList
          else pattern.trimBack isLongest value.toList
        return (f.put isSplit isQuoted (String.ofList left), s)
      | .remedied remedy isEmptyNone text =>
        let isNone := value?.isNone || (isEmptyNone && value.isEmpty)
        let replaced : Except String (Fields × State) := do
          let w ← (wordOf .text isQuoted text).mapError Defect.message
          expandPieces run fuel isSplit (f, s) w
        match remedy, isNone with
        | .invert, true => return (f, s)
        | .invert, false | .replace, true => replaced
        | _, false =>
          if name == "@" || name == "*" then return (f.putArguments isSplit isQuoted s name, s)
          else return (f.put isSplit isQuoted value, s)
        | .assign, true =>
          let (cs, s) ← inner isQuoted s text
          let value := String.ofList (cs.map (·.1))
          if isName name.toList then return (f.put isSplit isQuoted value, s.assign name value)
          else throw s!"{name}: bad variable name"
        | .refuse, true =>
          let (cs, _) ← inner isQuoted s text
          let reason := if isEmptyNone then "parameter not set or null" else "parameter not set"
          throw s!"{name}: {if cs.isEmpty then reason else String.ofList (cs.map (·.1))}") acc

/-- The number of texts that can be inside each other in a word. -/
def depthLimit : Nat := 100

/-- Expands a word that stands for one text into its characters. -/
def expandField (run : List Char → State → State) (s : State) (w : Word) :
    Except String (List FieldChar × State) := do
  let (f, s) ← expandPieces run depthLimit false ({}, s) w
  return (f.last.reverse, s)

/-- Expands a word that stands for one text. -/
def expandText (run : List Char → State → State) (s : State) (w : Word) :
    Except String (String × State) := do
  let (field, s) ← expandField run s w
  return (String.ofList (field.map (·.1)), s)

/-! ### File names -/

/-- The parts of a field between slashes. -/
def fieldParts : List FieldChar → List (List FieldChar)
  | [] => [[]]
  | c :: cs =>
    match fieldParts cs with
    | [] => [[c]]
    | part :: parts => if c.1 == '/' then [] :: part :: parts else (c :: part) :: parts

/-- The paths that a field matches: each with the place that it leads to. -/
def matchingPaths (fs : FileSystem) (field : List FieldChar) : List String :=
  let step (found : List (String × List String)) (part : List FieldChar) :=
    found.flatMap fun (path, place) =>
      let named (name : String) : String × List String :=
        (if path.isEmpty || path.endsWith "/" then path ++ name else path ++ "/" ++ name,
          place ++ [name])
      let pattern := Pattern.ofField part
      if pattern.any Wildcard.isWild then
        let isHidden (name : String) : Bool :=
          name.startsWith "." && pattern.head? != some (.exactly '.')
        ((fs.children place).filter fun name =>
          pattern.accepts name.toList && !isHidden name).map named
      else [named (String.ofList (part.map (·.1)))]
  let found :=
    match fieldParts field with
    | [] :: parts => parts.foldl step [("/", [])]
    | parts => parts.foldl step [("", fs.workingDirectory)]
  (found.filter fun (_, place) => (fs.lookup place).isSome).map (·.1)

/-- The texts of a field: the paths that it matches, or else itself. -/
def fieldTexts (fs : FileSystem) (field : List FieldChar) : List String :=
  let itself := [String.ofList (field.map (·.1))]
  if !(Pattern.ofField field).any Wildcard.isWild then itself
  else
    match matchingPaths fs field with
    | [] => itself
    | paths => paths

/-- Whether a word is nothing but the arguments of the shell between quotes. -/
def isArguments (w : Word) : Bool :=
  w.contains (.expansion (.parameter "@" .value) true) &&
    w.all fun piece => piece == .emptyText || piece == .expansion (.parameter "@" .value) true

/-- Expands words into the texts that they stand for. -/
def expandWords (run : List Char → State → State) (s : State) :
    List Word → Except String (List String × State)
  | [] => .ok ([], s)
  | w :: ws => do
    let (f, s) ← expandPieces run depthLimit true ({}, s) w
    let texts :=
      if isArguments w && s.arguments.isEmpty then [] else f.toList.flatMap (fieldTexts s.files)
    let (more, s) ← expandWords run s ws
    return (texts ++ more, s)

end ModuLang.Host.Shell
