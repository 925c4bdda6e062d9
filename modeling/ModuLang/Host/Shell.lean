import ModuLang.Host.Shell.Utility

/-!
# The command shell

The shell reads a text line by line and runs each line before it looks at the next. It knows
quoting, parameters, arithmetic, commands inside words, redirections, pipelines, lists,
conditionals, loops and functions, and the utilities of `utility?`. It works on a file system and
gives what it wrote.
-/

namespace ModuLang.Host.Shell

/-! ### Redirection -/

/-- Points a descriptor of the shell to a sink. -/
def State.aim (s : State) (descriptor : Nat) (sink : Sink) : State :=
  if descriptor = 2 then { s with errorSink := sink }
  else if descriptor = 1 then { s with outputSink := sink }
  else s

/-- Sets up a redirection to the given target, or says what stands in its way. -/
def redirectTo (s : State) (descriptor : Nat) (operator target : String) : Except String State :=
  if operator = ">&" then
    if target = "1" then .ok (s.aim descriptor s.outputSink)
    else if target = "2" then .ok (s.aim descriptor s.errorSink)
    else if target = "-" then .ok (s.aim descriptor .closed)
    else .error s!"{target}: Bad file descriptor"
  else if operator = "<&" then
    if target = "0" then .ok s
    else if target = "-" then .ok { s with input := [] }
    else .error s!"{target}: Bad file descriptor"
  else if operator = "<<" || operator = "<<-" then
    .ok { s with input := Text.encodeUtf8 target }
  else if operator = "<" then
    match s.files.read (.verbatim target) with
    | .ok content => .ok { s with input := content }
    | .error e =>
      let reason := if e.kind = .missing then "No such file" else e.kind.message
      .error s!"cannot open {target}: {reason}"
  else
    let refuse (kind : OsErrorKind) : Except String State :=
      let reason := if kind = .missing then "Directory nonexistent" else kind.message
      .error s!"cannot create {target}: {reason}"
    match s.files.openForWriting (.verbatim target) with
    | .error e => refuse e.kind
    | .ok place =>
      match s.files.store place (if operator = ">>" then s.files.contentAt place else []) with
      | .error e => refuse e.kind
      | .ok files => .ok ({ s with files }.aim descriptor (.file place))

/-- Sets up redirections in order. -/
def redirectAll (run : List Char → State → State) (s : State) (rs : List Redirection) :
    Except String State :=
  rs.foldlM (fun s r => do
    let (target, s) ← expandText run s r.target
    redirectTo s r.descriptor r.operator target) s

/-- Goes back from redirections to the descriptors that another state has. -/
def State.restore (s before : State) (rs : List Redirection) : State :=
  { s with
    outputSink := before.outputSink
    errorSink := before.errorSink
    input := if rs.any (·.operator.startsWith "<") then before.input else s.input }

/-! ### Simple commands -/

/-- The name and the value of a word that assigns to a parameter. -/
def assignment? (w : Word) : Option (String × Word) :=
  let isOfName (piece : Piece) : Bool :=
    match piece with
    | .char c false => isNameChar c
    | _ => false
  match bareText? (w.takeWhile isOfName), w.dropWhile isOfName with
  | some name, .char '=' false :: value => if isName name.toList then some (name, value) else none
  | _, _ => none

/-- The assignments in front of a command, and the words behind them. -/
def splitAssignments : List Word → List (String × Word) × List Word
  | [] => ([], [])
  | w :: ws =>
    match assignment? w with
    | some a =>
      let (more, rest) := splitAssignments ws
      (a :: more, rest)
    | none => ([], w :: ws)

/-- Carries out assignments in order. -/
def assignAll (run : List Char → State → State) (s : State) (assignments : List (String × Word)) :
    Except String State :=
  assignments.foldlM (fun s (name, w) => do
    let (value, s) ← expandText run s w
    return s.assign name value) s

/-- Takes assignments back: parameters get the values that they had in another state. -/
def State.unassign (s before : State) (names : List String) : State :=
  { names.foldl (fun s name => s.reassign name (before.parameters.lookup name)) s with
    exported := before.exported }

/-- The name of a utility that is called by its place in the system. -/
def utilityName (name : String) : String :=
  match (Path.ofString name).parts with
  | ["bin", utility] | ["usr", "bin", utility] => if name.startsWith "/" then utility else name
  | _ => name

/-- Why there is no command of a name. -/
def notFound (s : State) (name : String) : State :=
  let isThere := (s.files.find (.verbatim name)).toOption.isSome
  if name.isEmpty || (name.toList.contains '/' && isThere) then
    s.complain 126 s!"{name}: Permission denied"
  else s.complain 127 s!"{name}: not found"

/-- The commands of the shell that assignments in front of them outlive. -/
def specialCommands : List String :=
  [":", ".", "break", "continue", "eval", "exec", "exit", "export", "return", "set", "shift",
    "trap", "unset"]

/-- The other commands of the shell itself. -/
def ownCommands : List String :=
  ["[", "cd", "command", "echo", "false", "kill", "local", "printf", "pwd", "read", "test", "true",
    "type", "wait"]

/-- What a name stands for where a command may begin: a description, and the text that it is called
by. -/
def meaning? (s : State) (name : String) : Option (String × String) :=
  if reservedWords.contains name then some ("a shell keyword", name)
  else if specialCommands.contains name then some ("a special shell builtin", name)
  else if (s.functions.lookup name).isSome then some ("a shell function", name)
  else if ownCommands.contains name then some ("a shell builtin", name)
  else if name = "sh" || (utility? s name []).isSome then
    some (s!"/usr/bin/{name}", s!"/usr/bin/{name}")
  else none

/-- Says what names stand for. -/
def showMeanings (s : State) (names : List String) : State :=
  names.foldl (fun s name =>
    match meaning? s name with
    | some (description, _) => s.printLine s!"{name} is {description}"
    | none => (s.printLine s!"{name}: not found").finish 127) (s.finish 0)

/-- Gives the text that a name is called by. -/
def showCalled (s : State) (name : String) : State :=
  match meaning? s name with
  | some (_, text) => (s.printLine text).finish 0
  | none => s.finish 127

/-- Runs what a shell is to run at its end. Its status stays as it was, unless it is ended again. -/
def State.leave (run : List Char → State → State) (s : State) : State :=
  if s.farewell.isEmpty || s.isKilled then s
  else
    let after := run s.farewell.toList { s with isOver := false, jump := none, farewell := "" }
    if after.isOver then after else after.finish s.status

/-- Runs a text in a shell of its own, which has a name and arguments. -/
def runShell (run : List Char → State → State) (s : State) (text : List Char) (name : String)
    (args : List String) : State :=
  let child : State :=
    { files := s.files
      name
      arguments := args
      parameters := s.parameters.filter (s.exported.contains ·.1)
      exported := s.exported
      input := s.input
      output := s.output
      errors := s.errors
      collected := s.collected
      outputSink := s.outputSink
      errorSink := s.errorSink }
  s.afterChild ((run text child).leave run)

/-- Runs the text of a file in a shell of its own. -/
def runScript (run : List Char → State → State) (s : State) (path : String) (args : List String) :
    State :=
  match s.files.read (.verbatim path) with
  | .ok content => runShell run s (Text.decodeUtf8Lenient content).toList path args
  | .error e =>
    let reason := if e.kind = .missing then "No such file" else e.kind.message
    s.report 2 s!"sh: 0: cannot open {path}: {reason}"

/-- Runs the text of a file in this shell. A name without a slash is not looked for in the working
directory. -/
def runFile (run : List Char → State → State) (s : State) (path : String) : State :=
  if !path.toList.contains '/' then s.abort s!".: {path}: not found"
  else
    match s.files.read (.verbatim path) with
    | .ok content => run (Text.decodeUtf8Lenient content).toList (s.finish 0)
    | .error e =>
      let reason := if e.kind = .missing then "No such file" else e.kind.message
      s.abort s!".: cannot open {path}: {reason}"

/-- The number of functions that can be run inside each other. -/
def functionLimit : Nat := 1000

/-- Calls a function, which has arguments and hidden parameters of its own. -/
def callFunction (go : Command → State → State) (s : State) (body : Command)
    (args : List String) : State :=
  if functionLimit ≤ s.hidden.length then
    s.abort s!"Maximum function recursion depth ({functionLimit}) reached"
  else
    let after := go body { s with arguments := args, loopDepth := 0, hidden := [] :: s.hidden }
    let hidden := after.hidden.headD []
    let shown := hidden.foldl (fun s (name, value?) => s.reassign name value?) after
    { shown with
      arguments := s.arguments
      loopDepth := s.loopDepth
      hidden := s.hidden
      jump := none }

/-- Calls a command by its name: some run a text, in this shell or in another. -/
def call (run : List Char → State → State) (go : Command → State → State) (s : State)
    (name : String) (args : List String) : State :=
  let plain (s : State) (name : String) (args : List String) : State :=
    match utilityName name, args with
    | "eval", args => run (" ".intercalate args).toList s
    | ".", path :: _ => runFile run s path
    | "type", names => showMeanings s names
    | "sh", [] =>
      let text := (Text.decodeUtf8Lenient s.input).toList
      runShell run { s with input := [] } text "sh" []
    | "sh", "-c" :: text :: args => runShell run s text.toList (args.headD "sh") args.tail
    | "sh", path :: args => runScript run s path args
    | name', args => (utility? s name' args).getD (notFound s name)
  match s.functions.lookup name, name, args with
  | some body, _, args => callFunction go s body args
  | none, "command", "-v" :: name :: _ => showCalled s name
  | none, "command", name :: args => plain s name args
  | none, "exec", name :: args =>
    if (meaning? s (utilityName name)).isSome then { plain s name args with isOver := true }
    else { s.complain 127 s!"exec: {name}: not found" with isOver := true }
  | none, name, args => plain s name args

/-- Runs a simple command. A word that cannot be expanded ends the shell. A command without a name
ends with the status of the commands in its words, and one that only has redirections may keep
them. -/
def runSimple (run : List Char → State → State) (go : Command → State → State) (s : State)
    (words : List Word) (rs : List Redirection) : State :=
  let (assignments, words) := splitAssignments words
  let before := { s with innerStatus := 0 }
  match expandWords run before words with
  | .error text => s.abort text
  | .ok (texts, s) =>
    match redirectAll run s rs with
    | .error text => (s.complain 2 text).restore before rs
    | .ok s =>
      match assignAll run s assignments, texts with
      | .error text, _ => (s.abort text).restore before rs
      | .ok s, [] => (s.finish s.innerStatus).restore before rs
      | .ok s, ["exec"] => s.finish 0
      | .ok s, name :: args =>
        let names := assignments.map (·.1)
        let after := call run go { s with exported := names ++ s.exported } name args
        let after :=
          if names.isEmpty then after
          else if specialCommands.contains name then { after with exported := before.exported }
          else after.unassign before names
        after.restore before rs

/-! ### Compound commands -/

/-- What is left of a jump behind a turn of a loop, and whether the loop goes on. -/
def State.afterTurn (s : State) : State × Bool :=
  match s.jump with
  | none => (s, !s.isOver)
  | some .endFunction => (s, false)
  | some (.endLoops count) =>
    ({ s with jump := if count ≤ 1 then none else some (.endLoops (count - 1)) }, false)
  | some (.nextTurn count) =>
    if count ≤ 1 then ({ s with jump := none }, !s.isOver)
    else ({ s with jump := some (.nextTurn (count - 1)) }, false)

/-- Runs the body of a loop over texts. -/
def runEach (body : State → State) (name : String) : List String → State → State
  | [], s => s
  | text :: texts, s =>
    match (body (s.assign name text)).afterTurn with
    | (s, true) => runEach body name texts s
    | (s, false) => s

/-- Runs a loop, which ends with the status of its last turn; each turn uses up fuel. -/
def runLoop (isWhile : Bool) (test body : State → State) : Nat → Int → State → State
  | 0, _, s => { s with status := 2, isOver := true }
  | fuel + 1, last, s =>
    match (test s).afterTurn with
    | (s, false) => s
    | (s, true) =>
      if (s.status == 0) == isWhile then
        match (body s).afterTurn with
        | (s, true) => runLoop isWhile test body fuel s.status s
        | (s, false) => s
      else s.finish last

/-- The command of the first branch that has a pattern which a subject matches. -/
def findBranch (run : List Char → State → State) (subject : String) (s : State) :
    List (List Word × Command) → Except String (Option Command × State)
  | [] => .ok (none, s)
  | (patterns, body) :: rest => do
    let (isFound, s) ← patterns.foldlM (fun (isFound, s) w => do
      if isFound then return (true, s)
      else
        let (field, s) ← expandField run s w
        return ((Pattern.ofField field).accepts subject.toList, s)) (false, s)
    if isFound then return (some body, s) else findBranch run subject s rest

/-- Ends the shell if a command failed, where it is to do so. -/
def State.checked (s : State) : State :=
  if s.endsOnFailure && !s.isTested && s.status != 0 && s.jump.isNone then { s with isOver := true }
  else s

/-- Runs a command whose status is tested by another. -/
def runTested (go : State → State) (s : State) : State :=
  { go { s with isTested := true } with isTested := s.isTested }

/-- Runs a command; `run` runs a text, and each level of a command uses up fuel. -/
def runCommand (run : List Char → State → State) : Nat → Command → State → State
  | 0, _, s => { s with status := 2, isOver := true }
  | fuel + 1, command, s =>
    let go := runCommand run fuel
    -- What a loop does, with one more loop around its body.
    let looped (action : State → State) (s : State) : State :=
      { action { s with loopDepth := s.loopDepth + 1 } with loopDepth := s.loopDepth }
    if s.isStopped then s
    else
      match command with
      | .nothing => s
      | .simple line words rs => (runSimple run go { s with line } words rs).checked
      | .redirected line body rs =>
        match redirectAll run { s with line } rs with
        | .error text => { s with line }.complain 2 text
        | .ok inner => (go body inner).restore s rs
      | .subshell body => (s.afterChild ((go body { s with farewell := "" }).leave run)).checked
      | .background body =>
        (s.afterChild ((go body { s with input := [], farewell := "" }).leave run)).finish 0
      | .pipe first second =>
        let (written, s) := s.collect (go first)
        if s.isOver then s
        else
          let child := go second { s with input := written, farewell := "" }
          { s.afterChild child with input := s.input }.checked
      | .negated body =>
        let s := runTested (go body) s
        if s.isStopped then s else s.finish (if s.status = 0 then 1 else 0)
      | .sequence first second => go second (go first s)
      | .onSuccess first second =>
        let s := runTested (go first) s
        if s.status = 0 then go second s else s
      | .onFailure first second =>
        let s := runTested (go first) s
        if s.status = 0 then s else go second s
      | .conditional test yes no =>
        let s := runTested (go test) s
        if s.status = 0 then go yes s else go no (if s.isStopped then s else s.finish 0)
      | .loop isWhile test body =>
        looped (runLoop isWhile (runTested (go test)) (go body) (fuel + 1) 0) s
      | .each name words body =>
        match (match words with
          | some words => expandWords run s words
          | none => .ok (s.arguments, s)) with
        | .error text => s.abort text
        | .ok (texts, s) => looped (runEach (go body) name texts) (s.finish 0)
      | .choice line subject branches =>
        match (do
          let (text, s) ← expandText run { s with line } subject
          findBranch run text s branches) with
        | .error text => { s with line }.abort text
        | .ok (none, s) => s.finish 0
        | .ok (some body, s) => go body (s.finish 0)
      | .define name body =>
        { s with functions := (name, body) :: s.functions.filter (·.1 != name), status := 0 }

/-- The number of octets that a command must stay below, so that it has fewer levels than that; no
loop may take more turns either. -/
def lengthLimit : Nat := 131072

/-- Runs the lines of a text, each of which uses up fuel. -/
def runLines (run : List Char → State → State) : Nat → Input → State → State
  | 0, _, s => s
  | fuel + 1, i, s =>
    if s.isStopped || (i.left.isEmpty && i.defect.isNone) then s
    else
      match commandLine i with
      | .error e =>
        let s := { s with line := e.line, isOver := true }
        s.complain 2 s!"Syntax error: {e.text}"
      | .ok (command, i) => runLines run fuel i (runCommand run lengthLimit command s)

/-- Runs a text; each level of texts inside texts uses up fuel. -/
def runText : Nat → List Char → State → State
  | 0, _, s => { s with status := 2, isOver := true }
  | fuel + 1, text, s =>
    let (left, defect, lastLine) := tokensOf text
    runLines (runText fuel) (left.length + 2) ⟨left, defect, lastLine⟩ s

/-- What a command left behind. -/
structure Result where
  files : FileSystem
  status : Int
  output : List UInt8
  errors : List UInt8

/-- Runs a command. -/
def run (files : FileSystem) (command : String) : Result :=
  let s := (runText depthLimit command.toList { files }).leave (runText depthLimit)
  ⟨s.files, s.status, s.output, s.errors⟩

end ModuLang.Host.Shell
