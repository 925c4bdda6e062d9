import ModuLang.Host.Shell.Test
import ModuLang.Text.Lines

/-!
# Utilities of the shell

What can be called by name without starting another shell. A utility works on the state of the shell
that calls it: it reads the standard input, writes to the descriptors, and ends with a status.
-/

namespace ModuLang.Host.Shell

/-! ### Reading and writing text -/

/-- The lines of octets, without their ends. -/
def byteLines (bytes : List UInt8) : List (List UInt8) :=
  let lines := Text.splitAt (10 : UInt8) bytes
  if lines.getLast? = some [] then lines.dropLast else lines

/-- Lines with their ends. -/
def joinLines (lines : List (List UInt8)) : List UInt8 :=
  lines.flatMap (· ++ [10])

/-- What a utility is to read: the files that it is given, or else the standard input. A file that
cannot be read is reported, in the words that `blame` finds for it. -/
def contents (s : State) (blame : String → OsErrorKind → String) (paths : List String) :
    List UInt8 × State :=
  if paths.isEmpty then (s.input, { s with input := [], status := 0 })
  else
    paths.foldl (fun (bytes, s) path =>
      if path = "-" then (bytes ++ s.input, { s with input := [] })
      else
        match s.files.read (.verbatim path) with
        | .ok content => (bytes ++ content, s)
        | .error e => (bytes, s.report 1 (blame path e.kind))) ([], s.finish 0)

/-- Joins the contents of files. -/
def cat (s : State) (args : List String) : State :=
  let (bytes, s) := contents s (fun path kind => s!"cat: {path}: {kind.message}") args
  match if bytes.isEmpty then none else s.obstacle? s.outputSink with
  | some reason => s.report 1 s!"cat: {reason}"
  | none => s.print bytes

/-- The number of lines that an option asks for, and the arguments behind it. -/
def lineCount (args : List String) : Nat × List String :=
  let number (cs : List Char) : Nat := (takeNumber cs).1
  match args with
  | "-n" :: n :: rest => (number n.toList, rest)
  | arg :: rest =>
    match arg.toList with
    | '-' :: 'n' :: digits => (number digits, rest)
    | '-' :: digit :: digits => (number (digit :: digits), rest)
    | _ => (10, args)
  | [] => (10, [])

/-- The error of a utility that wants to read a file. -/
def cannotOpen (utility path : String) (kind : OsErrorKind) : String :=
  s!"{utility}: cannot open '{path}' for reading: {kind.message}"

/-- The first or the last lines of a text. -/
def ends (isHead : Bool) (s : State) (args : List String) : State :=
  let (count, paths) := lineCount args
  let (bytes, s) := contents s (cannotOpen (if isHead then "head" else "tail")) paths
  let lines := byteLines bytes
  let kept := if isHead then lines.take count else lines.drop (lines.length - count)
  s.print (if kept.length = lines.length then bytes else joinLines kept)

/-- The lines of a text in order. -/
def sortLines (s : State) (args : List String) : State :=
  let (isReversed, paths) :=
    match args with
    | "-r" :: paths => (true, paths)
    | paths => (false, paths)
  let (bytes, s) :=
    contents s (fun path kind => s!"sort: cannot read: {path}: {kind.message}") paths
  let lines := (byteLines bytes).mergeSort fun a b => decide (a ≤ b)
  s.print (joinLines (if isReversed then lines.reverse else lines))

/-- Lines without those that are equal to the line before. -/
def withoutRepeats : List (List UInt8) → List (List UInt8)
  | a :: b :: lines =>
    let rest := withoutRepeats (b :: lines)
    if a == b then rest else a :: rest
  | lines => lines

/-- The lines of a text without repetitions. -/
def uniqueLines (s : State) (args : List String) : State :=
  let (bytes, s) := contents s (fun path kind => s!"uniq: {path}: {kind.message}") args
  s.print (joinLines (withoutRepeats (byteLines bytes)))

/-- The lines of a text, each from its last character to its first. -/
def reverseLines (s : State) (args : List String) : State :=
  let (bytes, s) := contents s (fun path kind => s!"rev: cannot open {path}: {kind.message}") args
  let reversed (line : List UInt8) : List UInt8 :=
    Text.encodeUtf8 (String.ofList (Text.decodeUtf8Lenient line).toList.reverse)
  s.print (joinLines ((byteLines bytes).map reversed))

/-- The number of words in octets. -/
def wordCount (bytes : List UInt8) : Nat :=
  let blank (b : UInt8) : Bool := b == 32 || (9 ≤ b && b ≤ 13)
  let (count, _) := bytes.foldl (fun (count, isInside) b =>
    if blank b then (count, false) else (if isInside then count else count + 1, true)) (0, false)
  count

/-- Counts lines, words or octets. -/
def count (s : State) (args : List String) : State :=
  let (flags, paths) := args.partition fun arg => arg.startsWith "-" && arg != "-"
  let (bytes, s) := contents s (fun path kind => s!"wc: {path}: {kind.message}") paths
  let counts :=
    match flags with
    | ["-l"] => [bytes.count 10]
    | ["-w"] => [wordCount bytes]
    | ["-c"] => [bytes.length]
    | ["-m"] => [(Text.decodeUtf8Lenient bytes).length]
    | _ => [bytes.count 10, wordCount bytes, bytes.length]
  let width := if counts.length = 1 then 0 else if paths.isEmpty then 7
    else (toString bytes.length).length
  let shown := counts.map fun n =>
    String.ofList (List.replicate (width - (toString n).length) ' ') ++ toString n
  s.printLine (" ".intercalate (shown ++ paths.take 1))

/-- The characters that a set of `tr` names: single ones, escapes and ranges. -/
def characterSet : List Char → List Char
  | '\\' :: 'n' :: cs => '\n' :: characterSet cs
  | '\\' :: 't' :: cs => '\t' :: characterSet cs
  | a :: '-' :: b :: cs =>
    (List.range (b.toNat + 1 - a.toNat)).map (fun i => Char.ofNat (a.toNat + i)) ++ characterSet cs
  | c :: cs => c :: characterSet cs
  | [] => []

/-- Replaces or removes characters. -/
def replaceCharacters (s : State) (args : List String) : State :=
  let (bytes, s) := contents s (fun _ kind => kind.message) []
  let cs := (Text.decodeUtf8Lenient bytes).toList
  match args with
  | ["-d", set] =>
    let removed := characterSet set.toList
    s.print (Text.encodeUtf8 (String.ofList (cs.filter fun c => !removed.contains c)))
  | [old, new] =>
    let sources := characterSet old.toList
    let targets := characterSet new.toList
    let replaced := cs.map fun c =>
      match sources.idxOf? c with
      | some i => (targets[i]?).getD (targets.getLastD c)
      | none => c
    s.print (Text.encodeUtf8 (String.ofList replaced))
  | _ => s.report 1 "tr: missing operand"

/-- The whole numbers of a range, one a line. -/
def sequenceOf (s : State) (args : List String) : State :=
  let range (first last : Int) : State :=
    (List.range (last + 1 - first).toNat).foldl
      (fun s (i : Nat) => s.printLine (toString (first + i))) (s.finish 0)
  match args.map integerOf with
  | [(last, true)] => range 1 last
  | [(first, true), (last, true)] => range first last
  | _ => s.report 1 "seq: missing operand"

/-- Reads a line into parameters: a field for each name, and what is left for the last. -/
def readLine (s : State) (names : List String) : State :=
  let names := names.filter (· != "-r")
  if s.input.isEmpty then (names.foldl (fun s name => s.assign name "") s).finish 1
  else
    let line := s.input.takeWhile (· != 10)
    let rest := s.input.drop (line.length + 1)
    let hasEnd := line.length < s.input.length
    let isBlank (c : Char) : Bool := c == ' ' || c == '\t'
    let trim (cs : List Char) : List Char :=
      ((cs.dropWhile isBlank).reverse.dropWhile isBlank).reverse
    let (s, _) := names.foldl (fun (acc : State × List Char × Nat) name =>
      let (s, left, following) := acc
      let left := trim left
      if following = 0 then (s.assign name (String.ofList left), [], 0)
      else (s.assign name (String.ofList (left.takeWhile (!isBlank ·))),
        left.dropWhile (!isBlank ·), following - 1))
      ({ s with input := rest }, (Text.decodeUtf8Lenient line).toList, names.length - 1)
    s.finish (if hasEnd then 0 else 1)

/-! ### Files -/

/-- The paths of a command, and whether a letter is among its options. -/
def splitOptions (args : List String) : List String × (Char → Bool) :=
  let (options, paths) := args.partition fun arg => arg.startsWith "-" && arg != "-"
  (paths, fun letter => options.any fun option => option.toList.contains letter)

/-- The last name of a path text. -/
def lastName (path : String) : String :=
  let name := (Path.ofString path).name
  if name.isEmpty then path else name

/-- Lists directories. -/
def listFiles (s : State) (args : List String) : State :=
  let (paths, has) := splitOptions args
  let paths := if paths.isEmpty then ["."] else paths
  paths.foldl (fun s path =>
    match s.files.locate (.verbatim path) with
    | .error kind => s.report 2 s!"ls: cannot access '{path}': {kind.message}"
    | .ok place =>
      match s.files.lookup place with
      | none => s.report 2 s!"ls: cannot access '{path}': No such file or directory"
      | some .directory =>
        let names := (s.files.children place).filter fun name => has 'a' || !name.startsWith "."
        (if has 'a' then [".", ".."] ++ names else names).foldl State.printLine s
      | some _ => s.printLine path) (s.finish 0)

/-- Makes directories. -/
def makeDirectory (s : State) (args : List String) : State :=
  let (paths, has) := splitOptions args
  paths.foldl (fun s path =>
    let refuse (reason : String) : State :=
      s.report 1 s!"mkdir: cannot create directory '{path}': {reason}"
    match s.files.locate (Path.ofString path) with
    | .error kind =>
      if has 'p' && kind = .missing then
        let p := Path.ofString path
        let base := if p.isAbsolute then [] else s.files.workingDirectory
        { s with files := s.files.makeDirectories (base ++ p.parts) }
      else refuse kind.message
    | .ok place =>
      match s.files.lookup place with
      | none => { s with files := s.files.put place .directory }
      | some entry =>
        if has 'p' && entry == .directory then s else refuse "File exists") (s.finish 0)

/-- Removes files. -/
def removeFiles (s : State) (args : List String) : State :=
  let (paths, has) := splitOptions args
  paths.foldl (fun s path =>
    let refuse (reason : String) : State := s.report 1 s!"rm: cannot remove '{path}': {reason}"
    let missing (kind : OsErrorKind) : State := if has 'f' then s else refuse kind.message
    match s.files.locate (Path.ofString path) with
    | .error kind => missing kind
    | .ok place =>
      match s.files.lookup place with
      | none => missing .missing
      | some .directory =>
        if has 'r' || has 'R' then { s with files := s.files.removeAll place }
        else refuse "Is a directory"
      | some _ => { s with files := s.files.remove place }) (s.finish 0)

/-- Makes files that are not there. -/
def touch (s : State) (args : List String) : State :=
  args.foldl (fun s path =>
    match s.files.locate (Path.ofString path) with
    | .error kind => s.report 1 s!"touch: cannot touch '{path}': {kind.message}"
    | .ok place =>
      if (s.files.lookup place).isSome then s
      else { s with files := s.files.put place (.file []) }) (s.finish 0)

/-- Copies a file, or moves it. -/
def copyFile (isMoved : Bool) (s : State) (args : List String) : State :=
  let utility := if isMoved then "mv" else "cp"
  match args with
  | [source, target] =>
    let missing : State :=
      s.report 1 s!"{utility}: cannot stat '{source}': No such file or directory"
    match s.files.locate (Path.ofString source), s.files.locate (Path.ofString target) with
    | .ok start, .ok goal =>
      match s.files.lookup start with
      | none => missing
      | some .directory => s.report 1 s!"{utility}: -r not specified; omitting directory '{source}'"
      | some _ =>
        let goal :=
          if s.files.lookup goal = some .directory then goal ++ [lastName source] else goal
        match s.files.store goal (s.files.contentAt start) with
        | .error e => s.report 1 s!"{utility}: error writing '{target}': {e.kind.message}"
        | .ok files =>
          let files := if isMoved && goal != start then files.remove start else files
          { s with files, status := 0 }
    | .error _, _ => missing
    | _, .error kind =>
      s.report 1 s!"{utility}: cannot create regular file '{target}': {kind.message}"
  | _ => s.report 1 s!"{utility}: missing file operand"

/-- Changes the working directory. A dash stands for the one before, which is then shown. -/
def changeDirectory (s : State) (args : List String) : State :=
  match args with
  | [] => s.finish 0
  | arg :: _ =>
    let isBack := arg = "-"
    let path := if isBack then (s.parameter? "OLDPWD").getD (s.parameter "PWD") else arg
    let refuse : State := s.complain 2 s!"cd: can't cd to {path}"
    match s.files.locate (Path.ofString path) with
    | .error _ => refuse
    | .ok place =>
      if s.files.lookup place = some .directory then
        let s := s.assign "OLDPWD" (s.parameter "PWD")
        let s := { s with files.workingDirectory := place }.assign "PWD" (State.placeText place)
        (if isBack then s.printLine (State.placeText place) else s).finish 0
      else refuse

/-- Removes directories that hold nothing. -/
def removeDirectories (s : State) (args : List String) : State :=
  args.foldl (fun s path =>
    let refuse (reason : String) : State :=
      s.report 1 s!"rmdir: failed to remove '{path}': {reason}"
    match s.files.locate (Path.ofString path) with
    | .error kind => refuse kind.message
    | .ok place =>
      match s.files.lookup place with
      | none => refuse OsErrorKind.missing.message
      | some .directory =>
        if (s.files.children place).isEmpty then { s with files := s.files.remove place }
        else refuse "Directory not empty"
      | some _ => refuse OsErrorKind.notADirectory.message) (s.finish 0)

/-- Writes what it reads to files as well. -/
def tee (s : State) (args : List String) : State :=
  let (paths, has) := splitOptions args
  let (bytes, s) := contents s (fun _ kind => kind.message) []
  paths.foldl (fun s path =>
    let refuse (kind : OsErrorKind) : State := s.report 1 s!"tee: {path}: {kind.message}"
    match s.files.openForWriting (.verbatim path) with
    | .error e => refuse e.kind
    | .ok place =>
      let before := if has 'a' then s.files.contentAt place else []
      match s.files.store place (before ++ bytes) with
      | .error e => refuse e.kind
      | .ok files => { s with files }) (s.print bytes)

/-! ### Tests -/

/-- Runs a test, called by one of its two names. -/
def test (s : State) (name : String) (args : List String) : State :=
  match Test.holds s args with
  | .ok holds => s.finish (if holds then 0 else 1)
  | .error reason => s.complain 2 s!"{name}: {reason}"

/-! ### The shell itself -/

/-- Ends the shell. -/
def exitShell (s : State) (args : List String) : State :=
  match args with
  | [] => { s with isOver := true }
  | arg :: _ =>
    let s := { s with isOver := true }
    if !arg.isEmpty && arg.toList.all Text.isBasicDigit then s.finish ((integerOf arg).1 % 256)
    else s.complain 2 s!"exit: Illegal number: {arg}"

/-- The number of a signal, by its number or its name. -/
def signal? (text : String) : Option Nat :=
  match text with
  | "HUP" => some 1
  | "INT" => some 2
  | "QUIT" => some 3
  | "KILL" => some 9
  | "TERM" => some 15
  | _ =>
    let (n, isWhole) := integerOf text
    if isWhole && 0 ≤ n then some n.toNat else none

/-- Ends the shell from outside: the status is the number of the signal below zero. -/
def kill (s : State) (args : List String) : State :=
  let (signal, targets) :=
    match args with
    | "-s" :: name :: targets => (signal? name, targets)
    | arg :: targets =>
      if arg.startsWith "-" then (signal? (String.ofList (arg.toList.drop 1)), targets)
      else (some 15, args)
    | [] => (none, [])
  match signal with
  | some n =>
    if targets.contains processNumber && n != 0 then
      { s with status := -(n : Int), isOver := true, isKilled := true }
    else s.finish 0
  | none => s.complain 2 "kill: Usage: kill [-s sigspec | -signum | -sigspec] [pid | job]..."

/-- The names of arguments that assign, each with its value if it has one. -/
def assignmentOf (arg : String) : String × Option String :=
  match Text.splitAt '=' arg.toList with
  | name :: value :: more =>
    (String.ofList name, some ("=".intercalate ((value :: more).map String.ofList)))
  | _ => (arg, none)

/-- Makes parameters known to other programs, and assigns the values that are given with names. -/
def exportNames (s : State) (args : List String) : State :=
  args.foldl (fun s arg =>
    let (name, value?) := assignmentOf arg
    let s := { s with exported := name :: s.exported }
    match value? with
    | some value => s.assign name value
    | none => s) (s.finish 0)

/-- Hides the values of parameters until the function that is being run ends. -/
def hideNames (s : State) (args : List String) : State :=
  match s.hidden with
  | [] => s.abort "local: not in a function"
  | innermost :: outer =>
    let named := args.map assignmentOf
    let before := named.map fun (name, _) => (name, s.parameter? name)
    named.foldl (fun s (name, value?) =>
      match value? with
      | some value => s.assign name value
      | none => s) { s with hidden := (before ++ innermost) :: outer, status := 0 }

/-- The number that a command of the shell is given; one stands for none. -/
def countOf? (args : List String) : Except String Nat :=
  match args with
  | [] => .ok 1
  | arg :: _ =>
    if !arg.isEmpty && arg.toList.all Text.isBasicDigit then .ok (integerOf arg).1.toNat
    else .error s!"Illegal number: {arg}"

/-- Leaves loops, or goes on with the next turn of one. Outside loops it does nothing. -/
def leaveLoops (s : State) (name : String) (args : List String) : State :=
  match countOf? args with
  | .error reason => s.abort s!"{name}: {reason}"
  | .ok 0 => s.abort s!"{name}: Illegal number: 0"
  | .ok n =>
    let count := min n s.loopDepth
    let jump := if name = "break" then Jump.endLoops count else .nextTurn count
    { s with status := 0, jump := if count = 0 then none else some jump }

/-- Leaves the function that is being run, or else the shell. -/
def leaveFunction (s : State) (args : List String) : State :=
  if s.hidden.isEmpty then exitShell s args
  else
    match args with
    | [] => { s with jump := some .endFunction }
    | _ =>
      match countOf? args with
      | .error reason => s.abort s!"return: {reason}"
      | .ok n => { s with status := n % 256, jump := some .endFunction }

/-- Drops the first arguments of the shell. -/
def shiftArguments (s : State) (args : List String) : State :=
  match countOf? args with
  | .error reason => s.abort s!"shift: {reason}"
  | .ok n =>
    if s.arguments.length < n then s.abort "shift: can't shift that many"
    else { s with arguments := s.arguments.drop n, status := 0 }

/-- Sets the options and the arguments of the shell. -/
def setOptions (s : State) : List String → State
  | [] => s.finish 0
  | "--" :: args => { s with arguments := args, status := 0 }
  | "-e" :: rest => setOptions { s with endsOnFailure := true } rest
  | "+e" :: rest => setOptions { s with endsOnFailure := false } rest
  | "-u" :: rest => setOptions { s with refusesUnset := true } rest
  | "+u" :: rest => setOptions { s with refusesUnset := false } rest
  | "-eu" :: rest | "-ue" :: rest =>
    setOptions { s with endsOnFailure := true, refusesUnset := true } rest
  | args => { s with arguments := args, status := 0 }

/-- Keeps a text that is run when the shell ends. -/
def setFarewell (s : State) (args : List String) : State :=
  match args with
  | [text, "EXIT"] | [text, "0"] =>
    { s with farewell := if text = "-" then "" else text, status := 0 }
  | _ => s.finish 0

/-- The last name of a path, without a given ending. -/
def baseName (s : State) (args : List String) : State :=
  let name := lastName (args.headD "")
  let ending := (args[1]?).getD ""
  let shown :=
    if name.endsWith ending && name != ending then
      String.ofList (name.toList.take (name.length - ending.length))
    else name
  (s.printLine shown).finish 0

/-- Writes octets for a command of the shell itself. -/
def emit (s : State) (name : String) (bytes : List UInt8) : State :=
  if !bytes.isEmpty && (s.obstacle? s.outputSink).isSome then
    s.complain 1 s!"{name}: {name}: I/O error"
  else (s.print bytes).finish 0

/-- Runs a utility, if there is one of that name. -/
def utility? (s : State) (name : String) (args : List String) : Option State :=
  match name with
  | "echo" => some (emit s name (echo args))
  | "printf" =>
    match args with
    | [] => some (s.complain 2 "printf: usage: printf format [arg ...]")
    | format :: args =>
      let (bytes, complaints) := printf format.toList (args.length + 1) args
      some (complaints.foldl (fun s text => s.complain 1 s!"printf: {text}") (emit s name bytes))
  | "true" | ":" | "sleep" | "wait" => some (s.finish 0)
  | "false" => some (s.finish 1)
  | "exit" => some (exitShell s args)
  | "return" => some (leaveFunction s args)
  | "break" | "continue" => some (leaveLoops s name args)
  | "shift" => some (shiftArguments s args)
  | "set" => some (setOptions s args)
  | "trap" => some (setFarewell s args)
  | "kill" => some (kill s args)
  | "export" => some (exportNames s args)
  | "local" => some (hideNames s args)
  | "unset" => some { s with parameters := s.parameters.filter (!args.contains ·.1), status := 0 }
  | "read" => some (readLine s args)
  | "cd" => some (changeDirectory s args)
  | "pwd" => some ((s.printLine (State.placeText s.files.workingDirectory)).finish 0)
  | "test" => some (test s name args)
  | "[" =>
    if args.getLast? = some "]" then some (test s name args.dropLast)
    else some (s.complain 2 "[: missing ]")
  | "cat" => some (cat s args)
  | "head" => some (ends true s args)
  | "tail" => some (ends false s args)
  | "sort" => some (sortLines s args)
  | "wc" => some (count s args)
  | "tr" => some (replaceCharacters s args)
  | "seq" => some (sequenceOf s args)
  | "basename" => some (baseName s args)
  | "dirname" => some ((s.printLine (Path.ofString (args.headD "")).parent.text).finish 0)
  | "ls" => some (listFiles s args)
  | "mkdir" => some (makeDirectory s args)
  | "rmdir" => some (removeDirectories s args)
  | "tee" => some (tee s args)
  | "uniq" => some (uniqueLines s args)
  | "rev" => some (reverseLines s args)
  | "rm" => some (removeFiles s args)
  | "touch" => some (touch s args)
  | "cp" => some (copyFile false s args)
  | "mv" => some (copyFile true s args)
  | _ => none

end ModuLang.Host.Shell
