import ModuLang.Host.Settings
import ModuLang.Library
import ModuLang.Source.Parser

/-!
# Evaluation

`evaluate` takes a node to its value. It is a loop through `evaluateNode`, which evaluates one node
by means of a function for the nodes inside it; each turn uses up one of the levels that the host
can follow, and none left is a stack overflow.

A call of a function works on a clone of the caller's environment, and its arguments are evaluated
in a second clone, so they see none of the parameters. The body of a conditional works on the
environment itself. An error is reported at the innermost node that has a line.
-/

namespace ModuLang

open Eval Host

variable [Host.Limits]

/-- How the nodes inside a node are evaluated. -/
abbrev Evaluator := Config → Node → Eval Value

/-- Refuses a call with a wrong number of arguments. -/
def checkArity (name : String) (params : List String) (count : Nat) : Eval Unit :=
  if accepts params count then pure () else fail (.wrongArity name params.length count)

/-- Evaluates nodes in order. -/
def evaluateAll (ev : Evaluator) (config : Config) : List Node → Eval (List Value)
  | [] => return []
  | node :: rest => do
    let value ← ev config node
    return value :: (← evaluateAll ev config rest)

/-- Runs statements in order and counts each. -/
def runBlock (ev : Evaluator) (config : Config) : List Node → Eval Unit
  | [] => return
  | statement :: rest => do
    countStatement config statement
    let _ ← ev config statement
    runBlock ev config rest

/-- Runs the statements of a function and counts each. A `return` ends the body and gives its value,
unless `passesOver`: then it is evaluated and passed over. -/
def runBody (ev : Evaluator) (config : Config) (passesOver : Bool) : List Node → Eval Value
  | [] => return .null
  | statement :: rest => do
    countStatement config statement
    match ← catchReturn (ev config statement) with
    | .ok _ => runBody ev config passesOver rest
    | .error value => if passesOver then runBody ev config passesOver rest else return value

/-! ### Calls -/

/-- Binds parameters to values; a parameter without value is null. -/
def bindParameters (env : Environment) : List String → List Value → Environment
  | [], _ => env
  | name :: names, [] => bindParameters (env.define name .null) names []
  | name :: names, value :: values => bindParameters (env.define name value) names values

/-- Binds the parameters of a function; further arguments are collected in an array. -/
def bindArguments (env : Environment) (params : List String) (values : List Value) :
    Eval Environment := do
  if isVariadic params then
    let named := params.dropLast
    let rest ← alloc (Object.ofElements (values.drop named.length))
    return (bindParameters env named values).define restParameter rest
  else return bindParameters env params values

/-- Calls a function of the program. -/
def callFunction (ev : Evaluator) (config : Config) (passesOver : Bool) (name : String)
    (params : List String) (body args : List Node) : Eval Value := do
  checkArity name params args.length
  let callEnv ← clone (← env)
  let argEnv ← clone callEnv
  let values ← inside argEnv (evaluateAll ev config args)
  let bodyEnv ← bindArguments callEnv params values
  inside bodyEnv (inFrame config name true (runBody ev config passesOver body))

/-- Calls a native function. -/
def callNative (ev : Evaluator) (config : Config) (f : Native) (args : List Node) : Eval Value := do
  checkArity f.name f.params args.length
  match f.refusal? with
  | some cause => fail cause
  | none => f.apply (← evaluateAll ev config args)

/-- Calls the function that a name is bound to. -/
def callNamed (ev : Evaluator) (config : Config) (name : String) (args : List Node) :
    Eval Value := do
  match (← env).get? name with
  | none => fail (.notFound "Function" name)
  | some (.function fname params body) => callFunction ev config false fname params body args
  | some (.native f) => callNative ev config f args
  | some _ => fail (.notAFunction name)

/-- The object that a property is asked of; a bare name has to be bound. -/
def resolveObject (ev : Evaluator) (config : Config) (node : Node) : Eval Address := do
  let value ←
    match node with
    | .identifier name _ => do
      match (← env).get? name with
      | some value => pure value
      | none => fail (.notFound "Object" name)
    | node => ev config node
  match value with
  | .object a => return a
  | value => fail (.notAnObject (← display value))

/-- The value of a property, and the object that has it. -/
def memberOf (ev : Evaluator) (config : Config) (node : Node) (name : String) :
    Eval (Address × Value) := do
  let a ← resolveObject ev config node
  match (← object a).get? name with
  | some value => return (a, value)
  | none => fail (.notFound "Property" name)

/-- Calls a property. A method gets its object as the first argument. -/
def callMember (ev : Evaluator) (config : Config) (node : Node) (name : String) (args : List Node)
    (line : Int) : Eval Value := do
  let (a, member) ← memberOf ev config node name
  match member with
  | .native f =>
    let isMethod := (← object a).methods.contains name
    callNative ev config f (if isMethod then .literal (.object a) line :: args else args)
  | .function fname params body =>
    callFunction ev config (!config.returnFromMethods) fname params body args
  | _ => fail (.notAFunction name)

/-! ### Imports -/

/-- The ending of a target that names a file. -/
def sourceExtension : String := ".modu"

/-- The directories to import from, besides the one of the importing file. -/
def importRoots (w : World) : List Path :=
  directoriesOf w.searchPath []

/-- The directory that imports are first looked for in. -/
def baseDirectory (config : Config) (w : World) : Path :=
  match config.scriptPath with
  | some p => (p.resolve w.files.workingDirectory).parent
  | none => ⟨"/", w.files.workingDirectory⟩

/-- The first of some paths that leads to a file. A name that is too long is an error. -/
def firstFile? (files : FileSystem) : List Path → Except OsError (Option Path)
  | [] => .ok none
  | p :: ps =>
    match files.find p with
    | .ok (.file _) => .ok (some p)
    | .error .nameTooLong => .error ⟨.nameTooLong, some p.text⟩
    | _ => firstFile? files ps

/-- The file that a target names: the first that is there, or else the one in the first
directory. -/
def resolveSource (config : Config) (w : World) (target : Path) : Except OsError Path := do
  if target.isAbsolute then return target
  else
    let base := baseDirectory config w
    let found ← firstFile? w.files ((base :: importRoots w).map (·.join target))
    return found.getD (base.join target)

/-- The text of a source file. -/
def readSource (p : Path) : Eval String := do
  match (← world).files.read p with
  | .error e => fail (.sourceUnreadable e)
  | .ok bytes =>
    match Library.decodeText bytes with
    | .ok s => return s
    | .error defect => fail (.sourceUndecodable p.text defect)

/-- Runs the statements of a program, and then fails as it does. -/
def runStatements (ev : Evaluator) (config : Config) (failure : Option Failure) :
    List Node → Eval Unit
  | [] =>
    match failure with
    | some failure => throw (.failed failure)
    | none => return
  | statement :: rest => do
    let _ ← ev config statement
    runStatements ev config failure rest

/-- Reports an error of an imported file at the import; a runaway is reported as it is. -/
def blameFile {α : Type} (p : Path) (step : Eval α) : Eval α :=
  tryCatch step fun
    | .failed (.fault f) =>
      if f.cause.family = .recursion then throw (.failed (.fault f))
      else fail (.inFile f.cause p.text f.line)
    | i => throw i

/-- Runs a source file in a clone of the environment and gives what it bound. -/
def loadFile (ev : Evaluator) (config : Config) (target : String) :
    Eval (List (String × Value)) := do
  if !Library.isHostText target then crash .unreadableText
  else
    match resolveSource config (← world) (Path.ofString target) with
    | .error e => crash (.os e)
    | .ok p =>
      let program := Source.parse (← readSource p)
      let moduleEnv ← clone (← env)
      let inner := config.withScript p
      inside moduleEnv do
        blameFile p (inFrame inner p.name false
          (runStatements ev inner program.failure program.statements))
        return (← env).boundSinceCreation

/-- Binds what an import gives: all members with the name `*`, and else one object. -/
def bindImport (asName : Option String) (name : String) (members : List (String × Value)) :
    Eval Unit := do
  if asName == some "*" then modify fun m => { m with env := m.env.update members }
  else
    let chosen := (asName.filter fun a => !a.isEmpty).getD name
    let value ← alloc { properties := Table.ofList members }
    define chosen value

/-- Imports a file or a package. -/
def importTarget (ev : Evaluator) (config : Config) (target : Quotation) (asName : Option String) :
    Eval Unit := do
  let name := Source.unquote target.raw
  if name.endsWith sourceExtension then
    let members ← loadFile ev config name
    bindImport asName (Path.ofString name).stem members
  else
    match importable? config name with
    | none => fail (.packageNotFound name)
    | some members => bindImport asName name members

/-! ### Nodes -/

/-- The names that nothing can be bound to by `let`. -/
def isReservedName (name : String) : Bool :=
  ["let", "fn", "import", "if", "null"].contains name

/-- The properties of an object literal; each holds a copy. -/
def evaluateProperties (ev : Evaluator) (config : Config) :
    List (String × Node) → Eval (List (String × Value))
  | [] => return []
  | (key, node) :: rest => do
    let value ← copyValue (← ev config node)
    return (key, value) :: (← evaluateProperties ev config rest)

/-- Binds a name to a copy of a value; a bare variable has to be bound. -/
def evaluateBinding (ev : Evaluator) (config : Config) (name : String) (node : Node) :
    Eval Unit := do
  if isReservedName name then fail (.reservedName name)
  else
    let value ←
      match node with
      | .identifier source _ => do ofCause ((← env).require "Variable" source)
      | node => ev config node
    define name (← copyValue value)

/-- Evaluates a node by means of a function for the nodes inside it. -/
def evaluateNode (ev : Evaluator) (config : Config) (node : Node) : Eval Value := do
  match node with
  | .literal value _ => return value
  | .text quotation => return .str (Source.unquote quotation.raw)
  | .identifier name _ => return (← env).lookup name
  | .record properties _ =>
    alloc { properties := Table.ofList (← evaluateProperties ev config properties) }
  | .binary op left right _ =>
    let l ← ev config left
    let r ← ev config right
    ofExcept (op.apply (← heap) l r)
  | .isPresent value _ => return .bool (isPresent (← ev config value))
  | .call name args _ => callNamed ev config name args
  | .property node name _ => return (← memberOf ev config node name).2
  | .methodCall node name args line => callMember ev config node name args line
  | .binding name value _ =>
    evaluateBinding ev config name value
    return .null
  | .importing target asName _ =>
    importTarget ev config target asName
    return .null
  | .definition name params body _ =>
    define name (.function name params body)
    return .null
  | .conditional condition body _ =>
    match ← ev config condition with
    | .bool true =>
      runBlock ev config body
      return .null
    | .bool false => return .null
    | _ => fail .conditionNotBoolean
  | .returning none _ => throw (.returned .null)
  | .returning (some value) _ => throw (.returned (← ev config value))
  | .unknown => fail .unknownNode

/-- Evaluates a node that is nested at most the given number of levels deep. -/
def evaluate : Nat → Evaluator
  | 0 => fun _ _ => crash .stackOverflow
  | levels + 1 => fun config node => atLine node.line (evaluateNode (evaluate levels) config node)

end ModuLang
