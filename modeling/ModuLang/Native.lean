/-!
# Native functions

The functions that a program does not define itself: the builtins, which every program sees, and
the members of the packages that it can import. A native function is a name of one of them; its
parameters are listed here, what it does is in the modules named after the packages.

`input` and `exit` remember whether they were made for a server, where they are refused.
-/

namespace ModuLang

/-- The functions that need no import. -/
inductive Builtin where
  | print
  | input (onServer : Bool)
  | exit (onServer : Bool)
  | int
  | float
  | str
  deriving DecidableEq, Repr

/-- The functions of the package `math`. -/
inductive MathFunction where
  | div
  | abs
  | pow
  | sqrt
  | floor
  | ceil
  | round
  | max
  | min
  | random
  deriving DecidableEq, Repr

/-- The functions of the package `file`. -/
inductive FileFunction where
  | read
  | write
  | writeAppend
  deriving DecidableEq, Repr

/-- The functions of the package `time`. -/
inductive TimeFunction where
  | now
  | toIso8601
  | toLocalDateTime
  deriving DecidableEq, Repr

/-- The functions of the package `json`; `set` is the method that its objects carry. -/
inductive JsonFunction where
  | new
  | stringify
  | parse
  | set
  deriving DecidableEq, Repr

/-- The functions of the package `array`. -/
inductive ArrayFunction where
  | new
  | at
  | push
  | pop
  | shift
  | unshift
  deriving DecidableEq, Repr

/-- A native function. -/
inductive Native where
  | builtin (function : Builtin)
  | math (function : MathFunction)
  | file (function : FileFunction)
  | time (function : TimeFunction)
  | json (function : JsonFunction)
  | array (function : ArrayFunction)
  | exec
  | uuid
  | call
  deriving DecidableEq, Repr

/-- The last parameter of a function that takes any number of further arguments. -/
def restParameter : String := "__args__"

/-- The name and the parameters of a builtin. -/
def Builtin.signature : Builtin → String × List String
  | .print => ("print", [restParameter])
  | .input _ => ("input", [restParameter])
  | .exit _ => ("exit", [])
  | .int => ("int", ["value"])
  | .float => ("float", ["value"])
  | .str => ("str", ["value"])

/-- The name and the parameters of a function of `math`. -/
def MathFunction.signature : MathFunction → String × List String
  | .div => ("div", ["a", "b"])
  | .abs => ("abs", ["x"])
  | .pow => ("pow", ["base", "exponent"])
  | .sqrt => ("sqrt", ["x"])
  | .floor => ("floor", ["x"])
  | .ceil => ("ceil", ["x"])
  | .round => ("round", ["x"])
  | .max => ("max", [restParameter])
  | .min => ("min", [restParameter])
  | .random => ("random", [])

/-- The name and the parameters of a function of `file`. -/
def FileFunction.signature : FileFunction → String × List String
  | .read => ("read", ["path"])
  | .write => ("write", ["path", "content"])
  | .writeAppend => ("write_append", ["path", "content"])

/-- The name and the parameters of a function of `time`. -/
def TimeFunction.signature : TimeFunction → String × List String
  | .now => ("now", [])
  | .toIso8601 => ("to_iso_8601", ["unix"])
  | .toLocalDateTime => ("to_local_date_time", ["unix"])

/-- The name and the parameters of a function of `json`. -/
def JsonFunction.signature : JsonFunction → String × List String
  | .new => ("new", [])
  | .stringify => ("stringify", ["object"])
  | .parse => ("parse", ["string"])
  | .set => ("set", ["self", "key", "value"])

/-- The name and the parameters of a function of `array`. -/
def ArrayFunction.signature : ArrayFunction → String × List String
  | .new => ("new", [])
  | .at => ("at", ["array", "index"])
  | .push => ("push", ["array", "value"])
  | .pop => ("pop", ["array"])
  | .shift => ("shift", ["array"])
  | .unshift => ("unshift", ["array", "value"])

/-- The name and the parameters of a native function. -/
def Native.signature : Native → String × List String
  | .builtin f => f.signature
  | .math f => f.signature
  | .file f => f.signature
  | .time f => f.signature
  | .json f => f.signature
  | .array f => f.signature
  | .exec => ("exec", ["command"])
  | .uuid => ("v4", [])
  | .call => ("call", [restParameter])

/-- The name of a native function. -/
def Native.name (f : Native) : String :=
  f.signature.1

/-- The parameters of a native function. -/
def Native.params (f : Native) : List String :=
  f.signature.2

/-- Whether a list of parameters ends in the one that takes any number of arguments. -/
def isVariadic (params : List String) : Bool :=
  params.getLast? == some restParameter

/-- Whether a function with these parameters takes that many arguments. -/
def accepts (params : List String) (count : Nat) : Bool :=
  isVariadic params || count == params.length

end ModuLang
