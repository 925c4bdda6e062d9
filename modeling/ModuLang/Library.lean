import ModuLang.Library.Arithmetic
import ModuLang.Library.Arrays
import ModuLang.Library.Calendar
import ModuLang.Library.Conversion
import ModuLang.Library.Documents
import ModuLang.Library.Files
import ModuLang.Library.Foreign

/-!
# Native functions and packages

`Native.apply` is what a native function does with the values of its arguments, of which there are
as many as it takes. `Native.refusal?` says which functions refuse before their arguments are looked
at. The packages list the functions that an import makes available.
-/

namespace ModuLang

open Eval Library

/-- Why a function refuses to be called, whatever its arguments. -/
def Native.refusal? : Native → Option Cause
  | .builtin (.input true) => some .inputDisabled
  | .builtin (.exit true) => some .exitDisabled
  | _ => none

/-- The display forms of some values, one behind the other. -/
def displayAll (vs : List Value) : Eval String := do
  return "".intercalate (← vs.mapM display)

/-- Applies a builtin. -/
def Builtin.apply (f : Builtin) (args : List Value) : Eval Value :=
  match f, args with
  | .print, args => do
    write ((← displayAll args) ++ "\n")
    return .null
  | .input _, args => do
    write (← displayAll args)
    let (line, w) := (← world).readLine
    setWorld w
    return .str (Text.trim line)
  | .exit _, _ => throw .exited
  | .int, [v] => ofExcept (toInt v)
  | .float, [v] => ofExcept (toFloat v)
  | .str, [v] => do ofExcept (toStr (← heap) v)
  | _, _ => return .null

/-- Applies a function of `math`. -/
def MathFunction.apply (f : MathFunction) (args : List Value) : Eval Value :=
  match f, args with
  | .div, [a, b] => ofExcept (quotient a b)
  | .abs, [x] => ofExcept (magnitude x)
  | .pow, [base, exponent] => ofExcept (power base exponent)
  | .sqrt, [x] => ofExcept (squareRoot x)
  | .floor, [x] => ofExcept (makeWhole "floor" .floor x)
  | .ceil, [x] => ofExcept (makeWhole "ceil" .ceiling x)
  | .round, [x] => ofExcept (makeWhole "round" .halfEven x)
  | .max, xs => ofExcept (greatest xs)
  | .min, xs => ofExcept (least xs)
  | .random, _ => do return .float (unitFloat (← draw))
  | _, _ => return .null

/-- Applies a function of `time`. -/
def TimeFunction.apply (f : TimeFunction) (args : List Value) : Eval Value :=
  match f, args with
  | .now, _ => do return .int (← world).clock
  | .toIso8601, [v] => do return .str (isoText (← ofExcept (timestamp "to_iso_8601" v)))
  | .toLocalDateTime, [v] => do
    return .str (longText (← ofExcept (timestamp "to_local_date_time" v)))
  | _, _ => return .null

variable [Host.Limits]

/-- Applies a native function to as many values as it takes. -/
def Native.apply (f : Native) (args : List Value) : Eval Value :=
  match f, args with
  | .builtin f, args => f.apply args
  | .math f, args => f.apply args
  | .file f, args => applyFile f args
  | .time f, args => f.apply args
  | .json f, args => applyJson f args
  | .array f, args => applyArray f args
  | .exec, [command] => execute command
  | .exec, _ => return .null
  | .uuid, _ => newIdentifier
  | .call, args => foreignCall args

/-- The builtins of a program with the given configuration, in order. -/
def builtins (config : Config) : List (String × Value) :=
  [Builtin.print, .input config.onServer, .exit config.onServer, .int, .float, .str].map fun f =>
    (f.signature.1, .native (.builtin f))

/-- Natives under their own names. -/
def byName (fs : List Native) : List (String × Value) :=
  fs.map fun f => (f.name, .native f)

/-- The ratio of a circle's circumference to its diameter. -/
def circleRatio : Float := Float.ofBits 0x400921FB54442D18

/-- The base of the natural logarithm. -/
def naturalBase : Float := Float.ofBits 0x4005BF0A8B145769

/-- The members of a package, in order. -/
def packageMembers? (name : String) : Option (List (String × Value)) :=
  match name with
  | "math" =>
    some (byName ([MathFunction.div, .abs, .pow, .sqrt, .floor, .ceil, .round, .max, .min,
      .random].map Native.math) ++ [("PI", .float circleRatio), ("E", .float naturalBase)])
  | "file" => some (byName ([FileFunction.read, .write, .writeAppend].map Native.file))
  | "os" => some (byName [.exec])
  | "time" => some (byName ([TimeFunction.now, .toIso8601, .toLocalDateTime].map Native.time))
  | "json" => some (byName ([JsonFunction.new, .stringify, .parse].map Native.json))
  | "array" =>
    some (byName ([ArrayFunction.new, .at, .push, .pop, .shift, .unshift].map Native.array))
  | "uuid" => some (byName [.uuid])
  | "ffi" => some (byName [.call])
  | _ => none

/-- The packages that would let a program touch the files of the host. -/
def isRefusedOnServer (name : String) : Bool :=
  name == "file"

/-- The members of a package that a program with the given configuration may import. -/
def importable? (config : Config) (name : String) : Option (List (String × Value)) :=
  if config.onServer && isRefusedOnServer name then none else packageMembers? name

end ModuLang
