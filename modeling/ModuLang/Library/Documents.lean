import ModuLang.Json.Reader
import ModuLang.Json.Writer
import ModuLang.Machine

/-!
# The package `json`

Making, reading and writing objects as JSON documents. The objects made here carry a method `set`,
which gives a property a value and gives the object back.
-/

namespace ModuLang.Library

open Eval

variable [Host.Limits]

/-- Gives a property of an object a copy of a value. -/
def jsonSet (receiver key value : Value) : Eval Value := do
  match receiver, key with
  | .object a, .str key =>
    if (← object a).methods.contains key then fail (.setMethod key)
    else
      let copy ← copyValue value
      setObject a ((← object a).set key copy)
      return receiver
  | .object _, _ => fail .setKeyNotText
  | _, _ => fail .setReceiver

/-- The document of an object, as a text. -/
def jsonStringify (v : Value) : Eval Value := do
  match v with
  | .object _ =>
    let document ← ofExcept (Json.ofValue (← heap) stackLimit v)
    return .str (← ofCause document.write)
  | _ => fail .stringifyArgument

/-- The value of a text that is a document with an object or an array at its root. -/
def jsonParse (v : Value) : Eval Value := do
  match v with
  | .str text =>
    match ← ofExcept (Json.parse text) with
    | .array items => modifyGet fun m =>
        let (value, h) := (Json.array items).build m.heap
        (value, { m with heap := h })
    | .object members => modifyGet fun m =>
        let (value, h) := (Json.object members).build m.heap
        (value, { m with heap := h })
    | _ => fail .jsonScalar
  | _ => fail .parseArgument

/-- Applies a function of the package. -/
def applyJson (f : JsonFunction) (args : List Value) : Eval Value :=
  match f, args with
  | .new, _ => alloc (Json.record [])
  | .stringify, [v] => jsonStringify v
  | .parse, [v] => jsonParse v
  | .set, [receiver, key, value] => jsonSet receiver key value
  | _, _ => return .null

end ModuLang.Library
