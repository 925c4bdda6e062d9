import ModuLang.Machine

/-!
# The package `array`

The operations on arrays, carried out in the heap. They take any object, since what makes an object
an array is its properties. What is added to an array is a copy.
-/

namespace ModuLang.Library

open Eval

/-- The address of a value that has to be an object. -/
def arrayAddress (function : String) (v : Value) : Eval Address :=
  match v with
  | .object a => pure a
  | _ => fail (.arrayExpected function)

/-- The element at an index. -/
def arrayAt (array index : Value) : Eval Value := do
  match array, index with
  | .object a, .int i =>
    let key ← ofCause (Number.writeInteger i)
    match (← object a).get? key with
    | some value => return value
    | none => fail .noElement
  | _, _ => fail .atArguments

/-- Adds a copy of a value by an operation on the array. -/
def arrayAdd (function : String) (operation : Object → Value → Except Cause Object)
    (array item : Value) : Eval Value := do
  let a ← arrayAddress function array
  let copy ← copyValue item
  setObject a (← ofCause (operation (← object a) copy))
  return .null

/-- Takes an element away by an operation on the array. -/
def arrayTake (function : String) (operation : Object → Except Cause (Value × Object))
    (array : Value) : Eval Value := do
  let a ← arrayAddress function array
  let (value, changed) ← ofCause (operation (← object a))
  setObject a changed
  return value

/-- Applies a function of the package. -/
def applyArray (f : ArrayFunction) (args : List Value) : Eval Value :=
  match f, args with
  | .new, _ => alloc (Object.ofElements [])
  | .at, [array, index] => arrayAt array index
  | .push, [array, item] => arrayAdd "push" Object.push array item
  | .pop, [array] => arrayTake "pop" Object.pop array
  | .shift, [array] => arrayTake "shift" Object.shift array
  | .unshift, [array, item] => arrayAdd "unshift" Object.unshift array item
  | _, _ => return .null

end ModuLang.Library
