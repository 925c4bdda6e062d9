import ModuLang.Library.Files
import ModuLang.Operator

/-!
# The packages `ffi` and `uuid`

A function of a shared library is called with the number of its arguments and the arguments
themselves, which are texts. A result that is a null pointer is null, one that fits in 32 bits is an
integer, and any other is the address of a text.
-/

namespace ModuLang.Library

open Eval

/-- The least integer of 32 bits. -/
def minInt32 : Int := -2147483648

/-- The greatest integer of 32 bits. -/
def maxInt32 : Int := 2147483647

/-- The text of a value that has to be one. -/
def textOf? : Value → Option String
  | .str s => some s
  | _ => none

/-- The value of what a foreign function gave. -/
def ofForeign (result : Host.ForeignResult) : Value :=
  if result.number = 0 then .null
  else if minInt32 ≤ result.number && result.number ≤ maxInt32 then .int result.number
  else .str (Text.decodeUtf8Lenient result.pointee)

/-- Calls a function of a library. -/
def foreignCall (args : List Value) : Eval Value := do
  match args with
  | path :: name :: rest =>
    match textOf? path, textOf? name, rest.mapM textOf? with
    | none, _, _ => fail .libraryNotText
    | _, none, _ => fail .symbolNotText
    | _, _, none => fail .callArgumentNotText
    | some path, some name, some texts =>
      if !isHostText path then crash .unreadableText
      else
        let w ← world
        match w.linker.defect? w.files path with
        | some defect => fail (.libraryUnusable path defect)
        | none =>
          match w.linker.symbol? path name with
          | none => fail (.symbolNotFound name)
          | some run => return ofForeign (run (texts.map Text.encodeUtf8))
  | _ => fail .callTooShort

/-- A random identifier: 128 bits with the marks of its version and variant. -/
def randomIdentifier (high low : UInt64) : String :=
  let high := high.toNat / 65536 * 65536 + 0x4000 + high.toNat % 4096
  let low := low.toNat % 0x4000000000000000 + 0x8000000000000000
  let digits := Text.hexDigits 16 high ++ Text.hexDigits 16 low
  let part (start count : Nat) : String := String.ofList ((digits.drop start).take count)
  "-".intercalate [part 0 8, part 8 4, part 12 4, part 16 4, part 20 12]

/-- Draws random bits. -/
def draw : Eval UInt64 :=
  modifyGet fun m =>
    let (bits, world) := m.world.randomBits
    (bits, { m with world })

/-- A new identifier. -/
def newIdentifier : Eval Value := do
  let high ← draw
  let low ← draw
  return .str (randomIdentifier high low)

end ModuLang.Library
