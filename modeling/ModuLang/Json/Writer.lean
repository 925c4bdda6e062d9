import ModuLang.Display
import ModuLang.Json.Basic
import ModuLang.Text.Quoted

/-!
# Writing JSON

The compact form: nothing stands between the parts of a document but commas and colons, and a
character is escaped only where it must be.

`Json.ofValue` takes the document of a value, which leaves out methods and refuses functions. It
follows the value as deep as the given number of levels, so it ends on values that contain
themselves as well.
-/

namespace ModuLang

/-- One character of a string. -/
def Json.escapeChar (c : Char) : List Char :=
  if c = '"' then ['\\', '"']
  else if c = '\\' then ['\\', '\\']
  else if c = '\n' then ['\\', 'n']
  else if c = '\r' then ['\\', 'r']
  else if c = '\t' then ['\\', 't']
  else if c = '\x0c' then ['\\', 'f']
  else if c = '\x08' then ['\\', 'b']
  else if c.toNat < 0x20 then '\\' :: 'u' :: Text.hexDigits 4 c.toNat
  else [c]

/-- A string between its quotes. -/
def Json.writeString (s : String) : String :=
  String.ofList ('"' :: s.toList.flatMap Json.escapeChar ++ ['"'])

mutual

/-- The compact form of a document. -/
def Json.text : Json → String
  | .null => "null"
  | .bool b => if b then "true" else "false"
  | .int n => toString n
  | .float x => Number.floatText "NaN" "Infinity" x
  | .str s => Json.writeString s
  | .array items => "[" ++ ",".intercalate (Json.itemTexts items) ++ "]"
  | .object members => "\x7b" ++ ",".intercalate (Json.memberTexts members) ++ "\x7d"

/-- The compact forms of the items of an array. -/
def Json.itemTexts : List Json → List String
  | [] => []
  | item :: rest => item.text :: Json.itemTexts rest

/-- The compact forms of the members of an object. -/
def Json.memberTexts : List (String × Json) → List String
  | [] => []
  | (name, value) :: rest => (Json.writeString name ++ ":" ++ value.text) :: Json.memberTexts rest

end

mutual

/-- Whether all integers in a document have few enough digits to be written. -/
def Json.isWritable : Json → Bool
  | .int n => Number.isWritable n
  | .array items => Json.areItemsWritable items
  | .object members => Json.areMembersWritable members
  | _ => true

/-- Whether all integers in the items of an array have few enough digits to be written. -/
def Json.areItemsWritable : List Json → Bool
  | [] => true
  | item :: rest => item.isWritable && Json.areItemsWritable rest

/-- Whether all integers in the members of an object have few enough digits to be written. -/
def Json.areMembersWritable : List (String × Json) → Bool
  | [] => true
  | (_, value) :: rest => value.isWritable && Json.areMembersWritable rest

end

/-- Writes a document in its compact form. -/
def Json.write (j : Json) : Except Cause String :=
  if j.isWritable then .ok j.text else .error (.givenUp .unreadableText)

/-- The document of a value that is nested at most the given number of levels deep. -/
def Json.ofValue (h : Heap) : Nat → Value → Except Failure Json
  | 0, _ => .error (.crash .stackOverflow)
  | levels + 1, v => do
    match v with
    | .null => return .null
    | .bool b => return .bool b
    | .int n => return .int n
    | .float x => return .float x
    | .str s => return .str s
    | .object a =>
      let o := h.get a
      if o.isArray then
        match o.elements with
        | .error cause => .error cause.failure
        | .ok items => return .array (← items.mapM (Json.ofValue h levels))
      else
        let members ← o.plainEntries.mapM fun entry => do
          return (entry.1, ← Json.ofValue h levels entry.2)
        return .object members
    | v =>
      match h.display v with
      | .error cause => .error cause.failure
      | .ok shown => .error (.fault ⟨.cannotEncode shown, 0⟩)

/-- The object of a document's members: it carries the method that sets a member. -/
def Json.record (members : List (String × Value)) : Object where
  properties := (Table.ofList members).insert "set" (.native (.json .set))
  methods := ["set"]

mutual

/-- Makes the value of a document in a heap. -/
def Json.build (h : Heap) : Json → Value × Heap
  | .null => (.null, h)
  | .bool b => (.bool b, h)
  | .int n => (.int n, h)
  | .float x => (.float x, h)
  | .str s => (.str s, h)
  | .array items =>
    let (values, h) := Json.buildItems h items
    let (a, h) := h.alloc (Object.ofElements values)
    (.object a, h)
  | .object members =>
    let (entries, h) := Json.buildMembers h members
    let (a, h) := h.alloc (Json.record entries)
    (.object a, h)

/-- Makes the values of the items of an array. -/
def Json.buildItems (h : Heap) : List Json → List Value × Heap
  | [] => ([], h)
  | item :: rest =>
    let (value, h) := item.build h
    let (values, h) := Json.buildItems h rest
    (value :: values, h)

/-- Makes the values of the members of an object. -/
def Json.buildMembers (h : Heap) : List (String × Json) → List (String × Value) × Heap
  | [] => ([], h)
  | (name, item) :: rest =>
    let (value, h) := item.build h
    let (entries, h) := Json.buildMembers h rest
    ((name, value) :: entries, h)

end

end ModuLang
