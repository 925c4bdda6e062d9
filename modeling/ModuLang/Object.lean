import ModuLang.Number.Numeral
import ModuLang.Table
import ModuLang.Value

/-!
# Objects

An object is a table of properties. An array is an object with the properties `"0"`, `"1"`, … and
`"length"`; the array operations work on any object that has a length, and the mark `isArray` only
says how the object is shown and encoded. Properties named in `methods` are neither shown nor
encoded.

The array operations are pure: they give the changed object, or the reason why there is none. An
index that is counted up to is the index of an element, and has few digits; one that is taken from
the length or from a program may have too many of them for the machine to write.
-/

namespace ModuLang

/-- The properties of an object and what is known of it. -/
structure Object where
  properties : Table Value := .empty
  isArray : Bool := false
  methods : List String := []

instance : Inhabited Object := ⟨{}⟩

namespace Object

/-- The property that holds the length of an array. -/
def lengthKey : String := "length"

/-- The property that holds an element. -/
def indexKey (i : Int) : String := toString i

/-- The value of a property. -/
def get? (o : Object) (key : String) : Option Value :=
  o.properties.get? key

/-- Whether there is a property. -/
def contains (o : Object) (key : String) : Bool :=
  o.properties.contains key

/-- Gives a property a value. -/
def set (o : Object) (key : String) (value : Value) : Object :=
  { o with properties := o.properties.insert key value }

/-- Removes a property. -/
def erase (o : Object) (key : String) : Object :=
  { o with properties := o.properties.erase key }

/-- The properties that are no methods. -/
def plainEntries (o : Object) : List (String × Value) :=
  o.properties.entries.filter fun entry => !o.methods.contains entry.1

/-- The length of an array, which has to be an integer. -/
def length (o : Object) : Except Cause Int :=
  match o.get? lengthKey with
  | some (.int n) => .ok n
  | _ => .error .corruptedArray

/-- The `count` elements from index `i` on; all have to be there. -/
def elementsFrom (o : Object) (i : Nat) : Nat → Except Cause (List Value)
  | 0 => .ok []
  | count + 1 => do
    match o.get? (indexKey i) with
    | none => .error .corruptedArray
    | some value => return value :: (← o.elementsFrom (i + 1) count)

/-- The elements of an array. -/
def elements (o : Object) : Except Cause (List Value) := do
  o.elementsFrom 0 (← o.length).toNat

/-- The entries of elements from index `i` on. -/
def indexEntries (i : Nat) : List Value → List (String × Value)
  | [] => []
  | value :: rest => (indexKey i, value) :: indexEntries (i + 1) rest

/-- The array of a list of elements. -/
def ofElements (items : List Value) : Object where
  properties := Table.ofList ((lengthKey, .int items.length) :: indexEntries 0 items)
  isArray := true

/-- Adds an element behind the last one. -/
def push (o : Object) (item : Value) : Except Cause Object := do
  let n ← o.length
  let key ← Number.writeInteger n
  return (o.set key item).set lengthKey (.int (n + 1))

/-- Removes the last element. -/
def pop (o : Object) : Except Cause (Value × Object) := do
  let n ← o.length
  if n < 1 then .error .emptyArray
  else
    let key ← Number.writeInteger (n - 1)
    match o.get? key with
    | none => .error .corruptedArray
    | some last => return (last, (o.erase key).set lengthKey (.int (n - 1)))

/-- Removes the elements below an index. -/
def eraseIndices (o : Object) (count : Nat) : Object :=
  (List.range count).foldl (fun o (i : Nat) => o.erase (indexKey i)) o

/-- Replaces the `count` elements of an array by others. -/
def reindex (o : Object) (count : Nat) (items : List Value) : Object :=
  let cleared := o.eraseIndices count
  let filled := { cleared with properties := cleared.properties.insertAll (indexEntries 0 items) }
  filled.set lengthKey (.int items.length)

/-- Removes the first element. -/
def shift (o : Object) : Except Cause (Value × Object) := do
  match ← o.elements with
  | [] => .error .emptyArray
  | first :: rest => return (first, o.reindex (rest.length + 1) rest)

/-- Adds an element before the first one. -/
def unshift (o : Object) (item : Value) : Except Cause Object := do
  let items ← o.elements
  return o.reindex items.length (item :: items)

end Object

end ModuLang
