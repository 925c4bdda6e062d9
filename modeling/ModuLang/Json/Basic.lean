import ModuLang.Object

/-!
# JSON documents

A document as a tree. The members of an object have different names, in the order in which the names
first came. `NaN` and the infinities count as numbers.
-/

namespace ModuLang

/-- A JSON document. -/
inductive Json where
  | null
  | bool (b : Bool)
  | int (n : Int)
  | float (x : Float)
  | str (s : String)
  | array (items : List Json)
  | object (members : List (String × Json))

end ModuLang
