import ModuLang.Native

/-!
# Values and programs

A value is a null, a boolean, an integer of any size, a float, a text, a function or an object. An
object is an address: its properties are in the heap, so two values may denote one object.

A program is a list of nodes; statements and expressions are nodes alike. Values and nodes refer to
each other: the value of a function holds its body, and a literal node holds its value.
-/

namespace ModuLang

/-- The place of an object in the heap. -/
abbrev Address := Nat

/-- The operators between two expressions. -/
inductive BinaryOperator where
  | add
  | subtract
  | equal
  | unequal
  deriving DecidableEq, Repr

/-- A string literal as it is written, with its quotes and escapes. -/
structure Quotation where
  raw : String
  line : Int := 0
  deriving DecidableEq, Repr

mutual

/-- What an expression evaluates to; `foreign` stands for whatever is no value of the language. -/
inductive Value where
  | null
  | bool (b : Bool)
  | int (n : Int)
  | float (x : Float)
  | str (s : String)
  | function (name : String) (params : List String) (body : List Node)
  | native (f : Native)
  | object (a : Address)
  | foreign

/-- A statement or an expression, with the line that it starts at; `unknown` stands for whatever is
neither. -/
inductive Node where
  | literal (value : Value) (line : Int)
  | text (literal : Quotation)
  | identifier (name : String) (line : Int)
  | record (properties : List (String × Node)) (line : Int)
  | binary (op : BinaryOperator) (left right : Node) (line : Int)
  | isPresent (value : Node) (line : Int)
  | call (name : String) (args : List Node) (line : Int)
  | property (object : Node) (name : String) (line : Int)
  | methodCall (object : Node) (name : String) (args : List Node) (line : Int)
  | binding (name : String) (value : Node) (line : Int)
  | importing (target : Quotation) (asName : Option String) (line : Int)
  | definition (name : String) (params : List String) (body : List Node) (line : Int)
  | conditional (condition : Node) (body : List Node) (line : Int)
  | returning (value : Option Node) (line : Int)
  | unknown

end

instance : Inhabited Value := ⟨.null⟩

instance : Inhabited Node := ⟨.unknown⟩

/-- The line that a node starts at. -/
def Node.line : Node → Int
  | .literal _ line | .identifier _ line | .record _ line | .binary _ _ _ line | .isPresent _ line
  | .call _ _ line | .property _ _ line | .methodCall _ _ _ line | .binding _ _ line
  | .importing _ _ line | .definition _ _ _ line | .conditional _ _ line | .returning _ line => line
  | .text quotation => quotation.line
  | .unknown => 0

/-- The nodes directly inside a node. -/
def Node.children : Node → List Node
  | .literal _ _ | .text _ | .identifier _ _ | .importing _ _ _ | .returning none _ | .unknown => []
  | .record properties _ => properties.map Prod.snd
  | .binary _ left right _ => [left, right]
  | .isPresent value _ | .binding _ value _ | .returning (some value) _ => [value]
  | .call _ args _ => args
  | .property object _ _ => [object]
  | .methodCall object _ args _ => object :: args
  | .definition _ _ body _ => body
  | .conditional condition body _ => condition :: body

/-- Whether a node is nested at most the given number of levels deep. -/
def Node.isWithin : Nat → Node → Bool
  | 0, _ => false
  | levels + 1, node => node.children.all (Node.isWithin levels)

/-- Whether a value is null. -/
def Value.isNull : Value → Bool
  | .null => true
  | _ => false

/-- The kinds of values. -/
inductive Kind where
  | null
  | boolean
  | number
  | float
  | string
  | function
  | nativeFunction
  | object
  deriving DecidableEq, Repr

/-- The name of a kind. -/
def Kind.name : Kind → String
  | .null => "Null"
  | .boolean => "Boolean"
  | .number => "Number"
  | .float => "Float"
  | .string => "String"
  | .function => "Function"
  | .nativeFunction => "NativeFunction"
  | .object => "Object"

/-- The kind of a value. -/
def Value.kind? : Value → Option Kind
  | .null => some .null
  | .bool _ => some .boolean
  | .int _ => some .number
  | .float _ => some .float
  | .str _ => some .string
  | .function _ _ _ => some .function
  | .native _ => some .nativeFunction
  | .object _ => some .object
  | .foreign => none

end ModuLang
