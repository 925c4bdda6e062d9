import ModuLang.Display

/-!
# Operators

Addition, subtraction and comparison of values. Sums of integers are exact and have to lie within 64
bits; an integer meets a float as the nearest float. A minus without left operand subtracts from
null, and subtracting null changes nothing. Values of different kinds are never equal, and neither
are two nulls, objects or functions.
-/

namespace ModuLang

/-- Fails at a line that is not known yet. -/
def refuse {α : Type} (cause : Cause) : Except Failure α :=
  .error cause.failure

/-- Fails for the cause of a computation, at a line that is not known yet. -/
def orRefuse {α : Type} : Except Cause α → Except Failure α
  | .ok a => .ok a
  | .error cause => refuse cause

/-- The kind of a value; what is no value has none. -/
def Value.kind (v : Value) : Except Failure Kind :=
  match v.kind? with
  | some kind => .ok kind
  | none => refuse (.unknownValue "None")

/-- An integer as a float. -/
def intToFloat (n : Int) : Except Failure Float :=
  match Number.ofInt? n with
  | some x => .ok x
  | none => .error (.crash .integerTooLarge)

/-- A sum that has to lie within 64 bits. -/
def checkedSum (n : Int) : Except Failure Value :=
  if Number.inRange n then .ok (.int n) else refuse .sumOverflow

/-- The sum of two values. -/
def addValues (h : Heap) (left right : Value) : Except Failure Value := do
  let _ ← left.kind
  let _ ← right.kind
  match left, right with
  | .int a, .int b => checkedSum (a + b)
  | .int a, .float y => return .float ((← intToFloat a) + y)
  | .float x, .int b => return .float (x + (← intToFloat b))
  | .float x, .float y => return .float (x + y)
  | .str s, .str t => return .str (s ++ t)
  | _, _ =>
    let shownLeft ← orRefuse (h.display left)
    let shownRight ← orRefuse (h.display right)
    refuse (.cannotAdd shownLeft shownRight)

/-- The difference of two values. -/
def subtractValues (h : Heap) (left right : Value) : Except Failure Value := do
  if right.isNull then return left
  let _ ← left.kind
  let _ ← right.kind
  match left, right with
  | .null, .int b => checkedSum (-b)
  | .null, .float y => return .float (-y)
  | .int a, .int b => checkedSum (a - b)
  | .int a, .float y => return .float ((← intToFloat a) - y)
  | .float x, .int b => return .float (x - (← intToFloat b))
  | .float x, .float y => return .float (x - y)
  | _, _ =>
    let shownRight ← orRefuse (h.display right)
    let shownLeft ← orRefuse (h.display left)
    refuse (.cannotSubtract shownRight shownLeft)

/-- Whether values of a kind can be equal at all. -/
def Kind.isComparable : Kind → Bool
  | .number | .float | .string | .boolean => true
  | _ => false

/-- Whether two values are equal. -/
def isEqual (left right : Value) : Except Failure Bool := do
  let kind ← left.kind
  if !kind.isComparable then return false
  let _ ← right.kind
  match left, right with
  | .bool a, .bool b => return a == b
  | .int a, .int b => return a == b
  | .float x, .float y => return x == y
  | .str s, .str t => return s == t
  | _, _ => return false

/-- Whether two values are not equal. -/
def isUnequal (left right : Value) : Except Failure Bool :=
  (isEqual left right).map (!·)

/-- Whether a value is there at all. -/
def isPresent (v : Value) : Bool :=
  !v.isNull

/-- The value of an operator between two values. -/
def BinaryOperator.apply (op : BinaryOperator) (h : Heap) (left right : Value) :
    Except Failure Value :=
  match op with
  | .add => addValues h left right
  | .subtract => subtractValues h left right
  | .equal => (isEqual left right).map .bool
  | .unequal => (isUnequal left right).map .bool

end ModuLang
