import ModuLang.Operator

/-!
# Conversions between kinds

The builtins `int`, `float` and `str`. A text is read as an integer if it is one and else as a
float, so an integer of any size survives; making an integer of a float cuts its fraction off.
-/

namespace ModuLang.Library

/-- Reads a number from a text; `target` is the kind that is asked for. -/
def readNumber (text target : String) : Except Failure (Int ⊕ Float) :=
  match Number.readInteger text with
  | .number n => .ok (.inl n)
  | _ =>
    match Number.readFloat? text with
    | some x => .ok (.inr x)
    | none => refuse (.cannotConvertText text target)

/-- A value as an integer. -/
def toInt (v : Value) : Except Failure Value := do
  match v with
  | .bool b => return .int (if b then 1 else 0)
  | .int n => return .int n
  | .float x =>
    match Number.toInt? .truncate x with
    | some n => return .int n
    | none => refuse (.cannotConvertNumber (Number.displayFloat x) "int")
  | .str s =>
    match ← readNumber s "int" with
    | .inl n => return .int n
    | .inr x =>
      match Number.toInt? .truncate x with
      | some n => return .int n
      | none => refuse (.cannotConvertText s "int")
  | _ => refuse .intArgument

/-- A value as a float. -/
def toFloat (v : Value) : Except Failure Value := do
  match v with
  | .bool b => return .float (if b then 1 else 0)
  | .int n => return .float (← intToFloat n)
  | .float x => return .float x
  | .str s =>
    match ← readNumber s "float" with
    | .inl n => return .float (← intToFloat n)
    | .inr x => return .float x
  | _ => refuse .floatArgument

/-- A simple value as a text. -/
def toStr (h : Heap) (v : Value) : Except Failure Value := do
  match v with
  | .bool _ | .int _ | .float _ | .str _ | .null => return .str (← orRefuse (h.display v))
  | _ => refuse .strArgument

end ModuLang.Library
