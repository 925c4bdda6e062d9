import ModuLang.Heap
import ModuLang.Number.Numeral

/-!
# How values are shown

`print` shows a value in its display form. Inside an object or an array a text stands between
quotes, without escapes. An object that contains itself is elided: where an object is met on the way
down from itself, dots stand for it. A second occurrence that is not on the way down is shown in
full.

Showing a value can fail: an array must have all its elements, and an integer not too many digits.
-/

namespace ModuLang

/-- The display form of a function. -/
def showFunction (name : String) (params : List String) : String :=
  "<fn " ++ name ++ "(" ++ ", ".intercalate params ++ ")>"

/-- The form of a value inside an object or an array; `above` holds the objects that it is in. -/
def Heap.showNested (h : Heap) (above : List Address) (v : Value) : Except Cause String :=
  match v with
  | .null => .ok "null"
  | .bool b => .ok (if b then "true" else "false")
  | .int n => Number.writeInteger n
  | .float x => .ok (Number.displayFloat x)
  | .str s => .ok ("\"" ++ s ++ "\"")
  | .function name params _ => .ok (showFunction name params)
  | .native f => .ok s!"<native fn {f.name}>"
  | .foreign => .ok "None"
  | .object a =>
    let o := h.get a
    if habove : above.contains a = false ∧ a < h.size then do
      have := h.unvisited_cons_lt habove.1 habove.2
      if o.isArray then
        let items ← (← o.elements).mapM fun item => h.showNested (a :: above) item
        return "[" ++ ", ".intercalate items ++ "]"
      else
        let pairs ← o.plainEntries.mapM fun entry => do
          return "\"" ++ entry.1 ++ "\": " ++ (← h.showNested (a :: above) entry.2)
        return "\x7b" ++ ", ".intercalate pairs ++ "\x7d"
    else .ok (if o.isArray then "[...]" else "\x7b...\x7d")
termination_by h.unvisited above

/-- The form of a value inside an object or an array. -/
def Heap.showInner (h : Heap) (v : Value) : Except Cause String :=
  h.showNested [] v

/-- The display form of a value: a text stands for itself. -/
def Heap.display (h : Heap) (v : Value) : Except Cause String :=
  match v with
  | .str s => .ok s
  | v => h.showInner v

/-- The form of a value that tells functions apart by their parameters and size. -/
def Heap.inspect (h : Heap) (v : Value) : Except Cause String :=
  match v with
  | .function name params body =>
    .ok s!"Function({Text.quoted name}, {Text.quotedList params}, <{body.length} statements>)"
  | .native f => .ok s!"NativeFunction({Text.quoted f.name}, {Text.quotedList f.params})"
  | v => h.display v

end ModuLang
