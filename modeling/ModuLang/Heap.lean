import ModuLang.Object

/-!
# The heap

Objects live in a heap, at the addresses below its size. An object is copied together with all
objects that can be reached from it, each once, so that the copy has the same sharing and the same
cycles; the copies take the addresses from the heap's size on, in the order in which the objects
were reached.
-/

namespace ModuLang

/-- The objects that were made so far. -/
structure Heap where
  objects : Array Object := #[]

instance : Inhabited Heap := ⟨{}⟩

namespace Heap

/-- The number of objects, which is the next address. -/
def size (h : Heap) : Nat :=
  h.objects.size

/-- The object at an address. -/
def get? (h : Heap) (a : Address) : Option Object :=
  h.objects[a]?

/-- The object at an address, which is without properties where none was made. -/
def get (h : Heap) (a : Address) : Object :=
  (h.get? a).getD {}

/-- Makes an object. -/
def alloc (h : Heap) (o : Object) : Address × Heap :=
  (h.size, ⟨h.objects.push o⟩)

/-- Changes the object at an address. -/
def set (h : Heap) (a : Address) (o : Object) : Heap :=
  ⟨h.objects.setIfInBounds a o⟩

/-- Makes several objects. -/
def allocAll (h : Heap) (os : List Object) : Heap :=
  ⟨h.objects ++ os.toArray⟩

/-- The number of addresses that are not among the given ones. -/
def unvisited (h : Heap) (visited : List Address) : Nat :=
  ((List.range h.size).filter fun a => !visited.contains a).length

/-- A visit to a new address leaves fewer. -/
theorem unvisited_cons_lt (h : Heap) {visited : List Address} {a : Address}
    (hnew : visited.contains a = false) (hsize : a < h.size) :
    h.unvisited (a :: visited) < h.unvisited visited := by
  unfold unvisited
  have hsub : ((List.range h.size).filter fun b => !(a :: visited).contains b) =
      (((List.range h.size).filter fun b => !visited.contains b).filter (· != a)) := by
    rw [List.filter_filter]
    apply List.filter_congr
    intro b _
    simp only [List.contains_cons, Bool.not_or]
    cases hb : b == a <;> simp_all
  rw [hsub]
  apply List.length_filter_lt_length_iff_exists.2
  refine ⟨a, List.mem_filter.2 ⟨List.mem_range.2 hsize, ?_⟩, by simp⟩
  rw [hnew]
  rfl

end Heap

/-- The address of an object. -/
def Value.address? : Value → Option Address
  | .object a => some a
  | _ => none

/-- A value with its address changed. -/
def Value.rename (f : Address → Address) : Value → Value
  | .object a => .object (f a)
  | v => v

/-- The addresses in the properties of an object, in order. -/
def Object.references (o : Object) : List Address :=
  o.properties.entries.filterMap fun entry => entry.2.address?

/-- An object with all its addresses changed. -/
def Object.rename (f : Address → Address) (o : Object) : Object :=
  { o with properties := o.properties.map (Value.rename f) }

namespace Heap

/-- The addresses that can be reached from the pending ones, behind those that were visited. -/
def reachFrom (h : Heap) (visited pending : List Address) : List Address :=
  match pending with
  | [] => visited
  | a :: rest =>
    if hnew : visited.contains a = false ∧ a < h.size then
      have := h.unvisited_cons_lt hnew.1 hnew.2
      reachFrom h (a :: visited) ((h.get a).references ++ rest)
    else reachFrom h visited rest
termination_by (h.unvisited visited, pending.length)

/-- The addresses that can be reached from the given ones, each once. -/
def reachable (h : Heap) (roots : List Address) : List Address :=
  (h.reachFrom [] roots).reverse

/-- The address of the copy of an object, when the objects at the addresses `old` are copied. -/
def copyAddress (h : Heap) (old : List Address) (a : Address) : Address :=
  match old.idxOf? a with
  | some i => h.size + i
  | none => a

/-- Copies all that can be reached from some values, and says where the copies are. -/
def copy (h : Heap) (roots : List Value) : (Address → Address) × Heap :=
  let old := h.reachable (roots.filterMap Value.address?)
  let moved := h.copyAddress old
  (moved, h.allocAll (old.map fun a => (h.get a).rename moved))

/-- An independent copy of a value. -/
def copyValue (h : Heap) (v : Value) : Value × Heap :=
  match v with
  | .object _ =>
    let (moved, h') := h.copy [v]
    (v.rename moved, h')
  | _ => (v, h)

end Heap

end ModuLang
