import ModuLang.Proofs.ArrayLists
import ModuLang.Proofs.DecimalText
import ModuLang.Proofs.HeapEffects

/-!
# Operations on arrays are atomic

The operations on arrays give a changed object or the reason why there is none, so they say nothing of
what an operation that changes its object in place leaves behind where it fails. Here they are carried
out in place, one property after the other, on any object at all: what was written stays written,
whatever comes behind it.

Two facts carry the proof. Every property that is removed or written is the length or has an index as
its key, so nothing else is touched, however the operation ends. And no check comes behind a write: the
length is read once more before the elements are replaced, but there it was read before, so this check
cannot fail. So an operation that fails has written nothing, and in place it ends as the operation that
gives a new object. The native functions of the package are these operations on an object of the heap.
-/

namespace ModuLang

open Library

/-! ### Keys of arrays -/

/-- The integer that is written as a minus or nothing, and digits. -/
def Number.decimalValue : List Char → Int
  | '-' :: digits => -(digitsValue digits : Int)
  | digits => digitsValue digits

/-- The text of an integer says which integer it is. -/
theorem Number.decimalValue_toString (n : Int) : decimalValue (toString n).toList = n := by
  rw [toList_toString_int]
  by_cases hn : n < 0
  · have hvalue : decimalValue ('-' :: Nat.toDigits 10 n.natAbs) = -(n.natAbs : Int) :=
      congrArg (fun size : Nat => -(size : Int)) (digitsValue_toDigits n.natAbs)
    rw [if_pos hn]
    exact hvalue.trans (by omega)
  · -- The first digit is no minus.
    have hminus : ∀ rest, Nat.toDigits 10 n.natAbs ≠ '-' :: rest := by
      intro rest hrest
      have hmem : '-' ∈ Nat.toDigits 10 n.natAbs := by
        rw [hrest]
        exact List.mem_cons_self
      exact absurd (isBasicDigit_of_mem_toDigits hmem) (by decide)
    have hvalue : decimalValue (Nat.toDigits 10 n.natAbs) = (n.natAbs : Int) := by
      rw [decimalValue, digitsValue_toDigits]
      exact hminus
    rw [if_neg hn, List.nil_append, hvalue]
    omega

namespace Object

/-- The keys that the operations on arrays use: the one of the length, and the decimal texts of
integers. -/
def IsArrayKey (key : String) : Prop :=
  key = lengthKey ∨ ∃ i : Int, key = indexKey i

theorem isArrayKey_lengthKey : IsArrayKey lengthKey :=
  .inl rfl

theorem isArrayKey_indexKey (i : Int) : IsArrayKey (indexKey i) :=
  .inr ⟨i, rfl⟩

instance : DecidablePred IsArrayKey := fun key =>
  decidable_of_iff (key = lengthKey ∨ key = indexKey (Number.decimalValue key.toList)) (by
    refine or_congr_right ⟨fun h => ⟨_, h⟩, ?_⟩
    rintro ⟨i, rfl⟩
    exact congrArg indexKey (Number.decimalValue_toString i).symm)

/-- Whether a change of an object touches nothing but keys of arrays: all other properties keep their
values and stand in the order in which they stood, and none is added. -/
structure KeepsOthers (o o' : Object) : Prop where
  others : (o'.properties.entries.filter fun entry => ¬IsArrayKey entry.1) =
    o.properties.entries.filter fun entry => ¬IsArrayKey entry.1
  isArray : o'.isArray = o.isArray
  methods : o'.methods = o.methods

variable {o o' : Object} {key : String}

theorem KeepsOthers.refl (o : Object) : o.KeepsOthers o :=
  ⟨rfl, rfl, rfl⟩

theorem KeepsOthers.trans {o₁ o₂ o₃ : Object} (h : o₁.KeepsOthers o₂) (h' : o₂.KeepsOthers o₃) :
    o₁.KeepsOthers o₃ :=
  ⟨h'.others.trans h.others, h'.isArray.trans h.isArray, h'.methods.trans h.methods⟩

theorem keepsOthers_set (hkey : IsArrayKey key) (o : Object) (v : Value) :
    o.KeepsOthers (o.set key v) := by
  have hput : ∀ entries : List (String × Value),
      ((Table.put key v entries).filter fun entry => ¬IsArrayKey entry.1) =
        entries.filter fun entry => ¬IsArrayKey entry.1 := by
    intro entries
    induction entries with
    | nil => simp [Table.put, hkey]
    | cons entry rest ih =>
      obtain ⟨k, w⟩ := entry
      rw [Table.put]
      split
      · next hk => simp [hk, hkey]
      · rw [List.filter_cons, List.filter_cons, ih]
  exact ⟨hput _, rfl, rfl⟩

theorem keepsOthers_erase (hkey : IsArrayKey key) (o : Object) : o.KeepsOthers (o.erase key) := by
  refine ⟨?_, rfl, rfl⟩
  change List.filter _ (List.filter _ o.properties.entries) = _
  rw [List.filter_filter]
  refine List.filter_congr fun entry _ => ?_
  -- A property that is no key of arrays is not the one that is removed.
  by_cases hentry : IsArrayKey entry.1
  · simp [hentry]
  · have hne : entry.1 ≠ key := fun heq => hentry (heq ▸ hkey)
    simp [hentry, hne]

end Object

/-! ### Changes in place -/

/-- Work on an object in place: it may fail, and what it has written until then stays written. -/
abbrev InPlace := ExceptT Cause (StateM Object)

namespace InPlace

open Object

variable {α β : Type}

/-- Reads from the object. -/
def reading (f : Object → Except Cause α) : InPlace α := do
  match f (← get) with
  | .ok a => return a
  | .error cause => throw cause

/-- Gives a property a value. -/
def write (key : String) (value : Value) : InPlace Unit :=
  modify (·.set key value)

/-- Removes a property if it is there. -/
def remove (key : String) : InPlace Unit :=
  modify (·.erase key)

/-- Works through a list. -/
def each (work : α → InPlace Unit) : List α → InPlace Unit
  | [] => pure ()
  | a :: as => do
    work a
    each work as

/-- Adds an element behind the last one. -/
def push (item : Value) : InPlace Unit := do
  let n ← reading Object.length
  let key ← reading fun _ => Number.writeInteger n
  write key item
  write lengthKey (.int (n + 1))

/-- Removes the last element. -/
def pop : InPlace Value := do
  let n ← reading Object.length
  if n < 1 then throw .emptyArray
  else
    let key ← reading fun _ => Number.writeInteger (n - 1)
    let last ← reading fun o => (o.get? key).elim (.error .corruptedArray) .ok
    remove key
    write lengthKey (.int (n - 1))
    return last

/-- Replaces the elements, as many as the length says, by others. -/
def reindex (items : List Value) : InPlace Unit := do
  let n ← reading Object.length
  each (fun i : Nat => remove (indexKey i)) (List.range n.toNat)
  each (fun entry => write entry.1 entry.2) (indexEntries 0 items)
  write lengthKey (.int items.length)

/-- Removes the first element. -/
def shift : InPlace Value := do
  match ← reading Object.elements with
  | [] => throw .emptyArray
  | first :: rest => do
    reindex rest
    return first

/-- Adds an element before the first one. -/
def unshift (item : Value) : InPlace Unit := do
  let items ← reading Object.elements
  reindex (item :: items)

/-- How work ends, and the object afterwards. -/
def outcome (x : InPlace α) (o : Object) : Except Cause α × Object :=
  x.run o

theorem outcome_bind (x : InPlace α) (k : α → InPlace β) (o : Object) :
    (x >>= k).outcome o =
      match x.outcome o with
      | (.ok a, o') => (k a).outcome o'
      | (.error cause, o') => (.error cause, o') := by
  have h : (x >>= k).outcome o = (ExceptT.bindCont k (x.outcome o).1).run (x.outcome o).2 := rfl
  rw [h]
  obtain ⟨r, o'⟩ := x.outcome o
  cases r with
  | ok a => rfl
  | error cause => rfl

theorem outcome_reading (f : Object → Except Cause α) (o : Object) :
    (reading f).outcome o = (f o, o) := by
  unfold reading
  change InPlace.outcome (match f o with | .ok a => pure a | .error cause => throw cause) o = _
  cases f o with
  | ok a => rfl
  | error cause => rfl

/-! ### Nothing else is touched -/

/-- Whether work touches nothing but keys of arrays, however it ends. -/
def KeepsOthers (x : InPlace α) : Prop :=
  ∀ o : Object, o.KeepsOthers (x.outcome o).2

theorem keepsOthers_pure (a : α) : (pure a : InPlace α).KeepsOthers :=
  Object.KeepsOthers.refl

theorem keepsOthers_throw (cause : Cause) : (throw cause : InPlace α).KeepsOthers :=
  Object.KeepsOthers.refl

theorem keepsOthers_reading (f : Object → Except Cause α) : (reading f).KeepsOthers := by
  intro o
  rw [outcome_reading]
  exact .refl o

theorem keepsOthers_write {key : String} (hkey : IsArrayKey key) (v : Value) :
    (write key v).KeepsOthers :=
  fun o => keepsOthers_set hkey o v

theorem keepsOthers_remove {key : String} (hkey : IsArrayKey key) : (remove key).KeepsOthers :=
  keepsOthers_erase hkey

theorem KeepsOthers.bind {x : InPlace α} {k : α → InPlace β} (hx : x.KeepsOthers)
    (hk : ∀ a, (k a).KeepsOthers) : (x >>= k).KeepsOthers := by
  intro o
  have hfirst := hx o
  rw [outcome_bind]
  revert hfirst
  obtain ⟨r, o'⟩ := x.outcome o
  intro hfirst
  cases r with
  | ok a => exact hfirst.trans (hk a o')
  | error cause => exact hfirst

/-- What comes behind an index that is written uses its key. -/
theorem keepsOthers_index (n : Int) {k : String → InPlace β} (hk : (k (indexKey n)).KeepsOthers) :
    ((reading fun _ => Number.writeInteger n) >>= k).KeepsOthers := by
  intro o
  rw [outcome_bind, outcome_reading]
  unfold Number.writeInteger
  split
  · next key _ hkey =>
    split at hkey <;> cases hkey
    exact hk _
  · next cause _ hcause =>
    split at hcause <;> cases hcause
    exact .refl o

theorem keepsOthers_each {work : α → InPlace Unit} {as : List α}
    (hwork : ∀ a ∈ as, (work a).KeepsOthers) : (each work as).KeepsOthers := by
  induction as with
  | nil => exact keepsOthers_pure ()
  | cons a as ih =>
    have hrest := ih fun a' ha' => hwork a' (List.mem_cons_of_mem a ha')
    exact (hwork a List.mem_cons_self).bind fun _ => hrest

theorem keepsOthers_push (item : Value) : (push item).KeepsOthers :=
  (keepsOthers_reading _).bind fun n => keepsOthers_index n <|
    (keepsOthers_write (isArrayKey_indexKey n) item).bind fun _ =>
      keepsOthers_write isArrayKey_lengthKey _

theorem keepsOthers_pop : pop.KeepsOthers := by
  refine (keepsOthers_reading _).bind fun n => ?_
  split
  · exact keepsOthers_throw _
  · refine keepsOthers_index (n - 1) ((keepsOthers_reading _).bind fun last => ?_)
    refine (keepsOthers_remove (isArrayKey_indexKey _)).bind fun _ => ?_
    exact (keepsOthers_write isArrayKey_lengthKey _).bind fun _ => keepsOthers_pure last

theorem keepsOthers_reindex (items : List Value) : (reindex items).KeepsOthers := by
  refine (keepsOthers_reading _).bind fun n => ?_
  have hcleared : (each (fun i : Nat => remove (indexKey i)) (List.range n.toNat)).KeepsOthers :=
    keepsOthers_each fun i _ => keepsOthers_remove (isArrayKey_indexKey i)
  have hfilled : (each (fun entry => write entry.1 entry.2) (indexEntries 0 items)).KeepsOthers := by
    refine keepsOthers_each fun entry hentry => ?_
    obtain ⟨i, -, hkey⟩ := exists_mem_indexEntries_iff.mp ⟨entry, hentry, rfl⟩
    exact keepsOthers_write (hkey ▸ isArrayKey_indexKey i) _
  exact hcleared.bind fun _ => hfilled.bind fun _ => keepsOthers_write isArrayKey_lengthKey _

theorem keepsOthers_shift : shift.KeepsOthers := by
  refine (keepsOthers_reading _).bind fun items => ?_
  cases items with
  | nil => exact keepsOthers_throw _
  | cons first rest => exact (keepsOthers_reindex rest).bind fun _ => keepsOthers_pure first

theorem keepsOthers_unshift (item : Value) : (unshift item).KeepsOthers :=
  (keepsOthers_reading _).bind fun items => keepsOthers_reindex (item :: items)

/-! ### What is done in place -/

theorem outcome_each_remove (keys : List Nat) (o : Object) :
    (each (fun i : Nat => remove (indexKey i)) keys).outcome o =
      (.ok (), keys.foldl (fun o (i : Nat) => o.erase (indexKey i)) o) := by
  induction keys generalizing o with
  | nil => rfl
  | cons i keys ih =>
    rw [each, outcome_bind]
    exact ih (o.erase (indexKey i))

theorem outcome_each_write (entries : List (String × Value)) (o : Object) :
    (each (fun entry => write entry.1 entry.2) entries).outcome o =
      (.ok (), { o with properties := o.properties.insertAll entries }) := by
  induction entries generalizing o with
  | nil => rfl
  | cons entry entries ih =>
    rw [each, outcome_bind]
    exact ih (o.set entry.1 entry.2)

/-- Where there are elements, replacing them does not fail. -/
theorem outcome_reindex {o : Object} {n : Int} (hn : o.length = .ok n) (items : List Value) :
    (reindex items).outcome o = (.ok (), o.reindex n.toNat items) := by
  unfold reindex
  rw [outcome_bind, outcome_reading, hn]
  simp only
  rw [outcome_bind, outcome_each_remove]
  simp only
  rw [outcome_bind, outcome_each_write]
  rfl

end InPlace

namespace ArrayOperation

/-- An operation in place, with the element that it takes, if it takes one. -/
def inPlace : ArrayOperation → InPlace (Option Value)
  | .push item => do
    InPlace.push item
    return none
  | .unshift item => do
    InPlace.unshift item
    return none
  | .pop => return some (← InPlace.pop)
  | .shift => return some (← InPlace.shift)

theorem keepsOthers_inPlace (operation : ArrayOperation) : operation.inPlace.KeepsOthers := by
  cases operation with
  | push item => exact (InPlace.keepsOthers_push item).bind fun _ => InPlace.keepsOthers_pure _
  | unshift item => exact (InPlace.keepsOthers_unshift item).bind fun _ => InPlace.keepsOthers_pure _
  | pop => exact InPlace.keepsOthers_pop.bind fun _ => InPlace.keepsOthers_pure _
  | shift => exact InPlace.keepsOthers_shift.bind fun _ => InPlace.keepsOthers_pure _

section Outcomes

open InPlace

variable (o : Object) (item : Value)

theorem outcome_push : (push item).inPlace.outcome o = added o (o.push item) := by
  rw [inPlace, InPlace.push, Object.push]
  simp only [outcome_bind, outcome_reading]
  cases o.length with
  | error cause => rfl
  | ok n =>
    simp only [Source.ok_bind]
    cases Number.writeInteger n with
    | error cause => rfl
    | ok key => rfl

theorem outcome_pop : pop.inPlace.outcome o = taken o o.pop := by
  rw [inPlace, InPlace.pop, Object.pop]
  simp only [outcome_bind, outcome_reading]
  cases o.length with
  | error cause => rfl
  | ok n =>
    simp only [Source.ok_bind]
    by_cases hn : n < 1
    · rw [if_pos hn, if_pos hn]
      rfl
    · rw [if_neg hn, if_neg hn]
      simp only [outcome_bind, outcome_reading]
      cases Number.writeInteger (n - 1) with
      | error cause => rfl
      | ok key =>
        simp only [Source.ok_bind]
        cases o.get? key with
        | none => rfl
        | some last => rfl

theorem outcome_shift : shift.inPlace.outcome o = taken o o.shift := by
  rw [inPlace, InPlace.shift, Object.shift]
  simp only [outcome_bind, outcome_reading]
  cases hitems : o.elements with
  | error cause => rfl
  | ok items =>
    cases items with
    | nil => rfl
    | cons first rest =>
      -- The length was read before, so reading it again before the first write does not fail.
      obtain ⟨n, hn, hcount⟩ := Object.exists_length_of_elements hitems
      rw [List.length_cons] at hcount
      simp only [outcome_bind, outcome_reindex hn, ← hcount]
      rfl

theorem outcome_unshift : (unshift item).inPlace.outcome o = added o (o.unshift item) := by
  rw [inPlace, InPlace.unshift, Object.unshift]
  simp only [outcome_bind, outcome_reading]
  cases hitems : o.elements with
  | error cause => rfl
  | ok items =>
    obtain ⟨n, hn, hcount⟩ := Object.exists_length_of_elements hitems
    simp only [outcome_reindex hn, ← hcount]
    rfl

/-- In place an operation ends as the one that gives a new object, with that object, and where it fails
with the object that it was given. -/
theorem outcome_inPlace (operation : ArrayOperation) :
    operation.inPlace.outcome o = operation.onObject o := by
  cases operation with
  | push item => exact outcome_push o item
  | unshift item => exact outcome_unshift o item
  | pop => exact outcome_pop o
  | shift => exact outcome_shift o

end Outcomes

/-- What is left of an object where an operation ends in some way: the object itself where it failed,
and else an object that differs from it in keys of arrays alone. -/
def Atomic {ε α : Type} (o : Object) (ending : Except ε α) (o' : Object) : Prop :=
  match ending with
  | .error _ => o' = o
  | .ok _ => o.KeepsOthers o'

/-- An operation that fails has written nothing, and no operation writes anything else. -/
theorem atomic_inPlace (operation : ArrayOperation) (o : Object) :
    Atomic o (operation.inPlace.outcome o).1 (operation.inPlace.outcome o).2 := by
  have hkeeps : o.KeepsOthers (operation.inPlace.outcome o).2 := operation.keepsOthers_inPlace o
  rw [outcome_inPlace] at hkeeps ⊢
  have hadded : ∀ x : Except Cause Object, o.KeepsOthers (added o x).2 →
      Atomic o (added o x).1 (added o x).2 := by
    intro x hx
    cases x with
    | error _ => exact rfl
    | ok _ => exact hx
  have htaken : ∀ x : Except Cause (Value × Object), o.KeepsOthers (taken o x).2 →
      Atomic o (taken o x).1 (taken o x).2 := by
    intro x hx
    cases x with
    | error _ => exact rfl
    | ok _ => exact hx
  cases operation with
  | push item => exact hadded _ hkeeps
  | unshift item => exact hadded _ hkeeps
  | pop => exact htaken _ hkeeps
  | shift => exact htaken _ hkeeps

end ArrayOperation

/-! ### Operations on an object of the heap -/

/-- An object that is put where it is changes nothing. -/
theorem Heap.set_get (h : Heap) (a : Address) : h.set a (h.get a) = h := by
  obtain ⟨objects⟩ := h
  refine congrArg Heap.mk (Array.ext (Array.size_setIfInBounds ..) fun i hi hi' => ?_)
  rw [Array.getElem_setIfInBounds]
  split
  · next heq =>
    subst heq
    simp [Heap.get, Heap.get?, hi']
  · rfl

namespace ArrayOperation

/-- An operation by means of the package, on the object at an address. -/
def call (a : Address) : ArrayOperation → Eval Value
  | .push item => applyArray .push [.object a, item]
  | .unshift item => applyArray .unshift [.object a, item]
  | .pop => applyArray .pop [.object a]
  | .shift => applyArray .shift [.object a]

/-- An operation with a copy of what it adds, and the heap with the copy. -/
def copied (h : Heap) : ArrayOperation → ArrayOperation × Heap
  | .push item => (.push (h.copyValue item).1, (h.copyValue item).2)
  | .unshift item => (.unshift (h.copyValue item).1, (h.copyValue item).2)
  | .pop => (.pop, h)
  | .shift => (.shift, h)

/-- What a program gets for the answer of an operation. -/
def given : Answer → Except Interrupt Value
  | .ok answer => .ok (answer.getD .null)
  | .error cause => .error (.failed cause.failure)

theorem outcome_added (function : String) (operation : Object → Value → Except Cause Object)
    (a : Address) (item : Value) (m : Machine) :
    let h := (m.heap.copyValue item).2
    let step := added (h.get a) (operation (h.get a) (m.heap.copyValue item).1)
    (arrayAdd function operation (.object a) item).outcome m =
      (given step.1, { m with heap := h.set a step.2 }) := by
  intro h step
  have hkept : h.set a (h.get a) = h := h.set_get a
  rw [outcome_arrayAdd]
  simp only [step]
  cases operation (h.get a) (m.heap.copyValue item).1 with
  | ok o => rfl
  | error cause =>
    simp only [added, hkept]
    rfl

theorem outcome_taken (function : String) (operation : Object → Except Cause (Value × Object))
    (a : Address) (m : Machine) :
    let step := taken (m.heap.get a) (operation (m.heap.get a))
    (arrayTake function operation (.object a)).outcome m =
      (given step.1, { m with heap := m.heap.set a step.2 }) := by
  intro step
  have hkept : m.heap.set a (m.heap.get a) = m.heap := m.heap.set_get a
  rw [outcome_arrayTake]
  simp only [step]
  cases operation (m.heap.get a) with
  | ok changed => rfl
  | error cause =>
    simp only [taken, hkept]
    rfl

/-- The native functions carry out an operation in place at the address, with a copy of what it
adds. -/
theorem outcome_call (operation : ArrayOperation) (a : Address) (m : Machine) :
    let h := (operation.copied m.heap).2
    let step := (operation.copied m.heap).1.inPlace.outcome (h.get a)
    (operation.call a).outcome m = (given step.1, { m with heap := h.set a step.2 }) := by
  intro h step
  have hstep : step = (operation.copied m.heap).1.onObject (h.get a) := outcome_inPlace _ _
  rw [hstep]
  cases operation with
  | push item => exact outcome_added "push" Object.push a item m
  | unshift item => exact outcome_added "unshift" Object.unshift a item m
  | pop => exact outcome_taken "pop" Object.pop a m
  | shift => exact outcome_taken "shift" Object.shift a m

/-- What is copied is new, so an object that was there is there unchanged. -/
theorem get?_copied (operation : ArrayOperation) {h : Heap} {a : Address} (ha : a < h.size) :
    (operation.copied h).2.get? a = h.get? a := by
  cases operation with
  | push item => exact Heap.get?_copyValue_of_lt ha
  | unshift item => exact Heap.get?_copyValue_of_lt ha
  | pop => rfl
  | shift => rfl

theorem Atomic.given {o o' : Object} {answer : Answer} (h : Atomic o answer o') :
    Atomic o (given answer) o' := by
  cases answer with
  | error cause => exact h
  | ok taken => exact h

end ArrayOperation

open ArrayOperation in
/-- Operations on arrays are atomic, on every object. In place, where what was written stays written,
an operation ends as the one that gives a new object; where it fails the object is as it was, and where
it succeeds nothing but the length and properties with indices as keys was added, removed or changed,
and all others keep their values and their order. So do the native functions of the package, called
with an object of the heap. -/
theorem array_operations_atomic (operation : ArrayOperation) :
    (∀ o : Object,
      operation.inPlace.outcome o = operation.onObject o ∧
        Atomic o (operation.inPlace.outcome o).1 (operation.inPlace.outcome o).2) ∧
      ∀ (m : Machine) (a : Fin m.heap.size),
        Atomic (m.heap.get a) ((operation.call a).outcome m).1
          (((operation.call a).outcome m).2.heap.get a) := by
  refine ⟨fun o => ⟨outcome_inPlace o operation, operation.atomic_inPlace o⟩, fun m a => ?_⟩
  have hkept : (operation.copied m.heap).2.get? a = m.heap.get? a := operation.get?_copied a.isLt
  have hget : (operation.copied m.heap).2.get a = m.heap.get a := Heap.get_eq_of_get? hkept
  have hthere : m.heap.get? a = some m.heap.objects[a] := Array.getElem?_eq_getElem a.isLt
  have hsize : a < (operation.copied m.heap).2.size :=
    (Array.getElem?_eq_some_iff.mp (hkept.trans hthere)).1
  have hatomic := ((operation.copied m.heap).1.atomic_inPlace (m.heap.get a)).given
  rw [outcome_call, hget]
  exact (Heap.get_set_self _ hsize).symm ▸ hatomic

end ModuLang
