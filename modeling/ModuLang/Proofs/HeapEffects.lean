import ModuLang.Proofs.NativeConfinement

/-!
# What happens to the heap

A program changes the heap in four ways. It makes an object, it copies objects, it takes an element
out of an array, and it stores a copy of a value in an object. An object that is made holds only
objects that are there; what is copied or stored is new. So the objects that were there lose
references or keep them, and only the object in which something is stored gets one, to a new object,
and then no new object refers to an old one.

Everything that the native functions do is made of such changes. One of them is told apart: setting
a property that is named by the program. The changes are taken with a permission for it, so that
what depends on the properties that are set can be said with a condition on these alone.
-/

namespace ModuLang

open Eval Library

variable {α β : Type}

/-! ### Changes of an object -/

/-- The ways to store a value in an object; a property may be set if its name is permitted. -/
inductive Object.Stores (permitted : String → Prop) (o : Object) (item : Value) : Object → Prop where
  | push {o' : Object} : o.push item = .ok o' → Stores permitted o item o'
  | unshift {o' : Object} : o.unshift item = .ok o' → Stores permitted o item o'
  | set {key : String} : permitted key → Stores permitted o item (o.set key item)

/-- The ways to take an element out of an array. -/
inductive Object.Loses (o : Object) : Object → Prop where
  | pop {v : Value} {o' : Object} : o.pop = .ok (v, o') → Loses o o'
  | shift {v : Value} {o' : Object} : o.shift = .ok (v, o') → Loses o o'

section Objects

variable {R : Boundary} {n : Nat} {o o' : Object} {item : Value} {permitted : String → Prop}

/-- What is stored in an object may be met there, and nothing else is new. -/
theorem ObjectKnown.stores (ho : ObjectKnown R n o) (hitem : Known R n item)
    (h : o.Stores permitted item o') : ObjectKnown R n o' := by
  cases h with
  | push h => exact ho.push hitem h
  | unshift h => exact ho.unshift hitem h
  | set _ => exact ho.set hitem

theorem ObjectKnown.loses (ho : ObjectKnown R n o) (h : o.Loses o') : ObjectKnown R n o' := by
  cases h with
  | pop h => exact (ho.pop h).2
  | shift h => exact (ho.shift h).2

/-- The boundary that hides all objects but some. -/
def Boundary.only (kept : Address → Prop) : Boundary := ⟨True, fun a => ¬kept a⟩

theorem ObjectKnown.only {kept : Address → Prop} (ho : ObjectKnown .clear n o)
    (h : ∀ b ∈ o.references, kept b) : ObjectKnown (.only kept) n o := by
  intro entry hentry _
  have hv := ho entry hentry trivial
  cases hvalue : entry.2 with
  | object a =>
    rw [hvalue] at hv
    exact ⟨hv.1, fun hne => hne (h a (Object.mem_references.mpr ⟨entry, hentry, hvalue⟩))⟩
  | function name params body =>
    rw [hvalue] at hv
    exact hv
  | _ => trivial

theorem ObjectKnown.kept {kept : Address → Prop} (ho : ObjectKnown (.only kept) n o) :
    ∀ b ∈ o.references, kept b := by
  intro b hb
  obtain ⟨entry, hentry, hvalue⟩ := Object.mem_references.mp hb
  have hv := ho entry hentry trivial
  rw [hvalue] at hv
  exact Classical.not_not.mp hv.2

/-- An object refers to what it referred to before a value was stored in it, and to the value. -/
theorem Object.Stores.references (h : o.Stores permitted item o') (ho : ObjectKnown .clear n o)
    (hitem : Known .clear n item) :
    ∀ b ∈ o'.references, b ∈ o.references ∨ item = .object b := by
  have hkept : Known (.only fun b => b ∈ o.references ∨ item = .object b) n item := by
    intro _
    have hv := hitem trivial
    cases item with
    | object a => exact ⟨hv.1, fun hne => hne (.inr rfl)⟩
    | function name params body => exact hv
    | _ => trivial
  exact ((ho.only fun b hb => .inl hb).stores hkept h).kept

theorem Object.Loses.references (h : o.Loses o') (ho : ObjectKnown .clear n o) :
    ∀ b ∈ o'.references, b ∈ o.references :=
  ((ho.only fun _ hb => hb).loses h).kept

end Objects

/-! ### Changes of the heap -/

/-- Which properties may be set: the heap, the object, the property and the value are given. -/
abbrev Permission := Heap → Address → String → Value → Prop

/-- One change of the heap. -/
inductive Effect (permits : Permission) (h : Heap) : Heap → Prop where
  | make {o : Object} : ObjectKnown .clear h.size o →
      (o.isArray = true → ∃ items, o = Object.ofElements items) → Effect permits h (h.alloc o).2
  | copy {vs : List Value} : (∀ v ∈ vs, Known .clear h.size v) → Effect permits h (h.copy vs).2
  | take {a : Address} {o : Object} : a < h.size → (h.get a).Loses o → Effect permits h (h.set a o)
  | store {a : Address} {v : Value} {o : Object} : a < h.size → Known .clear h.size v →
      (h.get a).Stores (fun key => permits h a key v) (h.copyValue v).1 o →
      Effect permits h ((h.copyValue v).2.set a o)

/-- What a step does to the heap: one change after the other. -/
def Effects (permits : Permission) : Heap → Heap → Prop :=
  Relation.ReflTransGen (Effect permits)

namespace Heap

variable {h : Heap} {a b : Address} {v : Value} {vs : List Value}

theorem lt_of_refersTo (hab : h.RefersTo a b) : a < h.size := by
  refine Classical.byContradiction fun hge => ?_
  unfold RefersTo at hab
  rw [get_of_size_le (Nat.le_of_not_lt hge)] at hab
  exact absurd hab List.not_mem_nil

theorem get?_copyValue_of_lt (ha : a < h.size) : (h.copyValue v).2.get? a = h.get? a := by
  cases v with
  | object b => exact get?_copy_of_lt ha
  | _ => rfl

/-- A copy refers to other copies alone. -/
theorem le_of_refersTo_copy (hheap : HeapKnown .clear h) (hvs : ∀ v ∈ vs, Known .clear h.size v)
    (ha : h.size ≤ a) (hab : (h.copy vs).2.RefersTo a b) : h.size ≤ b := by
  have hobjects := hheap.copied hvs trivial
  obtain ⟨c, hc, hget⟩ := exists_get_copy ha (lt_of_refersTo hab)
  unfold RefersTo at hab
  rw [hget] at hab
  obtain ⟨entry, hentry, hvalue⟩ := Object.mem_references.mp hab
  -- Behind the boundary that hides all objects there were, a copy may be met with all it holds.
  have hknown : Known (.below h.size) _ entry.2 :=
    objectKnown_rename (fun _ _ ha => ha) hc (hobjects c hc) entry hentry
  rw [hvalue] at hknown
  exact Nat.le_of_not_lt (hknown trivial).2

/-- What is copied is new. -/
theorem le_of_copyValue (hv : Known .clear h.size v) (hb : (h.copyValue v).1 = .object b) :
    h.size ≤ b := by
  cases v with
  | object a =>
    obtain rfl : (h.copy [.object a]).1 a = b := Value.object.inj hb
    exact (moved_of_mem (hv.mem_copied (List.mem_singleton.mpr rfl) rfl)).1
  | _ => cases hb

/-- The objects that copying a value makes refer to each other alone. -/
theorem le_of_refersTo_copyValue (hheap : HeapKnown .clear h) (hv : Known .clear h.size v)
    (ha : h.size ≤ a) (hab : (h.copyValue v).2.RefersTo a b) : h.size ≤ b := by
  cases v with
  | object c =>
    have hvs : ∀ w ∈ [Value.object c], Known .clear h.size w := fun w hw => by
      rw [List.mem_singleton.mp hw]
      exact hv
    exact le_of_refersTo_copy hheap hvs ha hab
  | _ => exact absurd (lt_of_refersTo hab) (Nat.not_lt.mpr ha)

end Heap

section Effects

variable {permits : Permission} {h h' : Heap} {a : Address} {v : Value} {o : Object}

/-- A change of the heap keeps what is known of it. -/
theorem Effect.heapKept (he : Effect permits h h') (hheap : HeapKnown .clear h) :
    HeapKept .clear h h' := by
  cases he with
  | make ho _ => exact hheap.alloc ho
  | copy hvs => exact hheap.copy (hheap.copied hvs)
  | take ha hloses =>
    have ho : ObjectKnown .clear h.size (h.get _) := (hheap trivial).2 _ ha not_false
    exact ⟨hheap.set (ho.loses hloses), by simp, fun _ _ hb => absurd hb not_false⟩
  | @store a v o ha hv hstores =>
    obtain ⟨hkept, hitem⟩ := hheap.copyValue hv
    have ho : ObjectKnown .clear h.size (h.get a) := (hheap trivial).2 a ha not_false
    refine ⟨hkept.known.set ((ho.mono hkept.size).stores hitem hstores), ?_,
      fun _ _ hb => absurd hb not_false⟩
    rw [Heap.size_set]
    exact hkept.size

theorem Effects.heapKept (he : Effects permits h h') (hheap : HeapKnown .clear h) :
    HeapKept .clear h h' := by
  induction he with
  | refl => exact .refl hheap
  | tail _ hstep ih => exact ih.trans (hstep.heapKept ih.known)

/-- Copying a value is a change of the heap, or none. -/
theorem effects_copyValue (hv : Known .clear h.size v) : Effects permits h (h.copyValue v).2 := by
  cases v with
  | object a =>
    have hvs : ∀ w ∈ [Value.object a], Known .clear h.size w := fun w hw => by
      rw [List.mem_singleton.mp hw]
      exact hv
    exact .single (.copy hvs)
  | _ => exact .refl

/-! ### References -/

/-- How references come and go. The objects that were there refer to nothing more, but for the one
that something is grafted on; if there is such an object, then the new objects refer to new ones
alone. -/
structure Extends (h h' : Heap) (graft : Option Address) : Prop where
  size : h.size ≤ h'.size
  old : ∀ c b, c < h.size → h'.RefersTo c b → h.RefersTo c b ∨ graft = some c ∧ h.size ≤ b
  new : ∀ a, graft = some a → ∀ c b, h.size ≤ c → h'.RefersTo c b → h.size ≤ b

/-- Where no object that was there changes, nothing is grafted. -/
theorem extends_of_get? (hsize : h.size ≤ h'.size)
    (hold : ∀ c, c < h.size → h'.get? c = h.get? c) : Extends h h' none where
  size := hsize
  old c b hc hcb := by
    unfold Heap.RefersTo at hcb
    rw [Heap.get_eq_of_get? (hold c hc)] at hcb
    exact .inl hcb
  new a ha := by cases ha

/-- Taking an element grafts nothing. -/
theorem extends_take (hheap : HeapKnown .clear h) (ha : a < h.size) (hloses : (h.get a).Loses o) :
    Extends h (h.set a o) none := by
  refine ⟨by simp, fun c b hc hcb => .inl ?_, fun _ hnone => by cases hnone⟩
  unfold Heap.RefersTo at hcb
  by_cases hac : a = c
  · subst hac
    rw [Heap.get_set_self o ha] at hcb
    exact hloses.references ((hheap trivial).2 a ha not_false) b hcb
  · rw [Heap.get_eq_of_get? (Heap.get?_set_of_ne o hac)] at hcb
    exact hcb

/-- Storing a copy grafts it on the object that it is stored in. -/
theorem extends_store {permitted : String → Prop} (hheap : HeapKnown .clear h) (ha : a < h.size)
    (hv : Known .clear h.size v) (hstores : (h.get a).Stores permitted (h.copyValue v).1 o) :
    Extends h ((h.copyValue v).2.set a o) (some a) := by
  obtain ⟨hcopied, hitem⟩ := hheap.copyValue hv
  refine ⟨by simpa using hcopied.size, fun c b hc hcb => ?_, fun _ _ c b hc hcb => ?_⟩
  · unfold Heap.RefersTo at hcb
    by_cases hac : a = c
    · -- The object that the value is stored in refers to it besides, and the value is a copy.
      subst hac
      rw [Heap.get_set_self o (Nat.lt_of_lt_of_le ha hcopied.size)] at hcb
      have ho : ObjectKnown .clear h.size (h.get a) := (hheap trivial).2 a ha not_false
      rcases hstores.references (ho.mono hcopied.size) hitem b hcb with hb | hb
      · exact .inl hb
      · exact .inr ⟨rfl, Heap.le_of_copyValue hv hb⟩
    · rw [Heap.get_eq_of_get? (Heap.get?_set_of_ne o hac),
        Heap.get_eq_of_get? (Heap.get?_copyValue_of_lt hc)] at hcb
      exact .inl hcb
  · have hac : a ≠ c := fun heq => Nat.not_lt.mpr hc (heq ▸ ha)
    unfold Heap.RefersTo at hcb
    rw [Heap.get_eq_of_get? (Heap.get?_set_of_ne o hac)] at hcb
    exact Heap.le_of_refersTo_copyValue hheap hv hc hcb

/-- Every change of the heap extends it. -/
theorem Effect.extends (he : Effect permits h h') (hheap : HeapKnown .clear h) :
    ∃ graft, Extends h h' graft := by
  have hkept := he.heapKept hheap
  cases he with
  | make _ _ => exact ⟨none, extends_of_get? hkept.size fun c => Heap.get?_alloc_of_lt _⟩
  | copy _ => exact ⟨none, extends_of_get? hkept.size fun c => Heap.get?_copy_of_lt⟩
  | take ha hloses => exact ⟨none, extends_take hheap ha hloses⟩
  | store ha hv hstores => exact ⟨some _, extends_store hheap ha hv hstores⟩

/-- What is reached after a change was reached before, or is new and hangs below the graft. -/
theorem Extends.reaches {graft : Option Address} {b : Address} (hx : Extends h h' graft)
    (hheap : HeapKnown .clear h) (ha : a < h.size) (hab : h'.Reaches a b) :
    h.Reaches a b ∨ h.size ≤ b ∧ ∃ c, graft = some c ∧ h.Reaches a c := by
  induction hab with
  | refl => exact .inl .refl
  | @tail b d _ hbd ih =>
    rcases ih with hab | ⟨hb, c, hc, hac⟩
    · have hb : b < h.size := hheap.lt_of_reaches ha hab
      rcases hx.old b d hb hbd with hbd | ⟨hgraft, hd⟩
      · exact .inl (hab.tail hbd)
      · exact .inr ⟨hd, b, hgraft, hab⟩
    · exact .inr ⟨hx.new c hc b d hb hbd, c, hc, hac⟩

end Effects

/-! ### The effects of native functions -/

section Natives

variable {permits : Permission} {m : Machine}

theorem Worldly.heap_eq {P : α → Prop} {x : Eval α} (hx : Worldly x P) (m : Machine) :
    (x.outcome m).2.heap = m.heap := by
  obtain ⟨⟨w, hw⟩, -⟩ := hx m
  rw [hw]

theorem Worldly.effects {P : α → Prop} {x : Eval α} (hx : Worldly x P) :
    Effects permits m.heap (x.outcome m).2.heap := by
  rw [hx.heap_eq m]
  exact .refl

theorem Eval.outcome_ofCause_bind (x : Except Cause α) (k : α → Eval β) (m : Machine) :
    (ofCause x >>= k).outcome m =
      match x with
      | .ok a => (k a).outcome m
      | .error cause => (.error (.failed cause.failure), m) := by
  cases x with
  | ok a => rfl
  | error cause => rfl

theorem Eval.outcome_copyValue_bind (v : Value) (k : Value → Eval α) (m : Machine) :
    (copyValue v >>= k).outcome m =
      (k (m.heap.copyValue v).1).outcome { m with heap := (m.heap.copyValue v).2 } :=
  rfl

theorem Eval.outcome_setObject_bind (a : Address) (o : Object) (k : Unit → Eval α) (m : Machine) :
    (setObject a o >>= k).outcome m = (k ()).outcome { m with heap := m.heap.set a o } :=
  rfl

theorem outcome_arrayAddress {function : String} {v : Value} {a : Address} {m' : Machine}
    (h : (arrayAddress function v).outcome m = (.ok a, m')) : v = .object a ∧ m' = m := by
  cases v with
  | object b =>
    cases h
    exact ⟨rfl, rfl⟩
  | _ => cases h

/-- Writing out a value that has a document leaves the machine as it is. The number of levels is any
here, so that nothing counts it down. -/
theorem Json.outcome_write {m : Machine} {levels : Nat} {v : Value} {j : Json}
    (hencoded : ofValue m.heap levels v = .ok j) :
    (do
      let document ← ofExcept (ofValue (← heap) levels v)
      return .str (← ofCause document.write) : Eval Value).outcome m =
        (ofCause j.write >>= fun text => pure (.str text)).outcome m := by
  have hheap : (do
      let document ← ofExcept (ofValue (← heap) levels v)
      return .str (← ofCause document.write) : Eval Value).outcome m =
        (do
          let document ← ofExcept (ofValue m.heap levels v)
          return .str (← ofCause document.write) : Eval Value).outcome m := rfl
  rw [hheap, hencoded]
  rfl

/-- A value that has a document is written out, unless the document cannot be written. -/
theorem Json.outcome_stringify [Host.Limits] {m : Machine} {a : Address} {j : Json}
    (hencoded : ofValue m.heap stackLimit (.object a) = .ok j) :
    ((Native.json .stringify).apply [.object a]).outcome m =
      (ofCause j.write >>= fun text => pure (.str text)).outcome m := by
  have happly : (Native.json .stringify).apply [.object a] = jsonStringify (.object a) := rfl
  rw [happly, jsonStringify]
  exact outcome_write hencoded

/-- Adding to an array copies what is added, and then changes the array or fails. -/
theorem outcome_arrayAdd (function : String) (operation : Object → Value → Except Cause Object)
    (a : Address) (item : Value) (m : Machine) :
    (arrayAdd function operation (.object a) item).outcome m =
      let m' := { m with heap := (m.heap.copyValue item).2 }
      match operation (m'.heap.get a) (m.heap.copyValue item).1 with
      | .ok o => (.ok .null, { m' with heap := m'.heap.set a o })
      | .error cause => (.error (.failed cause.failure), m') := by
  unfold arrayAdd arrayAddress
  rw [pure_bind, outcome_copyValue_bind, outcome_object_bind, outcome_ofCause_bind]
  dsimp only
  cases operation ((m.heap.copyValue item).2.get a) (m.heap.copyValue item).1 with
  | ok o => rfl
  | error cause => rfl

/-- Taking from an array changes it or fails. -/
theorem outcome_arrayTake (function : String) (operation : Object → Except Cause (Value × Object))
    (a : Address) (m : Machine) :
    (arrayTake function operation (.object a)).outcome m =
      match operation (m.heap.get a) with
      | .ok (value, o) => (.ok value, { m with heap := m.heap.set a o })
      | .error cause => (.error (.failed cause.failure), m) := by
  unfold arrayTake arrayAddress
  rw [pure_bind, outcome_object_bind, outcome_ofCause_bind]
  cases operation (m.heap.get a) with
  | ok taken => rfl
  | error cause => rfl

/-- Adding to an array stores a copy. -/
theorem effects_arrayAdd {function : String} {operation : Object → Value → Except Cause Object}
    {array item : Value} (harray : Known .clear m.heap.size array)
    (hitem : Known .clear m.heap.size item)
    (hoperation : ∀ {permitted o v o'}, operation o v = .ok o' → o.Stores permitted v o') :
    Effects permits m.heap ((arrayAdd function operation array item).outcome m).2.heap := by
  cases array with
  | object a =>
    have ha : a < m.heap.size := (harray trivial).1
    have hget : (m.heap.copyValue item).2.get a = m.heap.get a :=
      Heap.get_eq_of_get? (Heap.get?_copyValue_of_lt ha)
    rw [outcome_arrayAdd]
    simp only [hget]
    cases ho : operation (m.heap.get a) (m.heap.copyValue item).1 with
    | ok o => exact .single (.store ha hitem (hoperation ho))
    | error cause => exact effects_copyValue hitem
  | _ => exact .refl

/-- Taking from an array changes it alone. -/
theorem effects_arrayTake {function : String} {operation : Object → Except Cause (Value × Object)}
    {array : Value} (harray : Known .clear m.heap.size array)
    (hoperation : ∀ {o v o'}, operation o = .ok (v, o') → o.Loses o') :
    Effects permits m.heap ((arrayTake function operation array).outcome m).2.heap := by
  cases array with
  | object a =>
    rw [outcome_arrayTake]
    cases ho : operation (m.heap.get a) with
    | ok taken => exact .single (.take (harray trivial).1 (hoperation ho))
    | error cause => exact .refl
  | _ => exact .refl

theorem effects_alloc {o : Object} (ho : ObjectKnown .clear m.heap.size o)
    (harray : o.isArray = true → ∃ items, o = Object.ofElements items) :
    Effects permits m.heap ((alloc o).outcome m).2.heap :=
  .single (.make ho harray)

theorem effects_applyArray (f : ArrayFunction) {args : List Value}
    (hargs : ∀ v ∈ args, Known .clear m.heap.size v) :
    Effects permits m.heap ((applyArray f args).outcome m).2.heap := by
  unfold applyArray
  split
  · refine effects_alloc (objectKnown_ofElements ?_) fun _ => ⟨[], rfl⟩
    exact fun v hv => absurd hv List.not_mem_nil
  · exact (worldly_arrayAt _ _).effects
  · exact effects_arrayAdd (hargs _ (by simp)) (hargs _ (by simp)) .push
  · exact effects_arrayTake (hargs _ (by simp)) .pop
  · exact effects_arrayTake (hargs _ (by simp)) .shift
  · exact effects_arrayAdd (hargs _ (by simp)) (hargs _ (by simp)) .unshift
  · exact .refl

/-- Setting a property stores a copy under a name that has to be permitted. -/
theorem effects_jsonSet {receiver key value : Value}
    (hreceiver : Known .clear m.heap.size receiver) (hvalue : Known .clear m.heap.size value)
    (hpermits : ∀ a name, receiver = .object a → key = .str name → permits m.heap a name value) :
    Effects permits m.heap ((jsonSet receiver key value).outcome m).2.heap := by
  unfold jsonSet
  split
  · next a name =>
    have ha : a < m.heap.size := (hreceiver trivial).1
    rw [outcome_object_bind]
    split
    · exact .refl
    · rw [outcome_copyValue_bind, outcome_object_bind, outcome_setObject_bind]
      have hget : (m.heap.copyValue value).2.get a = m.heap.get a :=
        Heap.get_eq_of_get? (Heap.get?_copyValue_of_lt ha)
      simp only [hget]
      exact .single (.store ha hvalue (.set (hpermits a name rfl rfl)))
  · exact .refl
  · exact .refl

mutual

/-- Making the value of a document makes one object after the other. -/
theorem effects_build {h : Heap} (hheap : HeapKnown .clear h) (j : Json) :
    Effects permits h (j.build h).2 := by
  cases j with
  | null | bool b | int n | float x | str s =>
    rw [Json.build]
    exact .refl
  | array items =>
    obtain ⟨-, hitems⟩ := hheap.buildItems items
    rw [Json.build]
    refine (effects_buildItems hheap items).tail (.make (objectKnown_ofElements hitems) ?_)
    exact fun _ => ⟨_, rfl⟩
  | object members =>
    obtain ⟨-, hmembers⟩ := hheap.buildMembers members
    rw [Json.build]
    refine (effects_buildMembers hheap members).tail (.make (objectKnown_record hmembers) ?_)
    exact fun harray => by cases harray

theorem effects_buildItems {h : Heap} (hheap : HeapKnown .clear h) (items : List Json) :
    Effects permits h (Json.buildItems h items).2 := by
  cases items with
  | nil =>
    rw [Json.buildItems]
    exact .refl
  | cons item rest =>
    rw [Json.buildItems]
    exact (effects_build hheap item).trans (effects_buildItems (hheap.build item).1.known rest)

theorem effects_buildMembers {h : Heap} (hheap : HeapKnown .clear h)
    (members : List (String × Json)) : Effects permits h (Json.buildMembers h members).2 := by
  cases members with
  | nil =>
    rw [Json.buildMembers]
    exact .refl
  | cons member rest =>
    rw [Json.buildMembers]
    exact (effects_build hheap member.2).trans
      (effects_buildMembers (hheap.build member.2).1.known rest)

end

variable [Host.Limits]

theorem effects_jsonParse (hheap : HeapKnown .clear m.heap) (v : Value) :
    Effects permits m.heap ((jsonParse v).outcome m).2.heap := by
  unfold jsonParse
  split
  · next text =>
    cases Json.parse text with
    | error failure => exact .refl
    | ok j =>
      cases j with
      | array items => exact effects_build hheap (.array items)
      | object members => exact effects_build hheap (.object members)
      | _ => exact .refl
  · exact .refl

/-- Whether the application of a native function is permitted: it sets no property but one that may
be set. -/
def Permission.allows (permits : Permission) (h : Heap) (f : Native) (args : List Value) : Prop :=
  f = .json .set → ∀ a key v, args = [.object a, .str key, v] → permits h a key v

theorem effects_applyJson (f : JsonFunction) {args : List Value} (hheap : HeapKnown .clear m.heap)
    (hargs : ∀ v ∈ args, Known .clear m.heap.size v)
    (hpermits : permits.allows m.heap (.json f) args) :
    Effects permits m.heap ((applyJson f args).outcome m).2.heap := by
  unfold applyJson
  split
  · refine effects_alloc (objectKnown_record ?_) fun harray => by cases harray
    exact fun member hmember => absurd hmember List.not_mem_nil
  · exact (worldly_jsonStringify _).effects
  · exact effects_jsonParse hheap _
  · refine effects_jsonSet (hargs _ (by simp)) (hargs _ (by simp)) ?_
    rintro a name rfl rfl
    exact hpermits rfl a name _ rfl
  · exact .refl

/-- The effects of a native function. -/
theorem effects_native (f : Native) {args : List Value} (hheap : HeapKnown .clear m.heap)
    (hargs : ∀ v ∈ args, Known .clear m.heap.size v) (hpermits : permits.allows m.heap f args) :
    Effects permits m.heap ((f.apply args).outcome m).2.heap := by
  cases f with
  | json f => exact effects_applyJson f hheap hargs hpermits
  | array f => exact effects_applyArray f hargs
  | _ => exact Worldly.effects (worldly_native (by trivial) args)

end Natives

end ModuLang
