import ModuLang.Proofs.HeldValues
import ModuLang.Proofs.WorldSteps

/-!
# Native functions keep every boundary

A native function reaches objects only through its arguments: it changes what it was given, adds
copies to it or takes from it, and makes new objects. So it keeps every boundary that its arguments
are known behind, and it touches neither the environment nor the frames.
-/

namespace ModuLang

open Eval Library

/-! ### Objects -/

section Objects

variable {R : Boundary} {n : Nat} {o o' : Object} {v item : Value} {items : List Value}

theorem known_int (k : Int) : Known R n (.int k) :=
  known_of_isPrimitive trivial

theorem ObjectKnown.get? {key : String} (ho : ObjectKnown R n o) (h : o.get? key = some v) :
    Known R n v :=
  Object.All.get? ho h

theorem ObjectKnown.set {key : String} (ho : ObjectKnown R n o) (hv : Known R n v) :
    ObjectKnown R n (o.set key v) :=
  Object.All.set ho hv

theorem objectKnown_ofElements (hitems : ∀ v ∈ items, Known R n v) :
    ObjectKnown R n (Object.ofElements items) :=
  Object.all_ofElements (known_int _) hitems

theorem ObjectKnown.elements (ho : ObjectKnown R n o) (h : o.elements = .ok items) :
    ∀ v ∈ items, Known R n v :=
  Object.All.elements ho h

/-- What adding an element keeps. -/
theorem ObjectKnown.push (ho : ObjectKnown R n o) (hitem : Known R n item)
    (h : o.push item = .ok o') : ObjectKnown R n o' :=
  Object.All.push ho hitem (fun _ _ => known_int _) h

theorem ObjectKnown.unshift (ho : ObjectKnown R n o) (hitem : Known R n item)
    (h : o.unshift item = .ok o') : ObjectKnown R n o' :=
  Object.All.unshift ho hitem (fun _ _ => known_int _) h

/-- What taking an element keeps: the element may be met, and what is left. -/
theorem ObjectKnown.pop (ho : ObjectKnown R n o) (h : o.pop = .ok (v, o')) :
    Known R n v ∧ ObjectKnown R n o' :=
  Object.All.pop ho (fun _ _ _ => known_int _) h

theorem ObjectKnown.shift (ho : ObjectKnown R n o) (h : o.shift = .ok (v, o')) :
    Known R n v ∧ ObjectKnown R n o' :=
  Object.All.shift ho (fun _ _ _ => known_int _) h

theorem objectKnown_record {members : List (String × Value)}
    (hmembers : ∀ member ∈ members, Known R n member.2) : ObjectKnown R n (Json.record members) :=
  Object.all_record (known_native _) fun member hmember _ => hmembers member hmember

theorem objectKnown_ofList {members : List (String × Value)}
    (hmembers : ∀ member ∈ members, Known R n member.2) :
    ObjectKnown R n { properties := Table.ofList members } :=
  Object.all_ofList hmembers

end Objects

/-! ### Native functions -/

section Natives

variable {R : Boundary} {E : EnvRule} {m : Machine}

/-- A step that touches the world alone keeps every boundary. -/
theorem Worldly.keeps {α : Type} {Q : α → Prop} {P : Nat → α → Prop} {x : Eval α} (hx : Worldly x Q)
    (hQ : ∀ a, Q a → P m.heap.size a) : Keeps R E m x x P := by
  intro hheap henv
  have hout := hx m
  revert hout
  obtain ⟨r, m'⟩ := x.outcome m
  rintro ⟨⟨w, rfl⟩, hends⟩
  refine ⟨rfl, ⟨Nat.le_refl _, fun _ _ _ => rfl, .refl _⟩, hheap, henv, ?_⟩
  cases r with
  | ok a => exact hQ a hends
  | error i =>
    cases i with
    | returned v => exact absurd rfl (hends v)
    | _ => trivial

theorem keeps_null : Keeps R E m (pure Value.null) (pure Value.null) (Known R) :=
  keeps_pure (known_of_isPrimitive trivial)

theorem keeps_str (s : String) : Keeps R E m (pure (Value.str s)) (pure (Value.str s)) (Known R) :=
  keeps_pure (known_of_isPrimitive trivial)

theorem keeps_arrayAddress {function : String} {v : Value} (hv : Known R m.heap.size v) :
    Keeps R E m (arrayAddress function v) (arrayAddress function v) fun n a =>
      Known R n (.object a) := by
  unfold arrayAddress
  split
  · exact keeps_pure hv
  · exact keeps_fail _

theorem keeps_arrayAt {array index : Value} (harray : Known R m.heap.size array) :
    Keeps R E m (arrayAt array index) (arrayAt array index) (Known R) := by
  unfold arrayAt
  split
  · refine (keeps_ofCause (P := fun _ _ => True) fun _ _ => trivial).bind fun key _ h₁ _ => ?_
    refine (keeps_object (harray.mono h₁.size)).bind fun o _ _ ho => ?_
    split
    · next value hvalue => exact keeps_pure (ho.get? hvalue)
    · exact keeps_fail _
  · exact keeps_fail _

theorem keeps_arrayAdd {function : String} {operation : Object → Value → Except Cause Object}
    {array item : Value} (harray : Known R m.heap.size array) (hitem : Known R m.heap.size item)
    (hoperation : ∀ {n o o' v}, ObjectKnown R n o → Known R n v → operation o v = .ok o' →
      ObjectKnown R n o') :
    Keeps R E m (arrayAdd function operation array item) (arrayAdd function operation array item)
      (Known R) := by
  refine (keeps_arrayAddress harray).bind fun a m₁ h₁ ha => ?_
  refine (keeps_copyValue (hitem.mono h₁.size)).bind fun copy m₂ h₂ hcopy => ?_
  refine (keeps_object (ha.mono h₂.size)).bind fun o m₃ h₃ ho => ?_
  refine (keeps_ofCause fun o' ho' => hoperation ho (hcopy.mono h₃.size) ho').bind
    fun o' m₄ h₄ ho' => ?_
  have ha₄ := ((ha.mono h₂.size).mono h₃.size).mono h₄.size
  exact (keeps_setObject ha₄ ho').bind fun _ _ _ _ => keeps_null

theorem keeps_arrayTake {function : String} {operation : Object → Except Cause (Value × Object)}
    {array : Value} (harray : Known R m.heap.size array)
    (hoperation : ∀ {n o o' v}, ObjectKnown R n o → operation o = .ok (v, o') →
      Known R n v ∧ ObjectKnown R n o') :
    Keeps R E m (arrayTake function operation array) (arrayTake function operation array)
      (Known R) := by
  refine (keeps_arrayAddress harray).bind fun a m₁ h₁ ha => ?_
  refine (keeps_object ha).bind fun o m₂ h₂ ho => ?_
  refine (keeps_ofCause (P := fun n taken => Known R n taken.1 ∧ ObjectKnown R n taken.2)
    fun taken htaken => hoperation ho htaken).bind fun taken m₃ h₃ htaken => ?_
  refine (keeps_setObject ((ha.mono h₂.size).mono h₃.size) htaken.2).bind fun _ m₄ h₄ _ => ?_
  exact keeps_pure (htaken.1.mono h₄.size)

theorem keeps_applyArray (f : ArrayFunction) {args : List Value}
    (hargs : ∀ v ∈ args, Known R m.heap.size v) :
    Keeps R E m (applyArray f args) (applyArray f args) (Known R) := by
  unfold applyArray
  split
  · exact keeps_alloc (objectKnown_ofElements fun v hv => absurd hv List.not_mem_nil)
  · exact keeps_arrayAt (hargs _ (by simp))
  · exact keeps_arrayAdd (hargs _ (by simp)) (hargs _ (by simp)) ObjectKnown.push
  · exact keeps_arrayTake (hargs _ (by simp)) ObjectKnown.pop
  · exact keeps_arrayTake (hargs _ (by simp)) ObjectKnown.shift
  · exact keeps_arrayAdd (hargs _ (by simp)) (hargs _ (by simp)) ObjectKnown.unshift
  · exact keeps_null

theorem keeps_jsonSet {receiver key value : Value} (hreceiver : Known R m.heap.size receiver)
    (hvalue : Known R m.heap.size value) :
    Keeps R E m (jsonSet receiver key value) (jsonSet receiver key value) (Known R) := by
  unfold jsonSet
  split
  · refine (keeps_object hreceiver).bind fun o m₁ h₁ _ => ?_
    split
    · exact keeps_fail _
    · refine (keeps_copyValue (hvalue.mono h₁.size)).bind fun copy m₂ h₂ hcopy => ?_
      have hreceiver₂ := (hreceiver.mono h₁.size).mono h₂.size
      refine (keeps_object hreceiver₂).bind fun o m₃ h₃ ho => ?_
      refine (keeps_setObject (hreceiver₂.mono h₃.size) (ho.set (hcopy.mono h₃.size))).bind
        fun _ m₄ h₄ _ => ?_
      exact keeps_pure ((hreceiver₂.mono h₃.size).mono h₄.size)
  · exact keeps_fail _
  · exact keeps_fail _

mutual

/-- Making the value of a document keeps every boundary. -/
theorem HeapKnown.build {h : Heap} (hheap : HeapKnown R h) (j : Json) :
    HeapKept R h (j.build h).2 ∧ Known R (j.build h).2.size (j.build h).1 := by
  cases j with
  | null | bool b | int n | float x | str s =>
    rw [Json.build]
    exact ⟨.refl hheap, known_of_isPrimitive trivial⟩
  | array items =>
    obtain ⟨hkept, hitems⟩ := hheap.buildItems items
    rw [Json.build]
    refine ⟨hkept.trans (hkept.known.alloc (objectKnown_ofElements hitems)), ?_⟩
    exact Heap.size_alloc _ _ ▸ hkept.known.known_next
  | object members =>
    obtain ⟨hkept, hmembers⟩ := hheap.buildMembers members
    rw [Json.build]
    refine ⟨hkept.trans (hkept.known.alloc (objectKnown_record hmembers)), ?_⟩
    exact Heap.size_alloc _ _ ▸ hkept.known.known_next

theorem HeapKnown.buildItems {h : Heap} (hheap : HeapKnown R h) (items : List Json) :
    HeapKept R h (Json.buildItems h items).2 ∧
      ∀ v ∈ (Json.buildItems h items).1, Known R (Json.buildItems h items).2.size v := by
  cases items with
  | nil =>
    rw [Json.buildItems]
    exact ⟨.refl hheap, fun v hv => absurd hv List.not_mem_nil⟩
  | cons item rest =>
    obtain ⟨hfirst, hvalue⟩ := hheap.build item
    obtain ⟨hrest, hvalues⟩ := hfirst.known.buildItems rest
    rw [Json.buildItems]
    refine ⟨hfirst.trans hrest, fun v hv => ?_⟩
    rcases List.mem_cons.mp hv with rfl | hv
    · exact hvalue.mono hrest.size
    · exact hvalues v hv

theorem HeapKnown.buildMembers {h : Heap} (hheap : HeapKnown R h) (members : List (String × Json)) :
    HeapKept R h (Json.buildMembers h members).2 ∧
      ∀ entry ∈ (Json.buildMembers h members).1,
        Known R (Json.buildMembers h members).2.size entry.2 := by
  cases members with
  | nil =>
    rw [Json.buildMembers]
    exact ⟨.refl hheap, fun v hv => absurd hv List.not_mem_nil⟩
  | cons member rest =>
    obtain ⟨name, item⟩ := member
    obtain ⟨hfirst, hvalue⟩ := hheap.build item
    obtain ⟨hrest, hvalues⟩ := hfirst.known.buildMembers rest
    rw [Json.buildMembers]
    refine ⟨hfirst.trans hrest, fun entry hentry => ?_⟩
    rcases List.mem_cons.mp hentry with rfl | hentry
    · exact hvalue.mono hrest.size
    · exact hvalues entry hentry

end

variable [Host.Limits]

theorem keeps_jsonParse (v : Value) : Keeps R E m (jsonParse v) (jsonParse v) (Known R) := by
  unfold jsonParse
  split
  · refine (keeps_ofExcept (P := fun _ _ => True) fun _ _ => trivial).bind fun j _ _ _ => ?_
    split
    · exact keeps_modifyHeap (f := fun h => (Json.array _).build h) fun hheap => hheap.build _
    · exact keeps_modifyHeap (f := fun h => (Json.object _).build h) fun hheap => hheap.build _
    · exact keeps_fail _
  · exact keeps_fail _

theorem keeps_applyJson (f : JsonFunction) {args : List Value}
    (hargs : ∀ v ∈ args, Known R m.heap.size v) :
    Keeps R E m (applyJson f args) (applyJson f args) (Known R) := by
  unfold applyJson
  split
  · exact keeps_alloc (objectKnown_record fun member hmember => absurd hmember List.not_mem_nil)
  · exact (worldly_jsonStringify _).keeps fun v hv => known_of_isPrimitive hv
  · exact keeps_jsonParse _
  · exact keeps_jsonSet (hargs _ (by simp)) (hargs _ (by simp))
  · exact keeps_null

/-- A native function keeps every boundary that its arguments are known behind. -/
theorem keeps_native (f : Native) {args : List Value}
    (hargs : ∀ v ∈ args, Known R m.heap.size v) :
    Keeps R E m (f.apply args) (f.apply args) (Known R) := by
  cases f with
  | json f => exact keeps_applyJson f hargs
  | array f => exact keeps_applyArray f hargs
  | _ => exact Worldly.keeps (worldly_native (by trivial) args) fun v hv => known_of_isPrimitive hv

end Natives

end ModuLang
