import ModuLang.Proofs.ArrayShape

/-!
# Renderings

What is shown of a value is a tree with a node for each place where a value occurs. Objects are shared
and may hold themselves, so one object may occur at many places. `Heap.WrittenInside` states for each
place what stands there: dots for an object that is one of those around the place, and else all
elements of an array, or all properties of an object but for the methods.

These rules speak about places alone, not about how a value is shown. Still they leave no choice, so a
value has one rendering, and what is shown is its text, unless there is an integer in it that has too
many digits for the machine to write. That there is one at all, and no other, is an induction on the
number of objects that are not around a place: this number gets smaller on the way down, because an
object that is written out is none of those around it.
-/

namespace ModuLang

/-! ### What is written -/

/-- The way in which a value is written: a tree with a node for each place where a value occurs. -/
inductive Rendering where
  | plain (v : Value) (text : String)
  | elided (a : Address) (asArray : Bool)
  | array (a : Address) (items : List Rendering)
  | record (a : Address) (members : List (String × Rendering))

namespace Rendering

/-- The value that is written. -/
def value : Rendering → Value
  | .plain v _ => v
  | .elided a _ | .array a _ | .record a _ => .object a

/-- Whether dots stand for an object. -/
def isElided : Rendering → Bool
  | .elided _ _ => true
  | _ => false

mutual

/-- The text that is written. -/
def text : Rendering → String
  | .plain _ s => s
  | .elided _ asArray => if asArray then "[...]" else "\x7b...\x7d"
  | .array _ items => "[" ++ ", ".intercalate (itemTexts items) ++ "]"
  | .record _ members => "\x7b" ++ ", ".intercalate (memberTexts members) ++ "\x7d"

/-- The texts of the elements of an array. -/
def itemTexts : List Rendering → List String
  | [] => []
  | item :: items => item.text :: itemTexts items

/-- The texts of the properties of an object, each behind its name. -/
def memberTexts : List (String × Rendering) → List String
  | [] => []
  | (key, member) :: members => ("\"" ++ key ++ "\": " ++ member.text) :: memberTexts members

end

theorem itemTexts_eq_map (items : List Rendering) : itemTexts items = items.map text := by
  induction items with
  | nil => rfl
  | cons item items ih => rw [itemTexts, ih, List.map_cons]

theorem memberTexts_eq_map (members : List (String × Rendering)) :
    memberTexts members = members.map fun member => "\"" ++ member.1 ++ "\": " ++ member.2.text := by
  induction members with
  | nil => rfl
  | cons member members ih => rw [memberTexts, ih, List.map_cons]

/-- The text of a value by itself: a text stands without quotes. -/
def display : Rendering → String
  | .plain (.str s) _ => s
  | t => t.text

/-- Where a value occurs in what is written: it stands inside some objects, the innermost first. -/
inductive Occurs : Rendering → List Address → Rendering → Prop where
  | root (t : Rendering) : Occurs t [] t
  | item {a : Address} {items : List Rendering} {item u : Rendering} {inside : List Address} :
    item ∈ items → Occurs item inside u → Occurs (.array a items) (inside ++ [a]) u
  | member {a : Address} {members : List (String × Rendering)} {key : String} {t u : Rendering}
    {inside : List Address} : (key, t) ∈ members → Occurs t inside u →
    Occurs (.record a members) (inside ++ [a]) u

end Rendering

/-- Whether no integer that occurs has too many digits for the machine to write. -/
def Rendering.Writable (t : Rendering) : Prop :=
  ∀ inside n s, t.Occurs inside (.plain (.int n) s) → Number.isWritable n = true

/-- Whether a text stands for a value that is no object. One stands for every integer, as many digits
as it has. -/
def Heap.StandsFor (h : Heap) (s : String) : Value → Prop
  | .int n => s = toString n
  | v => h.showInner v = .ok s

/-- Whether a value that occurs inside some objects is written as it should be. An object is elided if
it is one of them; else an array is written with all its elements, and any other object with all its
properties but for the methods, in their order. -/
def Heap.WrittenInside (h : Heap) (inside : List Address) : Rendering → Prop
  | .plain v s => (∀ a, v ≠ .object a) ∧ h.StandsFor s v
  | .elided a asArray => a ∈ inside ∧ (h.get a).isArray = asArray
  | .array a items => a ∉ inside ∧ (h.get a).isArray = true ∧
      ∀ i : Nat, (h.get a).get? (Object.indexKey i) = items[i]?.map Rendering.value
  | .record a members => a ∉ inside ∧ (h.get a).isArray = false ∧
      members.map (fun member => (member.1, member.2.value)) =
        (h.get a).properties.entries.filter fun entry => entry.1 ∉ (h.get a).methods

/-- Whether everything that occurs is written as it should be, if all of it is inside some objects. -/
def Heap.Renders (h : Heap) (above : List Address) (t : Rendering) : Prop :=
  ∀ inside u, t.Occurs inside u → h.WrittenInside (inside ++ above) u

section

variable {h : Heap} {above : List Address} {a : Address}

theorem Heap.Renders.root {t : Rendering} (ht : h.Renders above t) : h.WrittenInside above t :=
  ht [] t (.root t)

theorem Heap.Renders.item {items : List Rendering} {item : Rendering}
    (ht : h.Renders above (.array a items)) (hitem : item ∈ items) : h.Renders (a :: above) item := by
  intro inside u hu
  have := ht _ u (.item hitem hu)
  rwa [List.append_assoc] at this

theorem Heap.Renders.member {members : List (String × Rendering)} {key : String} {t : Rendering}
    (ht : h.Renders above (.record a members)) (hmember : (key, t) ∈ members) :
    h.Renders (a :: above) t := by
  intro inside u hu
  have := ht _ u (.member hmember hu)
  rwa [List.append_assoc] at this

theorem Heap.renders_plain {v : Value} {s : String} (hv : ∀ a, v ≠ .object a)
    (hs : h.StandsFor s v) : h.Renders above (.plain v s) := by
  intro inside u hu
  cases hu with
  | root => exact ⟨hv, hs⟩

theorem Heap.renders_elided (ha : a ∈ above) : h.Renders above (.elided a (h.get a).isArray) := by
  intro inside u hu
  cases hu with
  | root => exact ⟨ha, rfl⟩

theorem Heap.renders_array {items : List Rendering} (hroot : h.WrittenInside above (.array a items))
    (hitems : ∀ item ∈ items, h.Renders (a :: above) item) : h.Renders above (.array a items) := by
  intro inside u hu
  cases hu with
  | root => exact hroot
  | item hitem hu =>
    rw [List.append_assoc]
    exact hitems _ hitem _ u hu

theorem Heap.renders_record {members : List (String × Rendering)}
    (hroot : h.WrittenInside above (.record a members))
    (hmembers : ∀ member ∈ members, h.Renders (a :: above) member.2) :
    h.Renders above (.record a members) := by
  intro inside u hu
  cases hu with
  | root => exact hroot
  | member hmember hu =>
    rw [List.append_assoc]
    exact hmembers _ hmember _ u hu

end

/-! ### Integers that can be written -/

namespace Rendering

variable {a : Address}

theorem writable_plain_iff {v : Value} {s : String} :
    (plain v s).Writable ↔ ∀ n, v = .int n → Number.isWritable n = true := by
  constructor
  · rintro hwritable n rfl
    exact hwritable [] n s (.root _)
  · intro hint inside n s' hocc
    cases hocc with
    | root => exact hint n rfl

theorem writable_elided (asArray : Bool) : (elided a asArray).Writable := by
  intro inside n s hocc
  cases hocc

theorem writable_array_iff {items : List Rendering} :
    (array a items).Writable ↔ ∀ item ∈ items, item.Writable := by
  constructor
  · intro hwritable item hitem inside n s hocc
    exact hwritable _ n s (.item hitem hocc)
  · intro hitems inside n s hocc
    cases hocc with
    | item hitem hocc => exact hitems _ hitem _ n s hocc

theorem writable_record_iff {members : List (String × Rendering)} :
    (record a members).Writable ↔ ∀ member ∈ members, member.2.Writable := by
  constructor
  · intro hwritable member hmember inside n s hocc
    exact hwritable _ n s (.member hmember hocc)
  · intro hmembers inside n s hocc
    cases hocc with
    | member hmember hocc => exact hmembers _ hmember _ n s hocc

end Rendering

/-! ### Elements and properties -/

namespace Object

variable {o : Object} {n : Nat}

/-- The elements of an array are the values under its indices. -/
theorem ArrayShaped.elements_eq (ho : o.ArrayShaped n) {items : List Value}
    (hitems : ∀ i : Nat, o.get? (indexKey i) = items[i]?) : o.elements = .ok items := by
  have hlength : items.length = n := by
    have hlt : ∀ i, i < n ↔ i < items.length := fun i => by
      rw [← ho.isSome_index, hitems]
      simp
    have hle := hlt n
    have hge := hlt items.length
    omega
  unfold Object.elements
  rw [ho.length_eq, ← hlength]
  refine elementsFrom_eq fun k v hk => ?_
  rw [Nat.zero_add, hitems, hk]

theorem ArrayShaped.exists_items (ho : o.ArrayShaped n) :
    ∃ items : List Value, ∀ i : Nat, o.get? (indexKey i) = items[i]? := by
  refine ⟨(List.range n).map fun i : Nat => (o.get? (indexKey i)).getD .null, fun i => ?_⟩
  by_cases hi : i < n
  · obtain ⟨v, hv⟩ := Option.isSome_iff_exists.mp ((ho.isSome_index i).mpr hi)
    rw [List.getElem?_map, List.getElem?_range hi, Option.map_some, hv, Option.getD_some]
  · have hnone := mt (ho.isSome_index i).mp hi
    rw [Option.not_isSome_iff_eq_none] at hnone
    rw [hnone, List.getElem?_eq_none (by simpa using hi)]

theorem plainEntries_eq_filter (o : Object) :
    o.plainEntries = o.properties.entries.filter fun entry => entry.1 ∉ o.methods := by
  unfold plainEntries
  congr 1
  funext entry
  simp

end Object

/-! ### Values that lead nowhere else -/

/-- Whether everything that a value leads to is there, and every array among it has its shape. -/
structure Heap.WellFormedFrom (h : Heap) (v : Value) : Prop where
  there : ∀ a, h.LedTo [v] a → a < h.size
  shaped : ∀ a, h.LedTo [v] a → (h.get a).isArray = true → ∃ n, (h.get a).ArrayShaped n

section

variable {h : Heap} {above : List Address} {a b : Address} {v : Value}

theorem Heap.ledTo_object : h.LedTo [.object a] a :=
  ⟨a, List.mem_singleton.mpr rfl, .refl⟩

/-- What is led to is there, if the values are and every object refers to objects that are. -/
theorem Heap.lt_size_of_ledTo {vs : List Value} (hroots : ∀ r, .object r ∈ vs → r < h.size)
    (hclosed : ∀ b, b < h.size → ∀ c ∈ (h.get b).references, c < h.size) (ha : h.LedTo vs a) :
    a < h.size := by
  obtain ⟨r, hr, hra⟩ := ha
  induction hra with
  | refl => exact hroots r hr
  | tail _ hbc ih => exact hclosed _ ih _ hbc

/-- What a property leads to, its object leads to. -/
theorem Heap.ledTo_of_entry {entry : String × Value}
    (hentry : entry ∈ (h.get a).properties.entries) (hb : h.LedTo [entry.2] b) :
    h.LedTo [.object a] b := by
  obtain ⟨r, hr, hrb⟩ := hb
  have hvalue : .object r = entry.2 := List.mem_singleton.mp hr
  have har : h.RefersTo a r := Object.mem_references.mpr ⟨entry, hentry, hvalue.symm⟩
  exact ⟨a, List.mem_singleton.mpr rfl, hrb.head har⟩

theorem Heap.WellFormedFrom.entry {entry : String × Value} (ha : h.WellFormedFrom (.object a))
    (hentry : entry ∈ (h.get a).properties.entries) : h.WellFormedFrom entry.2 where
  there b hb := ha.there b (Heap.ledTo_of_entry hentry hb)
  shaped b hb := ha.shaped b (Heap.ledTo_of_entry hentry hb)

theorem Heap.WellFormedFrom.lt_size (ha : h.WellFormedFrom (.object a)) : a < h.size :=
  ha.there a Heap.ledTo_object

theorem Heap.WellFormedFrom.item {items : List Value} (ha : h.WellFormedFrom (.object a))
    (hitems : ∀ i : Nat, (h.get a).get? (Object.indexKey i) = items[i]?) (hv : v ∈ items) :
    h.WellFormedFrom v := by
  obtain ⟨i, hi⟩ := List.mem_iff_getElem?.mp hv
  exact ha.entry (Table.mem_of_get? ((hitems i).trans hi))

/-! ### Every value has one rendering -/

theorem Heap.showNested_of_ne_object (hv : ∀ a, v ≠ .object a) (above : List Address) :
    h.showNested above v = h.showInner v := by
  cases v with
  | object a => exact absurd rfl (hv a)
  | _ =>
    rw [Heap.showInner, Heap.showNested, Heap.showNested]

theorem Heap.exists_standsFor (hv : ∀ a, v ≠ .object a) : ∃ s, h.StandsFor s v := by
  cases v with
  | object a => exact absurd rfl (hv a)
  | int n => exact ⟨_, rfl⟩
  | _ =>
    change ∃ s, h.showInner _ = .ok s
    rw [Heap.showInner, Heap.showNested]
    exact ⟨_, rfl⟩

theorem Heap.StandsFor.unique {s s' : String} (hs : h.StandsFor s v) (hs' : h.StandsFor s' v) :
    s = s' := by
  cases v with
  | int n => exact Eq.trans hs (Eq.symm hs')
  | _ => exact Except.ok.inj (Eq.trans (Eq.symm hs) hs')

/-- What is shown of a rendered value inside some objects: its text, if all its integers can be written,
and else the machine gives up. -/
structure Heap.ShownAs (h : Heap) (above : List Address) (t : Rendering) : Prop where
  written : t.Writable → h.showNested above t.value = .ok t.text
  refused : ¬t.Writable → h.showNested above t.value = .error (.givenUp .unreadableText)

theorem Heap.ShownAs.cases {t : Rendering} (ht : h.ShownAs above t) :
    (∃ s, h.showNested above t.value = .ok s) ∨
      h.showNested above t.value = .error (.givenUp .unreadableText) := by
  by_cases hwritable : t.Writable
  · exact .inl ⟨_, ht.written hwritable⟩
  · exact .inr (ht.refused hwritable)

theorem Heap.ShownAs.ne_ok {t : Rendering} (ht : h.ShownAs above t) (hunwritable : ¬t.Writable)
    (s : String) : h.showNested above t.value ≠ .ok s := by
  rw [ht.refused hunwritable]
  simp

theorem Heap.shownAs_plain {s : String} (hv : ∀ a, v ≠ .object a) (hs : h.StandsFor s v) :
    h.ShownAs above (.plain v s) := by
  have hshown : h.showNested above v = h.showInner v := h.showNested_of_ne_object hv above
  cases v with
  | int n =>
    obtain rfl : s = toString n := hs
    have hwrites : h.showInner (.int n) = Number.writeInteger n := by
      rw [Heap.showInner, Heap.showNested]
    refine ⟨fun hwritable => ?_, fun hunwritable => ?_⟩
    · have hn := Rendering.writable_plain_iff.mp hwritable n rfl
      exact hshown.trans (hwrites.trans (Number.writeInteger_of_isWritable hn))
    · have hn : ¬Number.isWritable n = true := fun hn =>
        hunwritable (Rendering.writable_plain_iff.mpr fun k hk => Value.int.inj hk ▸ hn)
      exact hshown.trans (hwrites.trans (Number.writeInteger_of_not_isWritable hn))
  | _ =>
    exact ⟨fun _ => hshown.trans hs, fun hunwritable =>
      absurd (Rendering.writable_plain_iff.mpr fun n hn => by cases hn) hunwritable⟩

theorem Heap.shownAs_elided (ha : a ∈ above) :
    h.ShownAs above (.elided a (h.get a).isArray) := by
  refine ⟨fun _ => ?_, fun hunwritable => absurd (Rendering.writable_elided _) hunwritable⟩
  have hold : ¬(above.contains a = false ∧ a < h.size) := by simp [ha]
  rw [Rendering.value, Heap.showNested]
  simp only [dif_neg hold]
  rfl

theorem Heap.shownAs_array {items : List Rendering} (habove : a ∉ above) (ha : a < h.size)
    (harray : (h.get a).isArray = true)
    (helements : (h.get a).elements = .ok (items.map Rendering.value))
    (hitems : ∀ item ∈ items, h.ShownAs (a :: above) item) : h.ShownAs above (.array a items) := by
  have hnew : above.contains a = false ∧ a < h.size := ⟨by simpa using habove, ha⟩
  have hshown : h.showNested above (.object a) =
      ((items.map Rendering.value).mapM (h.showNested (a :: above)) >>= fun texts =>
        pure ("[" ++ ", ".intercalate texts ++ "]")) := by
    rw [Heap.showNested]
    simp only [dif_pos hnew, harray, if_true, helements]
    rfl
  refine ⟨fun hwritable => ?_, fun hunwritable => ?_⟩
  · have hall : (items.map Rendering.value).mapM (h.showNested (a :: above)) =
        .ok (items.map Rendering.text) := mapM_map_eq_ok fun item hitem =>
      (hitems item hitem).written (Rendering.writable_array_iff.mp hwritable item hitem)
    rw [Rendering.value, hshown, hall, Rendering.text, Rendering.itemTexts_eq_map]
    rfl
  · obtain ⟨item, hitem, hnot⟩ : ∃ item ∈ items, ¬item.Writable := by
      simpa using mt Rendering.writable_array_iff.mpr hunwritable
    have hfails := mapM_eq_error_of_mem (f := h.showNested (a :: above))
      (List.forall_mem_map.mpr fun item hitem => (hitems item hitem).cases)
      (List.mem_map_of_mem hitem) ((hitems item hitem).ne_ok hnot)
    rw [Rendering.value, hshown, hfails]
    rfl

theorem Heap.shownAs_record {members : List (String × Rendering)} (habove : a ∉ above)
    (ha : a < h.size) (harray : (h.get a).isArray = false)
    (hentries : members.map (fun member => (member.1, member.2.value)) = (h.get a).plainEntries)
    (hmembers : ∀ member ∈ members, h.ShownAs (a :: above) member.2) :
    h.ShownAs above (.record a members) := by
  have hnew : above.contains a = false ∧ a < h.size := ⟨by simpa using habove, ha⟩
  let form (entry : String × Value) : Except Cause String := do
    return "\"" ++ entry.1 ++ "\": " ++ (← h.showNested (a :: above) entry.2)
  have hshown : h.showNested above (.object a) =
      ((members.map fun member => (member.1, member.2.value)).mapM form >>= fun pairs =>
        pure ("\x7b" ++ ", ".intercalate pairs ++ "\x7d")) := by
    rw [hentries, Heap.showNested]
    simp only [dif_pos hnew, harray, Bool.false_eq_true, if_false]
    rfl
  refine ⟨fun hwritable => ?_, fun hunwritable => ?_⟩
  · have hall : (members.map fun member => (member.1, member.2.value)).mapM form =
        .ok (members.map fun member => "\"" ++ member.1 ++ "\": " ++ member.2.text) := by
      refine mapM_map_eq_ok fun member hmember => ?_
      have hmember := (hmembers member hmember).written
        (Rendering.writable_record_iff.mp hwritable member hmember)
      simp only [form, hmember]
      rfl
    rw [Rendering.value, hshown, hall, Rendering.text, Rendering.memberTexts_eq_map]
    rfl
  · obtain ⟨key, t, hmember, hnot⟩ : ∃ key t, (key, t) ∈ members ∧ ¬t.Writable := by
      simpa using mt Rendering.writable_record_iff.mpr hunwritable
    have hcases : ∀ member ∈ members, (∃ s, form (member.1, member.2.value) = .ok s) ∨
        form (member.1, member.2.value) = .error (.givenUp .unreadableText) := fun member hmember =>
      (hmembers member hmember).cases.imp exists_showEntry_iff.mpr showEntry_eq_error_iff.mpr
    have hfails := mapM_eq_error_of_mem (f := form) (List.forall_mem_map.mpr hcases)
      (List.mem_map_of_mem hmember) fun s hs => by
        obtain ⟨text, htext⟩ := exists_showEntry_iff.mp ⟨s, hs⟩
        exact (hmembers _ hmember).ne_ok hnot text htext
    rw [Rendering.value, hshown, hfails]
    rfl

/-- Whether a tree is a rendering of a value inside some objects, and is what is shown there. -/
structure Heap.RenderedAs (h : Heap) (above : List Address) (v : Value) (t : Rendering) : Prop where
  value : t.value = v
  shown : h.ShownAs above t
  renders : h.Renders above t

theorem Heap.exists_rendered_array (hv : h.WellFormedFrom (.object a)) (habove : a ∉ above)
    (harray : (h.get a).isArray = true)
    (heach : ∀ w, h.WellFormedFrom w → ∃ t, h.RenderedAs (a :: above) w t) :
    ∃ t, h.RenderedAs above (.object a) t := by
  -- The elements that are shown are those under the indices, because the array has its shape.
  obtain ⟨n, hn⟩ := hv.shaped a Heap.ledTo_object harray
  obtain ⟨vs, hvs⟩ := hn.exists_items
  obtain ⟨items, hitems⟩ := exists_forall₂ fun w hw => heach w (hv.item hvs hw)
  have hvalues : vs = items.map Rendering.value := by
    have hsame : List.Forall₂ (· = ·) vs (items.map Rendering.value) :=
      List.forall₂_map_right_iff.mpr (hitems.imp fun w item hR => hR.value.symm)
    rwa [List.forall₂_eq_eq_eq] at hsame
  have hrendered : ∀ item ∈ items, h.RenderedAs (a :: above) item.value item := by
    intro item hitem
    obtain ⟨w, -, hR⟩ := exists_of_mem_right hitems hitem
    exact hR.value.symm ▸ hR
  refine ⟨.array a items, rfl, ?_, Heap.renders_array ⟨habove, harray, fun i => ?_⟩
    fun item hitem => (hrendered item hitem).renders⟩
  · exact Heap.shownAs_array habove hv.lt_size harray (hvalues ▸ hn.elements_eq hvs)
      fun item hitem => (hrendered item hitem).shown
  · rw [hvs, hvalues, List.getElem?_map]

theorem Heap.exists_rendered_record (hv : h.WellFormedFrom (.object a)) (habove : a ∉ above)
    (harray : (h.get a).isArray = false)
    (heach : ∀ w, h.WellFormedFrom w → ∃ t, h.RenderedAs (a :: above) w t) :
    ∃ t, h.RenderedAs above (.object a) t := by
  -- Each entry has a rendering below this object; `members` are those of the entries in order.
  have hmatched : ∃ members : List (String × Rendering), List.Forall₂ (fun entry member =>
      entry.1 = member.1 ∧ h.RenderedAs (a :: above) entry.2 member.2)
      (h.get a).plainEntries members := by
    refine exists_forall₂ fun entry hentry => ?_
    obtain ⟨t, ht⟩ := heach entry.2 (hv.entry (List.mem_filter.mp hentry).1)
    exact ⟨(entry.1, t), rfl, ht⟩
  obtain ⟨members, hmembers⟩ := hmatched
  have hentries : members.map (fun member => (member.1, member.2.value)) =
      (h.get a).plainEntries := by
    have hsame : List.Forall₂ (· = ·) (h.get a).plainEntries
        (members.map fun member => (member.1, member.2.value)) :=
      List.forall₂_map_right_iff.mpr
        (hmembers.imp fun entry member hR => Prod.ext hR.1 hR.2.value.symm)
    rw [List.forall₂_eq_eq_eq] at hsame
    exact hsame.symm
  have hrendered : ∀ member ∈ members, h.RenderedAs (a :: above) member.2.value member.2 := by
    intro member hmember
    obtain ⟨entry, -, -, hR⟩ := exists_of_mem_right hmembers hmember
    exact hR.value.symm ▸ hR
  refine ⟨.record a members, rfl, ?_, Heap.renders_record ⟨habove, harray, ?_⟩
    fun member hmember => (hrendered member hmember).renders⟩
  · exact Heap.shownAs_record habove hv.lt_size harray hentries fun member hmember =>
      (hrendered member hmember).shown
  · rw [hentries, Object.plainEntries_eq_filter]

/-- A value has a rendering, and that is what is shown. -/
theorem Heap.exists_rendered (hv : h.WellFormedFrom v) (above : List Address) :
    ∃ t, h.RenderedAs above v t := by
  -- The number of objects that are not above gets smaller on the way down.
  induction hn : h.unvisited above using Nat.strong_induction_on generalizing above v with
  | _ n ih =>
    by_cases hplain : ∀ a, v ≠ .object a
    · obtain ⟨s, hs⟩ := h.exists_standsFor hplain
      exact ⟨.plain v s, rfl, Heap.shownAs_plain hplain hs, Heap.renders_plain hplain hs⟩
    obtain ⟨a, rfl⟩ : ∃ a, v = .object a := by simpa using hplain
    by_cases habove : a ∈ above
    · exact ⟨.elided a (h.get a).isArray, rfl, Heap.shownAs_elided habove,
        Heap.renders_elided habove⟩
    · have hlt : h.unvisited (a :: above) < n :=
        hn ▸ h.unvisited_cons_lt (by simpa using habove) hv.lt_size
      have heach : ∀ w, h.WellFormedFrom w → ∃ t, h.RenderedAs (a :: above) w t := fun w hw =>
        ih _ hlt hw (a :: above) rfl
      cases harray : (h.get a).isArray with
      | true => exact Heap.exists_rendered_array hv habove harray heach
      | false => exact Heap.exists_rendered_record hv habove harray heach

/-! ### The rendering is the only one -/

/-- A rendering of an object is dots where the object is one of those above, and else an array or a record
as the object is marked. -/
theorem Heap.Renders.shape {t : Rendering} (ht : h.Renders above t) (hvalue : t.value = .object a) :
    if a ∈ above then t = .elided a (h.get a).isArray
    else if (h.get a).isArray = true then ∃ items, t = .array a items
    else ∃ members, t = .record a members := by
  have hroot := ht.root
  cases t with
  | plain v s => exact absurd hvalue (hroot.1 a)
  | elided b asArray =>
    cases hvalue
    rw [if_pos hroot.1, hroot.2]
  | array b items =>
    cases hvalue
    rw [if_neg hroot.1, if_pos hroot.2.1]
    exact ⟨items, rfl⟩
  | record b members =>
    cases hvalue
    rw [if_neg hroot.1, if_neg (Bool.eq_false_iff.mp hroot.2.1)]
    exact ⟨members, rfl⟩

/-- By the rules an object is elided exactly if it is one of those that it occurs inside of. -/
theorem Heap.isElided_iff {t : Rendering} (ht : h.WrittenInside above t)
    (hvalue : t.value = .object a) : t.isElided = true ↔ a ∈ above := by
  cases t with
  | plain v s => exact absurd hvalue (ht.1 a)
  | elided b asArray =>
    cases hvalue
    exact iff_of_true rfl ht.1
  | array b items | record b members =>
    cases hvalue
    exact iff_of_false Bool.false_ne_true ht.1

theorem Heap.Renders.eq_plain {t : Rendering} {s : String} (ht : h.Renders above t)
    (hplain : ∀ a, t.value ≠ .object a) (hs : h.StandsFor s t.value) : t = .plain t.value s := by
  have hroot := ht.root
  cases t with
  | plain v text => rw [Rendering.value, hroot.2.unique hs]
  | _ => exact absurd rfl (hplain _)

/-- Lists with the same images are the same, if elements with the same image are. -/
theorem eq_of_map_eq {α β : Type} {f : α → β} {xs ys : List α} (hmap : xs.map f = ys.map f)
    (heq : ∀ x ∈ xs, ∀ y ∈ ys, f x = f y → x = y) : xs = ys := by
  induction xs generalizing ys with
  | nil => exact (List.map_eq_nil_iff.mp hmap.symm).symm
  | cons x xs ih =>
    cases ys with
    | nil => cases hmap
    | cons y ys =>
      obtain ⟨hfirst, hrest⟩ := List.cons.inj hmap
      rw [heq x List.mem_cons_self y List.mem_cons_self hfirst, ih hrest fun x' hx' y' hy' =>
        heq x' (List.mem_cons_of_mem _ hx') y' (List.mem_cons_of_mem _ hy')]

theorem Heap.Renders.wellFormed_item {items : List Rendering} {item : Rendering}
    (ht : h.Renders above (.array a items)) (hv : h.WellFormedFrom (.object a)) (hitem : item ∈ items) :
    h.WellFormedFrom item.value := by
  obtain ⟨-, -, hitems⟩ := ht.root
  obtain ⟨i, hi⟩ := List.mem_iff_getElem?.mp hitem
  have hget : (h.get a).get? (Object.indexKey i) = some item.value := by
    rw [hitems, hi, Option.map_some]
  exact hv.entry (Table.mem_of_get? hget)

theorem Heap.Renders.wellFormed_member {members : List (String × Rendering)} {key : String}
    {t : Rendering} (ht : h.Renders above (.record a members)) (hv : h.WellFormedFrom (.object a))
    (hmember : (key, t) ∈ members) : h.WellFormedFrom t.value := by
  obtain ⟨-, -, hmembers⟩ := ht.root
  have hentry : (key, t.value) ∈ members.map fun member => (member.1, member.2.value) :=
    List.mem_map_of_mem hmember
  rw [hmembers] at hentry
  exact hv.entry (List.mem_filter.mp hentry).1

/-- Renderings of an array have the same elements, if what stands below has one rendering. -/
theorem Heap.Renders.items_eq {items items' : List Rendering} (hv : h.WellFormedFrom (.object a))
    (ht : h.Renders above (.array a items)) (ht' : h.Renders above (.array a items'))
    (heach : ∀ t t' : Rendering, h.WellFormedFrom t.value → h.Renders (a :: above) t →
      h.Renders (a :: above) t' → t.value = t'.value → t = t') : items = items' := by
  obtain ⟨-, -, hitems⟩ := ht.root
  obtain ⟨-, -, hitems'⟩ := ht'.root
  have hvalues : items.map Rendering.value = items'.map Rendering.value := by
    refine List.ext_getElem? fun i => ?_
    rw [List.getElem?_map, List.getElem?_map, ← hitems, ← hitems']
  refine eq_of_map_eq hvalues fun item hitem item' hitem' heq => ?_
  exact heach item item' (ht.wellFormed_item hv hitem) (ht.item hitem) (ht'.item hitem') heq

/-- Renderings of an object have the same properties, if what stands below has one rendering. -/
theorem Heap.Renders.members_eq {members members' : List (String × Rendering)}
    (hv : h.WellFormedFrom (.object a)) (ht : h.Renders above (.record a members))
    (ht' : h.Renders above (.record a members'))
    (heach : ∀ t t' : Rendering, h.WellFormedFrom t.value → h.Renders (a :: above) t →
      h.Renders (a :: above) t' → t.value = t'.value → t = t') : members = members' := by
  obtain ⟨-, -, hmembers⟩ := ht.root
  obtain ⟨-, -, hmembers'⟩ := ht'.root
  refine eq_of_map_eq (hmembers.trans hmembers'.symm) ?_
  rintro ⟨key, t⟩ hmember ⟨key', t'⟩ hmember' heq
  obtain ⟨rfl, hvalues⟩ := Prod.mk.inj heq
  rw [heach t t' (ht.wellFormed_member hv hmember) (ht.member hmember) (ht'.member hmember') hvalues]

/-- The rules leave no choice: a value has one rendering. -/
theorem Heap.Renders.eq {t t' : Rendering} (hv : h.WellFormedFrom t.value) (ht : h.Renders above t)
    (ht' : h.Renders above t') (hvalue : t.value = t'.value) : t = t' := by
  -- The induction is that of `exists_rendered`: below an object that is written out, one less is left.
  induction hn : h.unvisited above using Nat.strong_induction_on generalizing above t t' with
  | _ n ih =>
    by_cases hplain : ∀ a, t.value ≠ .object a
    · obtain ⟨s, hs⟩ := h.exists_standsFor hplain
      rw [ht.eq_plain hplain hs, ht'.eq_plain (hvalue ▸ hplain) (hvalue ▸ hs), hvalue]
    obtain ⟨a, ha⟩ : ∃ a, t.value = .object a := by simpa using hplain
    have hshape := ht.shape ha
    have hshape' := ht'.shape (hvalue.symm.trans ha)
    by_cases habove : a ∈ above
    · rw [if_pos habove] at hshape hshape'
      exact hshape.trans hshape'.symm
    rw [if_neg habove] at hshape hshape'
    rw [ha] at hv
    have hlt : h.unvisited (a :: above) < n :=
      hn ▸ h.unvisited_cons_lt (by simpa using habove) hv.lt_size
    have heach : ∀ u u' : Rendering, h.WellFormedFrom u.value → h.Renders (a :: above) u →
        h.Renders (a :: above) u' → u.value = u'.value → u = u' := fun u u' hu hru hru' heq =>
      ih _ hlt hu hru hru' heq rfl
    by_cases harray : (h.get a).isArray = true
    · rw [if_pos harray] at hshape hshape'
      obtain ⟨items, rfl⟩ := hshape
      obtain ⟨items', rfl⟩ := hshape'
      rw [Heap.Renders.items_eq hv ht ht' heach]
    · rw [if_neg harray] at hshape hshape'
      obtain ⟨members, rfl⟩ := hshape
      obtain ⟨members', rfl⟩ := hshape'
      rw [Heap.Renders.members_eq hv ht ht' heach]

/-- By itself a text stands without quotes, and every other value as it stands inside an object. -/
theorem Heap.RenderedAs.display {t : Rendering} (ht : h.RenderedAs [] v t) :
    (t.Writable → h.display v = .ok t.display) ∧
      (¬t.Writable → h.display v = .error (.givenUp .unreadableText)) := by
  unfold Heap.display
  split
  · next s =>
    have hplain : ∀ a, t.value ≠ .object a := fun a heq => by cases ht.value.symm.trans heq
    obtain ⟨text, htext⟩ := h.exists_standsFor hplain
    have heq := ht.renders.eq_plain hplain htext
    rw [ht.value] at heq
    subst heq
    refine ⟨fun _ => rfl, fun hunwritable => absurd ?_ hunwritable⟩
    exact Rendering.writable_plain_iff.mpr fun n hn => by cases hn
  · next hstr =>
    have htext : t.display = t.text := by
      unfold Rendering.display
      split
      · next s text => exact absurd ht.value.symm (hstr s)
      · rfl
    rw [htext, ← ht.value]
    exact ⟨ht.shown.written, ht.shown.refused⟩

/-! ### How deep a rendering is -/

/-- On the way down through a rendering no object is met again, and all objects are there. -/
theorem Heap.Renders.nodup_inside {t u : Rendering} {inside : List Address}
    (hocc : t.Occurs inside u) (ht : h.Renders above t) (hv : h.WellFormedFrom t.value)
    (hnodup : above.Nodup) (hthere : ∀ b ∈ above, b < h.size) :
    (inside ++ above).Nodup ∧ ∀ b ∈ inside ++ above, b < h.size := by
  -- Each step down puts the object that is left behind in front of those above.
  induction hocc generalizing above with
  | root => exact ⟨hnodup, hthere⟩
  | item hitem _ ih =>
    rw [List.append_assoc]
    exact ih (ht.item hitem) (ht.wellFormed_item hv hitem)
      (List.nodup_cons.mpr ⟨ht.root.1, hnodup⟩) (List.forall_mem_cons.mpr ⟨hv.lt_size, hthere⟩)
  | member hmember _ ih =>
    rw [List.append_assoc]
    exact ih (ht.member hmember) (ht.wellFormed_member hv hmember)
      (List.nodup_cons.mpr ⟨ht.root.1, hnodup⟩) (List.forall_mem_cons.mpr ⟨hv.lt_size, hthere⟩)

end

/-- Showing a value comes to an end, and exactly the cycles are elided. There is one rendering of a value
that follows the rules, and it is what is shown, unless an integer in it has too many digits to be
written: on that the machine gives up. In the rendering an object is elided exactly where it is one of those
that it occurs inside of, so wherever else it occurs, once or more often, it is written in full: an array
with all its elements, and any other object with all its properties but for the methods. Nothing stands
deeper than there are objects. -/
theorem rendering_elides_exactly_cycles {h : Heap} {v : Value} (hv : h.WellFormedFrom v) :
    ∃ t : Rendering, (t.Writable → h.display v = .ok t.display) ∧
      (¬t.Writable → h.display v = .error (.givenUp .unreadableText)) ∧ t.value = v ∧
      (∀ inside u, t.Occurs inside u → h.WrittenInside inside u) ∧
      (∀ inside u a, t.Occurs inside u → u.value = .object a → (u.isElided = true ↔ a ∈ inside)) ∧
      (∀ inside u, t.Occurs inside u → inside.Nodup ∧ inside.length ≤ h.size) ∧
      ∀ t' : Rendering, t'.value = v → (∀ inside u, t'.Occurs inside u → h.WrittenInside inside u) →
        t' = t := by
  have hrules : ∀ {t : Rendering}, h.Renders [] t ↔
      ∀ inside u, t.Occurs inside u → h.WrittenInside inside u := by
    simp [Heap.Renders]
  obtain ⟨t, ht⟩ := Heap.exists_rendered hv []
  refine ⟨t, ht.display.1, ht.display.2, ht.value, hrules.mp ht.renders, fun inside u a hocc hvalue => ?_,
    fun inside u hocc => ?_, fun t' hvalue' ht' => ?_⟩
  · exact Heap.isElided_iff (hrules.mp ht.renders inside u hocc) hvalue
  · obtain ⟨hnodup, hthere⟩ := Heap.Renders.nodup_inside hocc ht.renders (ht.value ▸ hv) List.nodup_nil
      fun b hb => absurd hb List.not_mem_nil
    rw [List.append_nil] at hnodup hthere
    refine ⟨hnodup, ?_⟩
    -- Different objects that are there are no more than all objects.
    have hsub : inside ⊆ List.range h.size := fun b hb => List.mem_range.mpr (hthere b hb)
    have hle := (List.subperm_of_subset hnodup hsub).length_le
    rwa [List.length_range] at hle
  · exact Heap.Renders.eq (hvalue' ▸ hv) (hrules.mpr ht') ht.renders (hvalue'.trans ht.value.symm)

/-! ### An object with a cycle and a shared array -/

/-- A heap with an object that holds itself, and an array twice. The array holds itself as well. -/
def tangledHeap : Heap where
  objects := #[
    { properties := .ofList [("self", .object 0), ("a", .object 1), ("set", .native (.json .set)),
        ("b", .object 1)],
      methods := ["set"] },
    .ofElements [.object 2, .object 1],
    {}]

theorem tangledHeap_wellFormed : tangledHeap.WellFormedFrom (.object 0) := by
  have hthere : ∀ a, tangledHeap.LedTo [.object 0] a → a < 3 := fun a ha =>
    Heap.lt_size_of_ledTo (h := tangledHeap) (by simp [tangledHeap, Heap.size]) (by decide) ha
  refine ⟨hthere, fun a ha harray => ?_⟩
  have hcases : ∀ b, b < 3 → (tangledHeap.get b).isArray = true → b = 1 := by decide
  obtain rfl := hcases a (hthere a ha) harray
  exact ⟨2, Object.arrayShaped_ofElements [.object 2, .object 1]⟩

/-- The object inside itself is elided, and so is the array inside itself, but the second occurrence of
the array is written in full. -/
theorem tangled_object_shown : tangledHeap.WellFormedFrom (.object 0) ∧
    ∃ t : Rendering, tangledHeap.display (.object 0) = .ok t.display ∧ t.value = .object 0 ∧
      t.display = "\x7b\"self\": \x7b...\x7d, \"a\": [\x7b\x7d, [...]], \"b\": [\x7b\x7d, [...]]\x7d" := by
  obtain ⟨t, hshown, hrefused, hvalue, -⟩ := rendering_elides_exactly_cycles tangledHeap_wellFormed
  have hdisplay : tangledHeap.display (.object 0) = .ok
      "\x7b\"self\": \x7b...\x7d, \"a\": [\x7b\x7d, [...]], \"b\": [\x7b\x7d, [...]]\x7d" := by
    cbv
  have hwritable : t.Writable := by
    by_contra hunwritable
    rw [hrefused hunwritable] at hdisplay
    cases hdisplay
  exact ⟨tangledHeap_wellFormed, t, hshown hwritable, hvalue,
    Except.ok.inj ((hshown hwritable).symm.trans hdisplay)⟩

end ModuLang
