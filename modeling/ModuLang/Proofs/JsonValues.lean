import Mathlib.Data.List.Forall2
import ModuLang.Library
import ModuLang.Proofs.ArrayShape
import ModuLang.Proofs.JsonText

/-!
# Documents and their values

The value of a document is made in a heap that keeps all it had: an array becomes an array of its
items, and an object becomes an object of its members, which carries the method `set` on top. The
method takes the place of a member of that name, and methods are not encoded, so the document of such a
value is the document itself without the members named `set`, at every level.

In the other direction a value without floats, functions and plain properties named `set` is written
out and read back as a value of the same structure. The document in between carries the proof: its text
tells all of it, and what is made of it repeats the value part by part.
-/

namespace ModuLang

open Eval Library

/-! ### Members of one name -/

namespace Json

mutual

/-- A document without the members of one name, at every level. -/
def without (name : String) : Json → Json
  | .array items => .array (withoutItems name items)
  | .object members => .object (withoutMembers name members)
  | j => j

/-- The items of an array, each without the members of one name. -/
def withoutItems (name : String) : List Json → List Json
  | [] => []
  | item :: items => item.without name :: withoutItems name items

/-- The members of an object but for those of one name, each without such members. -/
def withoutMembers (name : String) : List (String × Json) → List (String × Json)
  | [] => []
  | (k, value) :: members =>
    if k = name then withoutMembers name members
    else (k, value.without name) :: withoutMembers name members

end

/-- Whether an object in a document has a member of some name. -/
inductive HasMember (name : String) : Json → Prop where
  | own {members : List (String × Json)} {j : Json} (mem : (name, j) ∈ members) :
    HasMember name (.object members)
  | member {members : List (String × Json)} {k : String} {j : Json} (mem : (k, j) ∈ members)
    (inner : HasMember name j) : HasMember name (.object members)
  | item {items : List Json} {j : Json} (mem : j ∈ items) (inner : HasMember name j) :
    HasMember name (.array items)

theorem withoutItems_eq_map (name : String) (items : List Json) :
    withoutItems name items = items.map (without name) := by
  induction items with
  | nil => rfl
  | cons item items ih => rw [withoutItems, ih, List.map_cons]

theorem withoutMembers_eq_map (name : String) (members : List (String × Json)) :
    withoutMembers name members =
      (members.filter (·.1 != name)).map fun member => (member.1, member.2.without name) := by
  induction members with
  | nil => rfl
  | cons member members ih =>
    obtain ⟨k, value⟩ := member
    by_cases hk : k = name
    · simp [withoutMembers, hk, ih]
    · simp [withoutMembers, hk, ih]

theorem without_of_isScalar {j : Json} (h : j.IsScalar) (name : String) : j.without name = j := by
  cases j with
  | array items => exact h.elim
  | object members => exact h.elim
  | _ => rw [without] <;> simp

theorem map_eq_self_iff {α : Type} {f : α → α} {xs : List α} : xs.map f = xs ↔ ∀ x ∈ xs, f x = x := by
  simpa using List.map_inj_left (f := f) (g := id) (l := xs)

/-- A document has no member of a name exactly if it is all there without them. -/
theorem without_eq_self_iff {P : Json → Prop} {levels : Nat} {j : Json} (h : j.Composed P levels)
    (name : String) : j.without name = j ↔ ¬j.HasMember name := by
  induction h with
  | scalar levels hscalar _ =>
    refine iff_of_true (without_of_isScalar hscalar name) fun hmember => ?_
    cases hmember
    all_goals exact hscalar
  | @array levels items each ih =>
    rw [without, withoutItems_eq_map, array.injEq, map_eq_self_iff]
    constructor
    · intro heq hmember
      cases hmember with
      | item mem inner => exact (ih _ mem).mp (heq _ mem) inner
    · intro hnone item hitem
      exact (ih item hitem).mpr fun hmember => hnone (.item hitem hmember)
  | @object levels members different each ih =>
    rw [without, withoutMembers_eq_map, object.injEq]
    constructor
    · intro heq hmember
      -- As many members are left as there are, so none has the name.
      have hlength := congrArg List.length heq
      rw [List.length_map, List.length_filter_eq_length_iff] at hlength
      rw [List.filter_eq_self.mpr hlength, map_eq_self_iff] at heq
      cases hmember with
      | own mem => exact absurd (hlength _ mem) (by simp)
      | member mem inner => exact (ih _ mem).mp (Prod.mk.inj (heq _ mem)).2 inner
    · intro hnone
      have hnames : ∀ member ∈ members, (member.1 != name) = true := by
        rintro ⟨k, value⟩ hmember
        rw [bne_iff_ne]
        rintro rfl
        exact hnone (.own hmember)
      rw [List.filter_eq_self.mpr hnames, map_eq_self_iff]
      rintro ⟨k, value⟩ hmember
      rw [(ih _ hmember).mpr fun hinner => hnone (.member hmember hinner)]

end Json

/-! ### Heaps that grow -/

/-- Whether a heap keeps all objects of another one where they are. -/
structure Heap.Grows (h h' : Heap) : Prop where
  size : h.size ≤ h'.size
  kept : ∀ a, a < h.size → h'.get? a = h.get? a

variable {h h' h₁ : Heap}

theorem Heap.Grows.refl (h : Heap) : h.Grows h :=
  ⟨Nat.le_refl _, fun _ _ => rfl⟩

theorem Heap.Grows.trans (hfirst : h.Grows h₁) (hsecond : h₁.Grows h') : h.Grows h' :=
  ⟨Nat.le_trans hfirst.size hsecond.size, fun a ha =>
    (hsecond.kept a (Nat.lt_of_lt_of_le ha hfirst.size)).trans (hfirst.kept a ha)⟩

theorem Heap.grows_alloc (h : Heap) (o : Object) : h.Grows (h.alloc o).2 :=
  ⟨by simp, fun _ ha => Heap.get?_alloc_of_lt o ha⟩

theorem Heap.Grows.get {a : Address} (hgrows : h.Grows h') (ha : a < h.size) : h'.get a = h.get a := by
  rw [Heap.get, hgrows.kept a ha, Heap.get]

/-! ### Records -/

theorem Table.filter_put {α : Type} (key : String) (value : α) (entries : List (String × α)) :
    (put key value entries).filter (·.1 != key) = entries.filter (·.1 != key) := by
  induction entries with
  | nil => simp [put]
  | cons entry entries ih =>
    rw [put]
    split
    · next hkey => simp [hkey]
    · rw [List.filter_cons, List.filter_cons, ih]

/-- The plain properties of a record are its members but for one that is named as the method. -/
theorem Json.plainEntries_record {entries : List (String × Value)}
    (hnames : (entries.map Prod.fst).Nodup) :
    (record entries).plainEntries = entries.filter (·.1 != "set") := by
  have hentries : (Table.ofList entries).entries = entries :=
    Table.entries_ofList_entries ⟨entries, hnames⟩
  have hmethods : ∀ entry : String × Value, (! ["set"].contains entry.1) = (entry.1 != "set") := by
    intro entry
    by_cases hset : entry.1 = "set"
    · simp [hset]
    · simp [hset]
  unfold Object.plainEntries record
  simp only [hmethods, Table.insert, hentries]
  exact Table.filter_put "set" _ entries

/-! ### Lists that match -/

theorem forall₂_comp {α β γ : Type} {R : α → β → Prop} {S : β → γ → Prop} {T : α → γ → Prop}
    (hcomp : ∀ a b c, R a b → S b c → T a c) {as : List α} {bs : List β} {cs : List γ}
    (hR : List.Forall₂ R as bs) (hS : List.Forall₂ S bs cs) : List.Forall₂ T as cs := by
  induction hR generalizing cs with
  | nil =>
    cases hS
    exact .nil
  | cons hfirst _ ih =>
    cases hS with
    | cons hsecond hrest => exact .cons (hcomp _ _ _ hfirst hsecond) (ih hrest)

/-- Entries that match have matching entries left when those of one name are taken out. -/
theorem forall₂_filter_ne {α β : Type} {R : α → β → Prop} {members : List (String × α)}
    {entries : List (String × β)} (name : String)
    (h : List.Forall₂ (fun member entry => member.1 = entry.1 ∧ R member.2 entry.2) members entries) :
    List.Forall₂ (fun member entry => member.1 = entry.1 ∧ R member.2 entry.2)
      (members.filter (·.1 != name)) (entries.filter (·.1 != name)) := by
  induction h with
  | nil => exact .nil
  | @cons member entry members entries hfirst hrest ih =>
    rw [List.filter_cons, List.filter_cons, hfirst.1]
    split
    · exact .cons hfirst ih
    · exact ih

theorem map_fst_eq_of_forall₂ {α β : Type} {R : α → β → Prop} {members : List (String × α)}
    {entries : List (String × β)}
    (h : List.Forall₂ (fun member entry => member.1 = entry.1 ∧ R member.2 entry.2) members entries) :
    members.map Prod.fst = entries.map Prod.fst := by
  induction h with
  | nil => rfl
  | cons hfirst hrest ih => rw [List.map_cons, List.map_cons, hfirst.1, ih]

theorem forall₂_of_map_fst_eq {α β : Type} {R : α → β → Prop} {members : List (String × α)}
    {entries : List (String × β)} (hnames : members.map Prod.fst = entries.map Prod.fst)
    (heach : ∀ member entry, (member, entry) ∈ members.zip entries → R member.2 entry.2) :
    List.Forall₂ (fun member entry => member.1 = entry.1 ∧ R member.2 entry.2) members entries := by
  have hsame : List.Forall₂ (· = ·) (members.map Prod.fst) (entries.map Prod.fst) :=
    hnames ▸ List.forall₂_refl _
  have hfst : List.Forall₂ (fun member entry => member.1 = entry.1) members entries :=
    List.forall₂_map_right_iff.mp (List.forall₂_map_left_iff.mp hsame)
  refine List.forall₂_iff_zip.mpr ⟨hfst.length_eq, fun {member entry} hmem => ?_⟩
  exact ⟨List.forall₂_zip hfst hmem, heach member entry hmem⟩

/-! ### The value of a document -/

namespace Json

/-- Whether a value is what a document is decoded to. An object has the members of the document in
their order, and the method `set` in place of a member of that name. -/
inductive Decoded (h : Heap) : Json → Value → Prop where
  | null : Decoded h .null .null
  | bool (b : Bool) : Decoded h (.bool b) (.bool b)
  | int (n : Int) : Decoded h (.int n) (.int n)
  | float (x : Float) : Decoded h (.float x) (.float x)
  | str (s : String) : Decoded h (.str s) (.str s)
  | array {items : List Json} {a : Address} {values : List Value} (isArray : (h.get a).isArray = true)
    (shaped : (h.get a).ArrayShaped items.length) (elements : (h.get a).elements = .ok values)
    (length : items.length = values.length)
    (each : ∀ item v, (item, v) ∈ items.zip values → Decoded h item v) :
    Decoded h (.array items) (.object a)
  | object {members : List (String × Json)} {a : Address} (isObject : (h.get a).isArray = false)
    (methods : (h.get a).methods = ["set"])
    (setter : (h.get a).get? "set" = some (.native (.json .set)))
    (names : (members.filter (·.1 != "set")).map Prod.fst = (h.get a).plainEntries.map Prod.fst)
    (each : ∀ member entry, (member, entry) ∈ (members.filter (·.1 != "set")).zip (h.get a).plainEntries →
      Decoded h member.2 entry.2) :
    Decoded h (.object members) (.object a)

variable {j : Json} {v : Value}

/-- The object of a decoded value is in the heap. -/
theorem Decoded.lt_size {a : Address} (hd : j.Decoded h (.object a)) : a < h.size := by
  rw [← Nat.not_le]
  intro ha
  have hempty := Heap.get_of_size_le ha
  cases hd with
  | array isArray =>
    rw [hempty] at isArray
    cases isArray
  | object isObject methods =>
    rw [hempty] at methods
    cases methods

theorem Decoded.not_isScalar {a : Address} (hd : j.Decoded h (.object a)) : ¬j.IsScalar := by
  cases hd with
  | array => exact id
  | object => exact id

theorem Decoded.array_inv {items : List Json} (hd : Decoded h (.array items) v) :
    ∃ a values, v = .object a ∧ (h.get a).isArray = true ∧ (h.get a).ArrayShaped items.length ∧
      (h.get a).elements = .ok values ∧ List.Forall₂ (Decoded h) items values := by
  cases hd with
  | @array _ a values isArray shaped elements length each =>
    refine ⟨a, values, rfl, isArray, shaped, elements, ?_⟩
    exact List.forall₂_iff_zip.mpr ⟨length, fun hmem => each _ _ hmem⟩

theorem Decoded.object_inv {members : List (String × Json)} (hd : Decoded h (.object members) v) :
    ∃ a, v = .object a ∧ (h.get a).isArray = false ∧ (h.get a).methods = ["set"] ∧
      (h.get a).get? "set" = some (.native (.json .set)) ∧
      List.Forall₂ (fun member entry => member.1 = entry.1 ∧ Decoded h member.2 entry.2)
        (members.filter (·.1 != "set")) (h.get a).plainEntries := by
  cases hd with
  | @object _ a isObject methods setter names each =>
    exact ⟨a, rfl, isObject, methods, setter, forall₂_of_map_fst_eq names each⟩

theorem Decoded.mono (hd : j.Decoded h v) (hgrows : h.Grows h') : j.Decoded h' v := by
  induction hd with
  | null => exact .null
  | bool b => exact .bool b
  | int n => exact .int n
  | float x => exact .float x
  | str s => exact .str s
  | array isArray shaped elements length each ih =>
    have hget := hgrows.get (Decoded.array isArray shaped elements length each).lt_size
    rw [← hget] at isArray shaped elements
    exact .array isArray shaped elements length ih
  | object isObject methods setter names each ih =>
    have hget := hgrows.get (Decoded.object isObject methods setter names each).lt_size
    rw [← hget] at isObject methods setter names ih
    exact .object isObject methods setter names ih

/-- Whether a document can be decoded in every heap, which then keeps what it had. -/
def Decodes (j : Json) : Prop :=
  ∀ h : Heap, h.Grows (j.build h).2 ∧ j.Decoded (j.build h).2 (j.build h).1

theorem decoded_buildItems {items : List Json} (hitems : ∀ j ∈ items, j.Decodes) (h : Heap) :
    h.Grows (buildItems h items).2 ∧
      List.Forall₂ (Decoded (buildItems h items).2) items (buildItems h items).1 := by
  induction items generalizing h with
  | nil => exact ⟨.refl h, .nil⟩
  | cons item items ih =>
    obtain ⟨hfirst, hvalue⟩ := hitems item List.mem_cons_self h
    obtain ⟨hrest, hvalues⟩ := ih (fun j hj => hitems j (List.mem_cons_of_mem _ hj)) (item.build h).2
    exact ⟨hfirst.trans hrest, .cons (hvalue.mono hrest) hvalues⟩

theorem decoded_buildMembers {members : List (String × Json)}
    (hmembers : ∀ member ∈ members, member.2.Decodes) (h : Heap) :
    h.Grows (buildMembers h members).2 ∧
      List.Forall₂ (fun member entry => member.1 = entry.1 ∧
        member.2.Decoded (buildMembers h members).2 entry.2) members (buildMembers h members).1 := by
  induction members generalizing h with
  | nil => exact ⟨.refl h, .nil⟩
  | cons member members ih =>
    obtain ⟨hfirst, hvalue⟩ := hmembers member List.mem_cons_self h
    obtain ⟨hrest, hvalues⟩ :=
      ih (fun m hm => hmembers m (List.mem_cons_of_mem _ hm)) (member.2.build h).2
    exact ⟨hfirst.trans hrest, .cons ⟨rfl, hvalue.mono hrest⟩ hvalues⟩

theorem decodes_of_isScalar (hj : j.IsScalar) : j.Decodes := by
  intro h
  cases j with
  | null => exact ⟨.refl h, .null⟩
  | bool b => exact ⟨.refl h, .bool b⟩
  | int n => exact ⟨.refl h, .int n⟩
  | float x => exact ⟨.refl h, .float x⟩
  | str s => exact ⟨.refl h, .str s⟩
  | array items => exact hj.elim
  | object members => exact hj.elim

/-- An array of decoded items is the decoded array. -/
theorem decoded_array {items : List Json} {values : List Value}
    (hvalues : List.Forall₂ (Decoded h) items values) :
    Decoded (h.alloc (Object.ofElements values)).2 (.array items) (.object h.size) := by
  have hget : (h.alloc (Object.ofElements values)).2.get h.size = Object.ofElements values :=
    Heap.get_alloc_self _
  have hlength := hvalues.length_eq
  refine .array (by rw [hget]; rfl) ?_ ?_ hlength fun item v hmem => ?_
  · rw [hget, hlength]
    exact Object.arrayShaped_ofElements values
  · rw [hget]
    exact Object.elements_ofElements values
  · exact (List.forall₂_zip hvalues hmem).mono (h.grows_alloc _)

/-- A record of decoded members is the decoded object. -/
theorem decoded_record {members : List (String × Json)} {entries : List (String × Value)}
    (different : (members.map Prod.fst).Nodup)
    (hentries : List.Forall₂ (fun member entry => member.1 = entry.1 ∧ Decoded h member.2 entry.2)
      members entries) :
    Decoded (h.alloc (record entries)).2 (.object members) (.object h.size) := by
  have hget : (h.alloc (record entries)).2.get h.size = record entries := Heap.get_alloc_self _
  have hplain := forall₂_filter_ne "set" hentries
  rw [map_fst_eq_of_forall₂ hentries] at different
  rw [← plainEntries_record different, ← hget] at hplain
  refine .object (by rw [hget]; rfl) (by rw [hget]; rfl) ?_ (map_fst_eq_of_forall₂ hplain)
    fun member entry hmem => ?_
  · rw [hget]
    exact (Table.get?_insert _ _ _ _).trans (if_pos rfl)
  · exact (List.forall₂_zip hplain hmem).2.mono (h.grows_alloc _)

/-- A document is decoded in every heap. -/
theorem decodes_of_composed {P : Json → Prop} {levels : Nat} (hj : j.Composed P levels) : j.Decodes := by
  induction hj with
  | scalar levels hscalar _ => exact decodes_of_isScalar hscalar
  | @array levels items each ih =>
    intro h
    obtain ⟨hgrows, hvalues⟩ := decoded_buildItems ih h
    rw [build]
    exact ⟨hgrows.trans (Heap.grows_alloc _ _), decoded_array hvalues⟩
  | @object levels members different each ih =>
    intro h
    obtain ⟨hgrows, hentries⟩ := decoded_buildMembers ih h
    rw [build]
    exact ⟨hgrows.trans (Heap.grows_alloc _ _), decoded_record different hentries⟩

/-! ### The document of a decoded value -/

theorem ofValue_array {levels : Nat} {a : Address} {values : List Value} {items : List Json}
    (isArray : (h.get a).isArray = true) (elements : (h.get a).elements = .ok values)
    (hitems : List.Forall₂ (fun v item => ofValue h levels v = .ok item) values items) :
    ofValue h (levels + 1) (.object a) = .ok (.array items) := by
  rw [ofValue]
  simp only [isArray, if_true, elements, mapM_eq_ok_of_forall₂ hitems]
  rfl

theorem ofValue_object {levels : Nat} {a : Address} {members : List (String × Json)}
    (isObject : (h.get a).isArray = false)
    (hmembers : List.Forall₂ (fun entry member => entry.1 = member.1 ∧
      ofValue h levels entry.2 = .ok member.2) (h.get a).plainEntries members) :
    ofValue h (levels + 1) (.object a) = .ok (.object members) := by
  have hall : (h.get a).plainEntries.mapM (fun entry => do
      return (entry.1, ← ofValue h levels entry.2)) = .ok members := by
    refine mapM_eq_ok_of_forall₂ (hmembers.imp fun entry member hboth => ?_)
    rw [hboth.2, hboth.1]
    rfl
  rw [ofValue]
  simp only [isObject, Bool.false_eq_true, if_false, hall]
  rfl

theorem ofValue_scalar {levels : Nat} (hj : j.IsScalar) (hd : j.Decoded h v) :
    ofValue h (levels + 1) v = .ok j := by
  cases hd with
  | null | bool b | int n | float x | str s => rfl
  | array => exact hj.elim
  | object => exact hj.elim

/-- The document of a decoded value is the one that it was made of, without the members that have the
name of the method. -/
theorem ofValue_of_decoded {P : Json → Prop} {levels more : Nat} (hj : j.Composed P levels)
    (hd : j.Decoded h v) (hmore : levels < more) : ofValue h more v = .ok (j.without "set") := by
  induction hj generalizing v more with
  | scalar levels hscalar _ =>
    obtain ⟨more, rfl⟩ := Nat.exists_eq_add_one_of_ne_zero (Nat.ne_zero_of_lt hmore)
    rw [without_of_isScalar hscalar]
    exact ofValue_scalar hscalar hd
  | @array levels items each ih =>
    obtain ⟨more, rfl⟩ := Nat.exists_eq_add_one_of_ne_zero (Nat.ne_zero_of_lt hmore)
    obtain ⟨a, values, rfl, isArray, -, elements, hvalues⟩ := hd.array_inv
    rw [without, withoutItems_eq_map]
    refine ofValue_array isArray elements (.flip (List.forall₂_map_left_iff.mpr ?_))
    refine List.forall₂_iff_zip.mpr ⟨hvalues.length_eq, fun {item v} hmem => ?_⟩
    exact ih item (List.of_mem_zip hmem).1 (List.forall₂_zip hvalues hmem)
      (Nat.lt_of_succ_lt_succ hmore)
  | @object levels members different each ih =>
    obtain ⟨more, rfl⟩ := Nat.exists_eq_add_one_of_ne_zero (Nat.ne_zero_of_lt hmore)
    obtain ⟨a, rfl, isObject, -, -, hmembers⟩ := hd.object_inv
    rw [without, withoutMembers_eq_map]
    refine ofValue_object isObject (.flip (List.forall₂_map_left_iff.mpr ?_))
    refine List.forall₂_iff_zip.mpr ⟨hmembers.length_eq, fun {member entry} hmem => ?_⟩
    obtain ⟨hname, hvalue⟩ := List.forall₂_zip hmembers hmem
    refine ⟨hname.symm, ih member ?_ hvalue (Nat.lt_of_succ_lt_succ hmore)⟩
    exact (List.mem_filter.mp (List.of_mem_zip hmem).1).1

/-- A text that is a document with an array or an object at its root is read as the value of the
document. -/
theorem outcome_parse [Host.Limits] {text : String} (hparse : parse text = .ok j)
    (hroot : ¬j.IsScalar) (m : Machine) :
    ((Native.json .parse).apply [.str text]).outcome m =
      (.ok (j.build m.heap).1, { m with heap := (j.build m.heap).2 }) := by
  have happly : (Native.json .parse).apply [.str text] = jsonParse (.str text) := rfl
  rw [happly, jsonParse, hparse]
  cases j with
  | array items => rfl
  | object members => rfl
  | _ => exact absurd trivial hroot

end Json

/-- Decoding loses the members named as the method, and nothing else: the value of a document has all
other members of every object, and its document is the one that was read without those members, which
is the whole of it exactly if there are none. A document that was read is not nested deeper than the
limit, and one level more than it has is enough to encode its value. -/
theorem decoding_keeps_other_members [Host.Limits] {text : String} {j : Json}
    (hparse : Json.parse text = .ok j) (hroot : ¬j.IsScalar) (m : Machine) :
    j.Composed Json.IsScalar stackLimit ∧
    ∃ v h', ((Native.json .parse).apply [.str text]).outcome m = (.ok v, { m with heap := h' }) ∧
      m.heap.Grows h' ∧ j.Decoded h' v ∧
      (∀ depth levels, j.Composed Json.IsScalar depth → depth < levels →
        Json.ofValue h' levels v = .ok (j.without "set")) ∧
      (j.without "set" = j ↔ ¬j.HasMember "set") := by
  have hj := Json.composed_of_parse hparse
  obtain ⟨hgrows, hdecoded⟩ := Json.decodes_of_composed hj m.heap
  refine ⟨hj, _, _, Json.outcome_parse hparse hroot m, hgrows, hdecoded, ?_, ?_⟩
  · intro depth levels hdepth hlevels
    exact Json.ofValue_of_decoded hdepth hdecoded hlevels
  · exact Json.without_eq_self_iff hj "set"

/-- A document of a list and a member that has the name of the method. -/
def setterDocument : Json :=
  .object [("a", .array [.int 1, .object [("set", .null), ("b", .str "x")]]), ("set", .int 2)]

/-- The text of the document. -/
def setterText : String :=
  "\x7b\"a\":[1,\x7b\"set\":null,\"b\":\"x\"\x7d],\"set\":2\x7d"

theorem parse_setterText : Json.parse setterText = .ok setterDocument := by
  cbv

theorem not_isScalar_setterDocument : ¬setterDocument.IsScalar :=
  id

/-- The object in the list stands three levels deep. -/
theorem composed_setterDocument : setterDocument.Composed Json.IsScalar 3 := by
  have hinner : (Json.object [("set", .null), ("b", .str "x")]).Composed Json.IsScalar 1 := by
    refine .object (by decide) fun member hmember => ?_
    simp only [List.mem_cons, List.not_mem_nil, or_false] at hmember
    rcases hmember with rfl | rfl
    all_goals exact .scalar 0 trivial trivial
  refine .object (by decide) fun member hmember => ?_
  simp only [List.mem_cons, List.not_mem_nil, or_false] at hmember
  rcases hmember with rfl | rfl
  · refine .array fun item hitem => ?_
    simp only [List.mem_cons, List.not_mem_nil, or_false] at hitem
    rcases hitem with rfl | rfl
    · exact .scalar 1 trivial trivial
    · exact hinner
  · exact .scalar 2 trivial trivial

/-- Of the document only the list and the other member of the object in it are encoded again. -/
theorem setterText_decoded :
    ∃ v h', ((Native.json .parse).apply [.str setterText]).outcome {} = (.ok v, { heap := h' }) ∧
      setterDocument.Decoded h' v ∧
      Json.ofValue h' stackLimit v =
        .ok (.object [("a", .array [.int 1, .object [("b", .str "x")]])]) := by
  obtain ⟨-, v, h', hout, -, hdecoded, hagain, -⟩ :=
    decoding_keeps_other_members parse_setterText not_isScalar_setterDocument {}
  exact ⟨v, h', hout, hdecoded, hagain 3 _ composed_setterDocument (by decide)⟩

/-- A decoded value does not encode to the document that was read where that has a member named as the
method. -/
theorem decoding_can_lose_members :
    ¬∀ (text : String) (j : Json) (m m' : Machine) (v : Value), Json.parse text = .ok j → ¬j.IsScalar →
      ((Native.json .parse).apply [.str text]).outcome m = (.ok v, m') →
      ∀ depth levels, j.Composed Json.IsScalar depth → depth < levels →
        Json.ofValue m'.heap levels v = .ok j := by
  intro hall
  have hj := Json.composed_of_parse parse_setterText
  have hout := Json.outcome_parse parse_setterText not_isScalar_setterDocument {}
  have hsame := hall _ _ _ _ _ parse_setterText not_isScalar_setterDocument hout _ _ hj
    (Nat.lt_succ_self _)
  rw [Json.ofValue_of_decoded hj (Json.decodes_of_composed hj _).2 (Nat.lt_succ_self _)] at hsame
  exact (Json.without_eq_self_iff hj "set").mp (Except.ok.inj hsame)
    (.own (List.mem_cons_of_mem _ List.mem_cons_self))

/-! ### Values that are written out -/

/-- Whether a value is nested at most the given number of levels deep and consists of what a document
can tell: nulls, booleans, integers of few enough digits, strings, arrays, and objects without a plain
property that is named as the method. -/
inductive Heap.Encodable (h : Heap) : Nat → Value → Prop where
  | null (levels : Nat) : h.Encodable (levels + 1) .null
  | bool (levels : Nat) (b : Bool) : h.Encodable (levels + 1) (.bool b)
  | int (levels : Nat) {n : Int} (few : (Nat.toDigits 10 n.natAbs).length ≤ Number.digitLimit) :
    h.Encodable (levels + 1) (.int n)
  | str (levels : Nat) (s : String) : h.Encodable (levels + 1) (.str s)
  | array {levels n : Nat} {a : Address} {values : List Value} (isArray : (h.get a).isArray = true)
    (shaped : (h.get a).ArrayShaped n) (elements : (h.get a).elements = .ok values)
    (each : ∀ v ∈ values, h.Encodable levels v) : h.Encodable (levels + 1) (.object a)
  | object {levels : Nat} {a : Address} (isObject : (h.get a).isArray = false)
    (unnamed : ∀ entry ∈ (h.get a).plainEntries, entry.1 ≠ "set")
    (each : ∀ entry ∈ (h.get a).plainEntries, h.Encodable levels entry.2) :
    h.Encodable (levels + 1) (.object a)

/-- Whether a value in one heap repeats the structure of a value in another: an array has the same
elements in order, and an object the same plain properties in order and the method on top. -/
inductive Heap.Repeats (h h' : Heap) : Value → Value → Prop where
  | null : h.Repeats h' .null .null
  | bool (b : Bool) : h.Repeats h' (.bool b) (.bool b)
  | int (n : Int) : h.Repeats h' (.int n) (.int n)
  | str (s : String) : h.Repeats h' (.str s) (.str s)
  | array {n : Nat} {a a' : Address} {values values' : List Value} (isArray : (h.get a).isArray = true)
    (isArray' : (h'.get a').isArray = true) (shaped : (h'.get a').ArrayShaped n)
    (elements : (h.get a).elements = .ok values) (elements' : (h'.get a').elements = .ok values')
    (length : values.length = values'.length)
    (each : ∀ v v', (v, v') ∈ values.zip values' → h.Repeats h' v v') :
    h.Repeats h' (.object a) (.object a')
  | object {a a' : Address} (isObject : (h.get a).isArray = false)
    (isObject' : (h'.get a').isArray = false) (methods : (h'.get a').methods = ["set"])
    (setter : (h'.get a').get? "set" = some (.native (.json .set)))
    (names : (h.get a).plainEntries.map Prod.fst = (h'.get a').plainEntries.map Prod.fst)
    (each : ∀ entry entry', (entry, entry') ∈ (h.get a).plainEntries.zip (h'.get a').plainEntries →
      h.Repeats h' entry.2 entry'.2) :
    h.Repeats h' (.object a) (.object a')

theorem Heap.Repeats.exists_object {a : Address} {v' : Value} (hrepeats : h.Repeats h' (.object a) v') :
    ∃ a', v' = .object a' := by
  cases hrepeats with
  | array => exact ⟨_, rfl⟩
  | object => exact ⟨_, rfl⟩

/-- Whether a document carries a value over: its text tells all of it, and whatever is decoded from it
repeats the value. -/
structure Json.Carries (h : Heap) (levels : Nat) (v : Value) (j : Json) : Prop where
  encoded : Json.ofValue h levels v = .ok j
  legible : j.Composed Json.Legible levels
  repeated : ∀ {h' : Heap} {v' : Value}, j.Decoded h' v' → h.Repeats h' v v'

theorem Json.exists_carries {levels : Nat} {v : Value} (hv : h.Encodable levels v) :
    ∃ j, Json.Carries h levels v j := by
  induction hv with
  | null levels =>
    refine ⟨.null, rfl, .scalar _ trivial trivial, fun hd => ?_⟩
    cases hd
    exact .null
  | bool levels b =>
    refine ⟨.bool b, rfl, .scalar _ trivial trivial, fun hd => ?_⟩
    cases hd
    exact .bool b
  | @int levels n few =>
    refine ⟨.int n, rfl, .scalar _ trivial few, fun hd => ?_⟩
    cases hd
    exact .int n
  | str levels s =>
    refine ⟨.str s, rfl, .scalar _ trivial trivial, fun hd => ?_⟩
    cases hd
    exact .str s
  | @array levels n a values isArray shaped elements each ih =>
    obtain ⟨items, hitems⟩ := exists_forall₂ ih
    have hencoded := hitems.imp fun v item hcarries => hcarries.encoded
    refine ⟨.array items, ofValue_array isArray elements hencoded, .array fun item hitem => ?_,
      fun hd => ?_⟩
    · obtain ⟨v, -, hcarries⟩ := exists_of_mem_right hitems hitem
      exact hcarries.legible
    · obtain ⟨a', values', rfl, isArray', shaped', elements', hvalues⟩ := hd.array_inv
      have hrepeats := forall₂_comp (fun v item v' hcarries hd => hcarries.repeated hd) hitems hvalues
      exact .array isArray isArray' shaped' elements elements' hrepeats.length_eq fun v v' hmem =>
        List.forall₂_zip hrepeats hmem
  | @object levels a isObject unnamed each ih =>
    obtain ⟨members, hmembers⟩ := exists_forall₂ (R := fun entry (member : String × Json) =>
      entry.1 = member.1 ∧ Carries h levels entry.2 member.2) fun entry hentry =>
        (ih entry hentry).imp' (entry.1, ·) fun j hj => ⟨rfl, hj⟩
    have hnames := map_fst_eq_of_forall₂ hmembers
    have hencoded := hmembers.imp fun entry member hboth => And.intro hboth.1 hboth.2.encoded
    refine ⟨.object members, ofValue_object isObject hencoded, .object ?_ fun member hmember => ?_,
      fun hd => ?_⟩
    · rw [← hnames]
      exact (List.filter_sublist.map Prod.fst).nodup (h.get a).properties.nodup
    · obtain ⟨entry, -, hboth⟩ := exists_of_mem_right hmembers hmember
      exact hboth.2.legible
    · obtain ⟨a', rfl, isObject', methods, setter, hdecoded⟩ := hd.object_inv
      -- No member has the name of the method, so all are decoded.
      have hall : members.filter (·.1 != "set") = members := by
        refine List.filter_eq_self.mpr fun member hmember => bne_iff_ne.mpr ?_
        obtain ⟨entry, hentry, hboth⟩ := exists_of_mem_right hmembers hmember
        rw [← hboth.1]
        exact unnamed entry hentry
      rw [hall] at hdecoded
      have hrepeats := forall₂_comp (T := fun entry entry' : String × Value =>
        entry.1 = entry'.1 ∧ h.Repeats _ entry.2 entry'.2) (fun entry member entry' hboth hd =>
          ⟨hboth.1.trans hd.1, hboth.2.repeated hd.2⟩) hmembers hdecoded
      exact .object isObject isObject' methods setter (map_fst_eq_of_forall₂ hrepeats)
        fun entry entry' hmem => (List.forall₂_zip hrepeats hmem).2

/-- An object that a document can tell is written out and read back as a value of the same structure,
in any heap, which keeps what it had. -/
theorem stringify_parse_repeats [Host.Limits] {m : Machine} {a : Address}
    (hv : m.heap.Encodable stackLimit (.object a)) :
    ∃ text, ((Native.json .stringify).apply [.object a]).outcome m = (.ok (.str text), m) ∧
      ∀ m₁ : Machine, ∃ v' h',
        ((Native.json .parse).apply [.str text]).outcome m₁ = (.ok v', { m₁ with heap := h' }) ∧
          m₁.heap.Grows h' ∧ m.heap.Repeats h' (.object a) v' := by
  obtain ⟨j, hcarries⟩ := Json.exists_carries hv
  have hparse := Json.parse_text hcarries.legible
  have hroot : ¬j.IsScalar := by
    have hdecoded := (Json.decodes_of_composed hcarries.legible m.heap).2
    obtain ⟨a', ha'⟩ := (hcarries.repeated hdecoded).exists_object
    rw [ha'] at hdecoded
    exact hdecoded.not_isScalar
  refine ⟨j.text, ?_, fun m₁ => ?_⟩
  · rw [Json.outcome_stringify hcarries.encoded, Json.write_of_legible hcarries.legible]
    rfl
  · obtain ⟨hgrows, hdecoded⟩ := Json.decodes_of_composed hcarries.legible m₁.heap
    exact ⟨_, _, Json.outcome_parse hparse hroot m₁, hgrows, hcarries.repeated hdecoded⟩

/-- A machine with an array and an object that holds it beside a null. -/
def listHolder : Machine :=
  { heap := ⟨#[Object.ofElements [.int 7, .str "\"\n"],
      Json.record [("list", .object 0), ("none", .null)]]⟩ }

theorem encodable_listHolder : listHolder.heap.Encodable stackLimit (.object 1) := by
  have hlist : listHolder.heap.Encodable 899 (.object 0) := by
    refine Heap.Encodable.array rfl (Object.arrayShaped_ofElements _) (Object.elements_ofElements _) ?_
    intro v hv
    simp only [List.mem_cons, List.not_mem_nil, or_false] at hv
    rcases hv with rfl | rfl
    · exact .int 897 (by decide)
    · exact .str 897 _
  have hentries : (listHolder.heap.get 1).plainEntries = [("list", .object 0), ("none", .null)] :=
    Json.plainEntries_record (by decide)
  refine Heap.Encodable.object rfl ?_ ?_
  · rw [hentries]
    decide
  · rw [hentries]
    intro entry hentry
    simp only [List.mem_cons, List.not_mem_nil, or_false] at hentry
    rcases hentry with rfl | rfl
    · exact hlist
    · exact .null 898

/-- The object is written out and read back beside itself. -/
theorem listHolder_read_back :
    listHolder.heap.Encodable stackLimit (.object 1) ∧
      ∃ text, ((Native.json .stringify).apply [.object 1]).outcome listHolder =
        (.ok (.str text), listHolder) ∧
        ∃ v' h', ((Native.json .parse).apply [.str text]).outcome listHolder =
            (.ok v', { listHolder with heap := h' }) ∧
          listHolder.heap.Repeats h' (.object 1) v' := by
  obtain ⟨text, hwritten, hread⟩ := stringify_parse_repeats encodable_listHolder
  obtain ⟨v', h', hout, -, hrepeats⟩ := hread listHolder
  exact ⟨encodable_listHolder, text, hwritten, v', h', hout, hrepeats⟩

end ModuLang
