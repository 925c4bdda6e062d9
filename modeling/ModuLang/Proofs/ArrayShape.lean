import Mathlib
import ModuLang.Proofs.RunEffects
import ModuLang.Proofs.ValueWalks

/-!
# The shape of arrays

An array is marked as one, and its properties are its length and its elements: `length` is a number,
and below it every index is there, and nothing else is. The operations on arrays keep this shape,
and so do copies and everything that makes an array. What does not keep it is the native function
`set`. It is meant for the objects that it comes with, but a program can take it out of one and call
it with an array, and then it sets any property to anything.

So the shape is kept in every run that sets a property of an array only where it is there, and its
length only to what it is. In such a run every value can be shown, and no document fails because of
an array.
-/

namespace ModuLang

open Eval Library

namespace Object

/-- Whether the properties of an object are those of an array with a number of elements. -/
structure ArrayShaped (o : Object) (n : Nat) : Prop where
  length : o.get? lengthKey = some (.int n)
  keys : ∀ key, (o.get? key).isSome ↔ key = lengthKey ∨ ∃ i, i < n ∧ key = indexKey (i : Nat)

/-! ### What is found after an operation -/

theorem get?_set (o : Object) (key : String) (v : Value) (k : String) :
    (o.set key v).get? k = if k = key then some v else o.get? k :=
  o.properties.get?_insert key v k

theorem get?_erase (o : Object) (key k : String) :
    (o.erase key).get? k = if k = key then none else o.get? k :=
  o.properties.get?_erase key k

theorem exists_index_succ {n : Nat} {key : String} :
    (∃ i, i < n + 1 ∧ key = indexKey (i : Nat)) ↔
      (∃ i, i < n ∧ key = indexKey (i : Nat)) ∨ key = indexKey (n : Nat) := by
  constructor
  · rintro ⟨i, hi, rfl⟩
    rcases Nat.lt_succ_iff_lt_or_eq.mp hi with hi | rfl
    · exact .inl ⟨i, hi, rfl⟩
    · exact .inr rfl
  · rintro (⟨i, hi, rfl⟩ | rfl)
    · exact ⟨i, Nat.lt_succ_of_lt hi, rfl⟩
    · exact ⟨n, Nat.lt_succ_self n, rfl⟩

/-- Erasing elements leaves what has no index below the number. -/
theorem isSome_get?_eraseIndices (o : Object) (count : Nat) (k : String) :
    ((o.eraseIndices count).get? k).isSome ↔
      (o.get? k).isSome ∧ ¬∃ i, i < count ∧ k = indexKey (i : Nat) := by
  induction count with
  | zero => simp [eraseIndices]
  | succ count ih =>
    rw [eraseIndices_succ, get?_erase, exists_index_succ]
    by_cases hk : k = indexKey count
    · simp [hk]
    · rw [if_neg hk, ih]
      simp [hk]

/-- Putting in elements adds their indices. -/
theorem isSome_get?_insertAll_indexEntries (t : Table Value) (items : List Value) (k : String) :
    ((t.insertAll (indexEntries 0 items)).get? k).isSome ↔
      (t.get? k).isSome ∨ ∃ i, i < items.length ∧ k = indexKey (i : Nat) := by
  rw [Table.isSome_get?_insertAll, exists_mem_indexEntries_iff]

/-! ### Operations that keep the shape -/

variable {o o' : Object} {n : Nat} {v item : Value}

theorem ArrayShaped.isSome_index (ho : o.ArrayShaped n) (i : Nat) :
    (o.get? (indexKey i)).isSome ↔ i < n := by
  rw [ho.keys]
  constructor
  · rintro (hkey | ⟨j, hj, hkey⟩)
    · exact absurd hkey (indexKey_ne_lengthKey i)
    · rw [indexKey_injective hkey]
      exact hj
  · exact fun hi => .inr ⟨i, hi, rfl⟩

theorem ArrayShaped.length_eq (ho : o.ArrayShaped n) : o.length = .ok (n : Int) := by
  unfold Object.length
  rw [ho.length]

/-- The elements of an array are there, as many as its length says. -/
theorem ArrayShaped.elements (ho : o.ArrayShaped n) :
    ∃ items, o.elements = .ok items ∧ items.length = n := by
  have hfrom : ∀ count i, i + count ≤ n →
      ∃ items, o.elementsFrom i count = .ok items ∧ items.length = count := by
    intro count
    induction count with
    | zero => exact fun i _ => ⟨[], rfl, rfl⟩
    | succ count ih =>
      intro i hi
      have hsome : (o.get? (indexKey i)).isSome := (ho.isSome_index i).mpr (by omega)
      obtain ⟨v, hv⟩ := Option.isSome_iff_exists.mp hsome
      obtain ⟨rest, hrest, hlength⟩ := ih (i + 1) (by omega)
      refine ⟨v :: rest, ?_, by rw [List.length_cons, hlength]⟩
      rw [elementsFrom, hv]
      simp only [hrest]
      rfl
  obtain ⟨items, hitems, hlength⟩ := hfrom n 0 (by omega)
  refine ⟨items, ?_, hlength⟩
  unfold Object.elements
  rw [ho.length_eq]
  exact hitems

theorem arrayShaped_ofElements (items : List Value) :
    (ofElements items).ArrayShaped items.length where
  length := get?_lengthKey_ofElements items
  keys key := by
    have hkeys := isSome_get?_insertAll_indexEntries
      (Table.empty.insert lengthKey (.int items.length)) items key
    rw [Table.get?_insert] at hkeys
    refine hkeys.trans (or_congr_left ?_)
    by_cases hkey : key = lengthKey
    · simp [hkey]
    · simp [hkey, Table.get?, Table.empty]

theorem ArrayShaped.rename (ho : o.ArrayShaped n) (f : Address → Address) :
    (o.rename f).ArrayShaped n := by
  have hget : ∀ key, (o.rename f).get? key = (o.get? key).map (Value.rename f) := fun key =>
    o.properties.get?_map _ key
  refine ⟨?_, fun key => ?_⟩
  · rw [hget, ho.length]
    rfl
  · rw [hget, Option.isSome_map]
    exact ho.keys key

/-- Where the elements are replaced, their number becomes the length. -/
theorem ArrayShaped.reindex (ho : o.ArrayShaped n) (items : List Value) :
    (o.reindex n items).ArrayShaped items.length := by
  unfold Object.reindex
  refine ⟨?_, fun key => ?_⟩
  · rw [get?_set, if_pos rfl]
  · rw [get?_set]
    by_cases hkey : key = lengthKey
    · simp [hkey]
    · rw [if_neg hkey]
      have hkeys := isSome_get?_insertAll_indexEntries (o.eraseIndices n).properties items key
      refine hkeys.trans (or_congr_left ?_)
      change ((o.eraseIndices n).get? key).isSome ↔ _
      -- What is left when all elements are erased is the length.
      rw [isSome_get?_eraseIndices, ho.keys]
      constructor
      · rintro ⟨hlength | hindex, hnot⟩
        · exact hlength
        · exact absurd hindex hnot
      · exact fun hlength => absurd hlength hkey

theorem ArrayShaped.push (ho : o.ArrayShaped n) (h : o.push item = .ok o') :
    o'.ArrayShaped (n + 1) := by
  obtain ⟨_, hn, rfl⟩ := exists_of_push h
  obtain rfl := Except.ok.inj (ho.length_eq.symm.trans hn)
  refine ⟨?_, fun key => ?_⟩
  · rw [get?_set, if_pos rfl]
    rfl
  · rw [get?_set, get?_set, exists_index_succ]
    by_cases hkey : key = lengthKey
    · simp [hkey]
    · rw [if_neg hkey]
      by_cases hnew : key = indexKey (n : Nat)
      · simp [hnew]
      · rw [if_neg hnew, ho.keys]
        simp [hnew]

theorem ArrayShaped.unshift (ho : o.ArrayShaped n) (h : o.unshift item = .ok o') :
    o'.ArrayShaped (n + 1) := by
  obtain ⟨items, hitems, rfl⟩ := ho.elements
  unfold Object.unshift at h
  rw [hitems] at h
  cases h
  exact ho.reindex (item :: items)

theorem ArrayShaped.pop (ho : o.ArrayShaped n) (h : o.pop = .ok (v, o')) :
    o'.ArrayShaped (n - 1) := by
  obtain ⟨_, hn, hpos, -, rfl⟩ := exists_of_pop h
  obtain rfl := Except.ok.inj (ho.length_eq.symm.trans hn)
  obtain ⟨k, rfl⟩ : ∃ k, n = k + 1 := ⟨n - 1, by omega⟩
  have hlast : ((k + 1 : Nat) : Int) - 1 = (k : Nat) := by omega
  rw [hlast]
  refine ⟨?_, fun key => ?_⟩
  · rw [get?_set, if_pos rfl]
    rfl
  · rw [get?_set, get?_erase]
    by_cases hkey : key = lengthKey
    · simp [hkey]
    · rw [if_neg hkey]
      by_cases hgone : key = indexKey (k : Nat)
      · -- The index of the last element is gone, and no other index has its key.
        rw [if_pos hgone]
        simp only [Option.isSome_none, Bool.false_eq_true, false_iff, not_or, not_exists, not_and]
        refine ⟨hkey, fun i hi heq => ?_⟩
        have hin : i = k := indexKey_injective (heq.symm.trans hgone)
        exact Nat.lt_irrefl k (hin ▸ hi)
      · rw [if_neg hgone, ho.keys, exists_index_succ]
        simp [hgone]

theorem ArrayShaped.shift (ho : o.ArrayShaped n) (h : o.shift = .ok (v, o')) :
    o'.ArrayShaped (n - 1) := by
  obtain ⟨items, hitems, rfl⟩ := ho.elements
  unfold Object.shift at h
  rw [hitems] at h
  cases items with
  | nil => cases h
  | cons first rest =>
    cases h
    exact ho.reindex rest

/-- Setting a property keeps the shape of an array exactly if the property is there, and the length
is not changed. -/
theorem ArrayShaped.set_iff {key : String} (ho : o.ArrayShaped n) :
    (∃ n', (o.set key item).ArrayShaped n') ↔
      ∃ w, o.get? key = some w ∧ (key = lengthKey → w = item) := by
  constructor
  · rintro ⟨n', hset⟩
    have hlength := hset.length
    rw [get?_set] at hlength
    by_cases hkey : key = lengthKey
    · -- The keys are as before, so the new length is the old one.
      subst hkey
      rw [if_pos rfl] at hlength
      have hkeys : ∀ i, i < n' ↔ i < n := by
        intro i
        rw [← hset.isSome_index, ← ho.isSome_index, get?_set, if_neg (indexKey_ne_lengthKey i)]
      have hle := hkeys n
      have hge := hkeys n'
      obtain rfl : n = n' := by omega
      exact ⟨_, ho.length, fun _ => (Option.some.inj hlength).symm⟩
    · -- The length is as before, so every key was there.
      rw [if_neg fun heq => hkey heq.symm, ho.length] at hlength
      have hsame : (n : Int) = n' := Value.int.inj (Option.some.inj hlength)
      obtain rfl : n = n' := by omega
      have hsome : ((o.set key item).get? key).isSome := by simp [get?_set]
      obtain ⟨w, hw⟩ := Option.isSome_iff_exists.mp ((ho.keys key).mpr ((hset.keys key).mp hsome))
      exact ⟨w, hw, fun heq => absurd heq hkey⟩
  · rintro ⟨w, hw, hlength⟩
    have hsome : (o.get? key).isSome := Option.isSome_iff_exists.mpr ⟨w, hw⟩
    refine ⟨n, ?_, fun k => ?_⟩
    · rw [get?_set]
      by_cases hkey : lengthKey = key
      · rw [if_pos hkey, ← hlength hkey.symm, ← hw, ← hkey, ho.length]
      · rw [if_neg hkey, ho.length]
    · rw [get?_set, ← ho.keys]
      by_cases hk : k = key
      · simp [hk, hsome]
      · rw [if_neg hk]

theorem isArray_reindex (o : Object) (count : Nat) (items : List Value) :
    (o.reindex count items).isArray = o.isArray :=
  (isArray_methods_eraseIndices o count).1

/-- Taking an element keeps the shape of an array. -/
theorem Loses.arrayShaped (h : o.Loses o')
    (ho : o.isArray = true → ∃ n, o.ArrayShaped n) : o'.isArray = true → ∃ n, o'.ArrayShaped n := by
  intro harray
  cases h with
  | pop h =>
    have hmark : o'.isArray = o.isArray := by
      obtain ⟨n, -, -, -, rfl⟩ := exists_of_pop h
      rfl
    obtain ⟨n, hn⟩ := ho (hmark ▸ harray)
    exact ⟨_, hn.pop h⟩
  | shift h =>
    have hmark : o'.isArray = o.isArray := by
      rw [Object.shift, Source.bind_eq_ok] at h
      obtain ⟨items, -, h⟩ := h
      cases items with
      | nil => cases h
      | cons first rest =>
        cases h
        exact isArray_reindex o _ _
    obtain ⟨n, hn⟩ := ho (hmark ▸ harray)
    exact ⟨_, hn.shift h⟩

/-- Storing a value keeps the shape of an array, if a property that is set is there and the length
is not changed. -/
theorem Stores.arrayShaped {permitted : String → Prop} (h : o.Stores permitted item o')
    (ho : o.isArray = true → ∃ n, o.ArrayShaped n)
    (hpermitted : ∀ key n, permitted key → o.isArray = true → o.ArrayShaped n →
      ∃ w, o.get? key = some w ∧ (key = lengthKey → w = item)) :
    o'.isArray = true → ∃ n, o'.ArrayShaped n := by
  intro harray
  cases h with
  | push h =>
    have hmark : o'.isArray = o.isArray := by
      obtain ⟨n, -, rfl⟩ := exists_of_push h
      rfl
    obtain ⟨n, hn⟩ := ho (hmark ▸ harray)
    exact ⟨_, hn.push h⟩
  | unshift h =>
    have hmark : o'.isArray = o.isArray := by
      rw [Object.unshift, Source.bind_eq_ok] at h
      obtain ⟨items, -, h⟩ := h
      cases h
      exact isArray_reindex o _ _
    obtain ⟨n, hn⟩ := ho (hmark ▸ harray)
    exact ⟨_, hn.unshift h⟩
  | set hkey =>
    obtain ⟨n, hn⟩ := ho harray
    exact hn.set_iff.mpr (hpermitted _ n hkey harray hn)

end Object

/-! ### What every change keeps -/

/-- Whether all arrays have their shape. -/
def Heap.ArraysShaped (h : Heap) : Prop :=
  ∀ a, (h.get a).isArray = true → ∃ n, (h.get a).ArrayShaped n

/-- A property of an array may be set if it is there, and the length only to what it is. -/
def Permission.shapely : Permission := fun h a key v =>
  (h.get a).isArray = true → ∃ w, (h.get a).get? key = some w ∧ (key = Object.lengthKey → w = v)

section Heaps

variable {h h' : Heap}

/-- New objects with their shape, behind objects that do not change. -/
theorem Heap.ArraysShaped.extend (hshaped : h.ArraysShaped)
    (hold : ∀ a, a < h.size → h'.get? a = h.get? a)
    (hnew : ∀ a, h.size ≤ a → a < h'.size → (h'.get a).isArray = true →
      ∃ n, (h'.get a).ArrayShaped n) : h'.ArraysShaped := by
  intro a harray
  rcases Nat.lt_or_ge a h.size with ha | ha
  · rw [Heap.get_eq_of_get? (hold a ha)] at harray ⊢
    exact hshaped a harray
  · rcases Nat.lt_or_ge a h'.size with ha' | ha'
    · exact hnew a ha ha' harray
    · rw [Heap.get_of_size_le ha'] at harray
      cases harray

theorem Heap.ArraysShaped.set {a : Address} {o : Object} (hshaped : h.ArraysShaped)
    (ho : o.isArray = true → ∃ n, o.ArrayShaped n) : (h.set a o).ArraysShaped := by
  intro b harray
  by_cases hab : a = b
  · subst hab
    rcases Nat.lt_or_ge a h.size with ha | ha
    · rw [Heap.get_set_self o ha] at harray ⊢
      exact ho harray
    · rw [Heap.get_of_size_le (by simpa using ha)] at harray
      cases harray
  · rw [Heap.get_eq_of_get? (Heap.get?_set_of_ne o hab)] at harray ⊢
    exact hshaped b harray

theorem Heap.ArraysShaped.copy (hshaped : h.ArraysShaped) (vs : List Value) :
    (h.copy vs).2.ArraysShaped := by
  refine hshaped.extend (fun a => Heap.get?_copy_of_lt) fun a ha ha' harray => ?_
  obtain ⟨b, -, hget⟩ := Heap.exists_get_copy ha ha'
  rw [hget] at harray ⊢
  obtain ⟨n, hn⟩ := hshaped b harray
  exact ⟨n, hn.rename _⟩

theorem Heap.ArraysShaped.copyValue (hshaped : h.ArraysShaped) (v : Value) :
    (h.copyValue v).2.ArraysShaped := by
  cases v with
  | object a => exact hshaped.copy _
  | _ => exact hshaped

/-- Every change keeps the shape of the arrays, if what it sets is permitted. -/
theorem Heap.ArraysShaped.effect (hshaped : h.ArraysShaped) (he : Effect .shapely h h') :
    h'.ArraysShaped := by
  cases he with
  | @make o _ hmade =>
    refine hshaped.extend (fun a => Heap.get?_alloc_of_lt o) fun a ha ha' harray => ?_
    rw [Heap.size_alloc] at ha'
    obtain rfl : a = h.size := Nat.le_antisymm (Nat.le_of_lt_succ ha') ha
    rw [Heap.get_alloc_self] at harray ⊢
    obtain ⟨items, rfl⟩ := hmade harray
    exact ⟨_, Object.arrayShaped_ofElements items⟩
  | copy _ => exact hshaped.copy _
  | take ha hloses => exact hshaped.set (hloses.arrayShaped (hshaped _))
  | @store a v o ha hv hstores =>
    refine (hshaped.copyValue v).set (hstores.arrayShaped (hshaped a) fun key n hkey harray hn => ?_)
    obtain ⟨w, hw, hlength⟩ := hkey harray
    refine ⟨w, hw, fun heq => ?_⟩
    -- The length is a number, which is its own copy.
    subst heq
    rw [hn.length] at hw
    obtain rfl : w = .int n := (Option.some.inj hw).symm
    rw [← hlength rfl]
    rfl

end Heaps

/-! ### The points of a run -/

/-- Whether all arrays have their shape, so that every value is shown whose integers can be written, and
no document fails because of an array. -/
structure WellFormedArrays (h : Heap) : Prop where
  shaped : h.ArraysShaped
  shown : ∀ v, (∃ s, h.display v = .ok s) ∨ h.display v = .error (.givenUp .unreadableText)
  encoded : ∀ levels v line, Json.ofValue h levels v ≠ .error (.fault ⟨.corruptedArray, line⟩)

theorem Heap.ArraysShaped.wellFormed {h : Heap} (hshaped : h.ArraysShaped) : WellFormedArrays h := by
  have hcomplete : h.ArraysComplete := by
    intro a harray
    obtain ⟨n, hn⟩ := hshaped a harray
    obtain ⟨items, hitems, -⟩ := hn.elements
    exact ⟨items, hitems⟩
  exact ⟨hshaped, display_cases hcomplete, ofValue_ne_corruptedArray hcomplete⟩

theorem Heap.arraysShaped_empty : Heap.ArraysShaped {} := by
  intro a harray
  rw [Heap.get_of_size_le (Nat.zero_le a)] at harray
  cases harray

/-- In a run that starts with the builtins alone and sets a property of an array only where it is
there, and the length only to what it is, all arrays are well formed at every point, and where the
node of the point ends. -/
theorem arrays_stay_well_formed [Host.Limits] {config : Config} {world : Host.World}
    {source : String} {levels : Nat} {p : Point}
    (hpermits : RunPermitted .shapely config source (Session.new config world).machine)
    (hp : Evaluates config source (Session.new config world).machine levels p) :
    WellFormedArrays p.machine.heap ∧ WellFormedArrays ((evaluate levels).answer p).2.heap := by
  obtain ⟨hbefore, hafter⟩ := hp.heap_induction hpermits Heap.arraysShaped_empty
    fun _ hshaped he => Heap.ArraysShaped.effect hshaped he
  exact ⟨hbefore.wellFormed, hafter.wellFormed⟩

/-! ### A program that makes an array -/

/-- A program that makes an array. -/
def newArrayProgram : String := "import \"array\"\nlet a = array.new()"

/-- The call that makes the array. -/
def newArray : Node := .methodCall (.identifier "array" 2) "new" [] 2

/-- The machine after the import. -/
def arrayImported : Machine :=
  importedPackage (Session.new {} {}).machine "array" arrayMembers

theorem parse_newArrayProgram : Source.parse newArrayProgram =
    ⟨[.importing ⟨"\"array\"", 1⟩ none 1, .binding "a" newArray 2], none⟩ := by
  have htokens : Source.tokenize newArrayProgram =
      ([⟨.importWord, "import", 1⟩, ⟨.string, "\"array\"", 1⟩, ⟨.newline, "\n", 1⟩,
        ⟨.letWord, "let", 2⟩, ⟨.identifier, "a", 2⟩, ⟨.assign, "=", 2⟩, ⟨.identifier, "array", 2⟩,
        ⟨.dot, ".", 2⟩, ⟨.identifier, "new", 2⟩, ⟨.leftParen, "(", 2⟩, ⟨.rightParen, ")", 2⟩,
        ⟨.newline, "\n", 2⟩], none) := by
    decide +kernel
  unfold Source.parse
  rw [htokens]
  cbv

theorem answer_importArray :
    (evaluate stackLimit).answer
      ⟨{}, .importing ⟨"\"array\"", 1⟩ none 1, (Session.new {} {}).machine⟩ =
        (.ok .null, arrayImported) :=
  answer_importPackage 899 (by decide +kernel) (by decide +kernel) importable_array

/-- The run gets to its two statements, and inside the second one to the call. -/
theorem points_of_newArrayProgram {levels : Nat} {p : Point}
    (hp : Evaluates {} newArrayProgram (Session.new {} {}).machine levels p) :
    p = ⟨{}, .importing ⟨"\"array\"", 1⟩ none 1, (Session.new {} {}).machine⟩ ∨
      p = ⟨{}, .binding "a" newArray 2, arrayImported⟩ ∨ p = ⟨{}, newArray, arrayImported⟩ := by
  induction hp with
  | statement hasks =>
    unfold runBy at hasks
    rw [parse_newArrayProgram] at hasks
    rcases hasks.runTopLevel_cases with h | ⟨v, m', hanswer, hasks⟩
    · exact .inl h
    · rw [answer_importArray] at hanswer
      cases hanswer
      rcases hasks.runTopLevel_cases with h | ⟨v, m', -, hasks⟩
      · exact .inr (.inl h)
      · exact absurd hasks (not_asks_of_outcome fun _ => rfl)
  | inner _ hasks ih =>
    rcases ih with rfl | rfl | rfl
    · refine absurd hasks (not_asks_of_outcome fun ev' => ?_)
      rw [outcome_importPackage ev' (by decide +kernel) (by decide +kernel) importable_array,
        outcome_importPackage _ (by decide +kernel) (by decide +kernel) importable_array]
    · exact .inr (.inr hasks.of_binding)
    · refine absurd hasks (not_asks_of_outcome fun ev' => ?_)
      cbv

/-- The run sets no property. -/
theorem runPermitted_newArrayProgram :
    RunPermitted .shapely {} newArrayProgram (Session.new {} {}).machine := by
  intro levels p f vs m' hp happlies hset
  rcases points_of_newArrayProgram hp with rfl | rfl | rfl
  · cases happlies
  · cases happlies
  · cases happlies with
    | property hmember _ =>
      have hnew : ((memberOf (evaluate levels) {} (.identifier "array" 2) "new").outcome
          arrayImported).1.map Prod.snd = .ok (.native (.array .new)) := by
        cbv
      rw [hmember, hset] at hnew
      cases hnew

theorem evaluates_newArray :
    Evaluates {} newArrayProgram (Session.new {} {}).machine stackLimit
      ⟨{}, .binding "a" newArray 2, arrayImported⟩ := by
  have hparse : Source.parse newArrayProgram =
      ⟨[.importing ⟨"\"array\"", 1⟩ none 1] ++ .binding "a" newArray 2 :: [], none⟩ :=
    parse_newArrayProgram
  refine evaluates_statement hparse ?_
  rw [outcome_runTopLevel_ok answer_importArray]
  rfl

/-- The array of the program is well formed. -/
theorem new_array_well_formed :
    ∃ m, ((evaluate stackLimit).answer ⟨{}, .binding "a" newArray 2, arrayImported⟩).2 = m ∧
      WellFormedArrays m.heap ∧
      ((m.env.get? "a").bind Value.address?).map (fun a => (m.heap.get a).isArray) = some true := by
  refine ⟨_, rfl, (arrays_stay_well_formed runPermitted_newArrayProgram evaluates_newArray).2, ?_⟩
  cbv

/-! ### A program that breaks an array -/

/-- A program that takes the method `set` out of an object and calls it with an array. -/
def brokenArrayProgram : String :=
  "import \"json\"\nimport \"array\"\nlet a = array.new()\nlet s = json.new().set\n" ++
    "s(a, \"length\", \"x\")\nprint(a)"

/-- The statements that break the array. -/
def breakArray : List Node :=
  [.binding "a" (.methodCall (.identifier "array" 3) "new" [] 3) 3,
    .binding "s" (.property (.methodCall (.identifier "json" 4) "new" [] 4) "set" 4) 4,
    .call "s" [.identifier "a" 5, .text ⟨"\"length\"", 5⟩, .text ⟨"\"x\"", 5⟩] 5]

theorem parse_brokenArrayProgram : Source.parse brokenArrayProgram =
    ⟨(.importing ⟨"\"json\"", 1⟩ none 1 :: .importing ⟨"\"array\"", 2⟩ none 2 :: breakArray) ++
      [.call "print" [.identifier "a" 6] 6], none⟩ := by
  have htokens : Source.tokenize brokenArrayProgram =
      ([⟨.importWord, "import", 1⟩, ⟨.string, "\"json\"", 1⟩, ⟨.newline, "\n", 1⟩,
        ⟨.importWord, "import", 2⟩, ⟨.string, "\"array\"", 2⟩, ⟨.newline, "\n", 2⟩,
        ⟨.letWord, "let", 3⟩, ⟨.identifier, "a", 3⟩, ⟨.assign, "=", 3⟩, ⟨.identifier, "array", 3⟩,
        ⟨.dot, ".", 3⟩, ⟨.identifier, "new", 3⟩, ⟨.leftParen, "(", 3⟩, ⟨.rightParen, ")", 3⟩,
        ⟨.newline, "\n", 3⟩,
        ⟨.letWord, "let", 4⟩, ⟨.identifier, "s", 4⟩, ⟨.assign, "=", 4⟩, ⟨.identifier, "json", 4⟩,
        ⟨.dot, ".", 4⟩, ⟨.identifier, "new", 4⟩, ⟨.leftParen, "(", 4⟩, ⟨.rightParen, ")", 4⟩,
        ⟨.dot, ".", 4⟩, ⟨.identifier, "set", 4⟩, ⟨.newline, "\n", 4⟩,
        ⟨.identifier, "s", 5⟩, ⟨.leftParen, "(", 5⟩, ⟨.identifier, "a", 5⟩, ⟨.comma, ",", 5⟩,
        ⟨.string, "\"length\"", 5⟩, ⟨.comma, ",", 5⟩, ⟨.string, "\"x\"", 5⟩,
        ⟨.rightParen, ")", 5⟩, ⟨.newline, "\n", 5⟩,
        ⟨.identifier, "print", 6⟩, ⟨.leftParen, "(", 6⟩, ⟨.identifier, "a", 6⟩,
        ⟨.rightParen, ")", 6⟩, ⟨.newline, "\n", 6⟩], none) := by
    decide +kernel
  unfold Source.parse
  rw [htokens]
  cbv

/-- The machine after both imports. -/
def bothImported : Machine :=
  importedPackage (importedPackage (Session.new {} {}).machine "json" jsonMembers) "array"
    arrayMembers

/-- The machine after the array is broken. -/
def arrayBroken : Machine :=
  ((runTopLevel (evaluate stackLimit) {} none 2 breakArray).outcome bothImported).2

theorem evaluates_brokenArray :
    Evaluates {} brokenArrayProgram (Session.new {} {}).machine stackLimit
      ⟨{}, .call "print" [.identifier "a" 6] 6, arrayBroken⟩ := by
  refine evaluates_statement parse_brokenArrayProgram ?_
  have hjson : (evaluate stackLimit).answer
      ⟨{}, .importing ⟨"\"json\"", 1⟩ none 1, (Session.new {} {}).machine⟩ =
        (.ok .null, importedPackage (Session.new {} {}).machine "json" jsonMembers) :=
    answer_importPackage 899 (by decide +kernel) (by decide +kernel) importable_json
  have harray : (evaluate stackLimit).answer
      ⟨{}, .importing ⟨"\"array\"", 2⟩ none 2,
        importedPackage (Session.new {} {}).machine "json" jsonMembers⟩ =
        (.ok .null, bothImported) :=
    answer_importPackage 899 (by decide +kernel) (by decide +kernel) importable_array
  rw [outcome_runTopLevel_ok hjson, outcome_runTopLevel_ok harray]
  have hends : ((runTopLevel (evaluate stackLimit) {} none 2 breakArray).outcome
      bothImported).1 = .ok () := by
    cbv
  exact Prod.ext hends rfl

/-- Arrays are not well formed in every run: the method `set` can be called with an array, and then
the array cannot be shown. -/
theorem set_can_break_arrays :
    ¬∀ (config : Config) (world : Host.World) (source : String) (levels : Nat) (p : Point),
      Evaluates config source (Session.new config world).machine levels p →
      WellFormedArrays p.machine.heap := by
  intro hclaim
  have hshown := (hclaim {} {} _ _ _ evaluates_brokenArray).shown
  have hcorrupted : (arrayBroken.env.get? "a").map arrayBroken.heap.display =
      some (.error .corruptedArray) := by
    cbv
  cases ha : arrayBroken.env.get? "a" with
  | none =>
    rw [ha] at hcorrupted
    cases hcorrupted
  | some v =>
    rw [ha] at hcorrupted
    have herror : arrayBroken.heap.display v = .error .corruptedArray := Option.some.inj hcorrupted
    rcases hshown v with ⟨s, hs⟩ | hgivenUp
    · cases herror.symm.trans hs
    · cases herror.symm.trans hgivenUp

end ModuLang
