import Mathlib.Data.List.Nodup
import Mathlib.Data.List.Forall2
import ModuLang.Proofs.DecimalText
import ModuLang.Proofs.TableLookup

/-!
# Arrays as lists

An array keeps its elements under the keys of their indices, behind its length. The object that
`Object.ofElements` makes of a list has exactly these properties, in this order, and the operations
never leave objects of this form: `push` and `pop` work at the end of the properties, and `shift` and
`unshift` take away all elements and put in the new ones. So an operation on the array of a list is
the operation on the list, and a run of operations on the array is the run on the list, state by
state. That a new index is not among the keys, and that an element taken away is the only one with
its key, rests on the keys of different indices being different.
-/

namespace ModuLang

/-- A table is its entries. -/
theorem Table.eq_of_entries {α : Type} {t u : Table α} (h : t.entries = u.entries) : t = u := by
  obtain ⟨entries, _⟩ := t
  obtain ⟨entries', _⟩ := u
  obtain rfl : entries = entries' := h
  rfl

namespace Object

variable {items : List Value} {item : Value}

/-! ### The properties of the array of a list -/

theorem indexEntries_concat (i : Nat) (items : List Value) (item : Value) :
    indexEntries i (items ++ [item]) =
      indexEntries i items ++ [(indexKey ((i + items.length : Nat) : Int), item)] := by
  induction items generalizing i with
  | nil => rfl
  | cons first rest ih =>
    have hindex : i + 1 + rest.length = i + (first :: rest).length := by
      rw [List.length_cons]
      omega
    rw [List.cons_append, indexEntries, ih, hindex, indexEntries, List.cons_append]

theorem indexKey_not_mem_keys (items : List Value) :
    indexKey (items.length : Nat) ∉ (indexEntries 0 items).map Prod.fst := by
  intro hmem
  obtain ⟨entry, hentry, hkey⟩ := List.mem_map.mp hmem
  obtain ⟨i, hi, hindex⟩ := exists_mem_indexEntries_iff.mp ⟨entry, hentry, hkey⟩
  exact Nat.ne_of_gt hi (indexKey_injective hindex)

theorem lengthKey_not_mem_keys (items : List Value) :
    lengthKey ∉ (indexEntries 0 items).map Prod.fst := by
  intro hmem
  obtain ⟨entry, hentry, hkey⟩ := List.mem_map.mp hmem
  obtain ⟨i, -, hindex⟩ := exists_mem_indexEntries_iff.mp ⟨entry, hentry, hkey⟩
  exact indexKey_ne_lengthKey i hindex.symm

/-- The keys of the elements of a list are different from each other. -/
theorem nodup_keys (items : List Value) : ((indexEntries 0 items).map Prod.fst).Nodup := by
  induction items using List.reverseRecOn with
  | nil => exact List.nodup_nil
  | append_singleton items item ih =>
    rw [indexEntries_concat, Nat.zero_add, List.map_append, List.map_singleton]
    refine List.nodup_append.mpr ⟨ih, List.nodup_singleton _, fun key hkey last hlast heq => ?_⟩
    rw [heq, List.mem_singleton.mp hlast] at hkey
    exact indexKey_not_mem_keys items hkey

/-- The array of a list has its length first, and then its elements in order. -/
theorem entries_ofElements (items : List Value) :
    (ofElements items).properties.entries =
      (lengthKey, .int items.length) :: indexEntries 0 items :=
  Table.entries_insertAll_of_nodup .empty
    (List.nodup_cons.mpr ⟨lengthKey_not_mem_keys items, nodup_keys items⟩)

/-- An array with the properties of a list is the array of the list. -/
theorem eq_ofElements {o : Object}
    (hentries : o.properties.entries = (lengthKey, .int items.length) :: indexEntries 0 items)
    (hmark : o.isArray = true) (hmethods : o.methods = []) : o = ofElements items := by
  obtain ⟨properties, isArray, methods⟩ := o
  obtain rfl : properties = (ofElements items).properties :=
    Table.eq_of_entries (hentries.trans (entries_ofElements items).symm)
  obtain rfl : isArray = true := hmark
  obtain rfl : methods = [] := hmethods
  rfl

/-! ### Operations on the array of a list -/

theorem push_ofElements {items : List Value} (hlength : Number.isWritable items.length = true)
    (item : Value) : (ofElements items).push item = .ok (ofElements (items ++ [item])) := by
  have hnew : indexKey (items.length : Nat) ∉ (ofElements items).properties.entries.map Prod.fst := by
    rw [entries_ofElements, List.map_cons, List.mem_cons, not_or]
    exact ⟨indexKey_ne_lengthKey _, indexKey_not_mem_keys items⟩
  have hkey : Number.writeInteger (items.length : Nat) = .ok (indexKey (items.length : Nat)) :=
    Number.writeInteger_of_isWritable hlength
  simp only [push, length_ofElements, bind, Except.bind, hkey]
  refine congrArg Except.ok (eq_ofElements ?_ rfl rfl)
  -- The element comes last, and the length changes where it stands.
  change Table.put _ _ (Table.put _ _ _) = _
  rw [Table.put_of_not_mem hnew, entries_ofElements, List.cons_append, Table.put, if_pos rfl,
    indexEntries_concat, Nat.zero_add, List.length_append]
  rfl

theorem push_ofElements_of_not_writable {items : List Value}
    (hlength : ¬Number.isWritable items.length = true) (item : Value) :
    (ofElements items).push item = .error (.givenUp .unreadableText) := by
  simp only [push, length_ofElements, bind, Except.bind,
    Number.writeInteger_of_not_isWritable hlength]

theorem pop_ofElements_nil : (ofElements []).pop = .error .emptyArray :=
  rfl

section

variable (items : List Value) (last : Value)

theorem last_index : (((items ++ [last]).length : Nat) : Int) - 1 = (items.length : Nat) := by
  rw [List.length_append, List.length_singleton]
  omega

theorem not_length_concat_lt_one : ¬(((items ++ [last]).length : Nat) : Int) < 1 := by
  rw [List.length_append, List.length_singleton]
  omega

theorem pop_ofElements_concat (hindex : Number.isWritable items.length = true) :
    (ofElements (items ++ [last])).pop = .ok (last, ofElements items) := by
  have hfound : (ofElements (items ++ [last])).get? (indexKey (items.length : Nat)) = some last :=
    get?_ofElements (by simp)
  have hchanged : ((ofElements (items ++ [last])).erase (indexKey (items.length : Nat))).set lengthKey
      (.int (items.length : Nat)) = ofElements items := by
    refine eq_ofElements ?_ rfl rfl
    have hkept : (indexEntries 0 items).filter (fun entry => entry.1 != indexKey (items.length : Nat)) =
        indexEntries 0 items := by
      refine List.filter_eq_self.mpr fun entry hentry => bne_iff_ne.mpr fun hkey => ?_
      exact indexKey_not_mem_keys items (List.mem_map.mpr ⟨entry, hentry, hkey⟩)
    change Table.put _ _ (List.filter _ _) = _
    rw [entries_ofElements, indexEntries_concat, Nat.zero_add, List.filter_cons_of_pos,
      List.filter_append, hkept]
    · simp [Table.put]
    · exact bne_iff_ne.mpr (indexKey_ne_lengthKey _).symm
  have hkey : Number.writeInteger (items.length : Nat) = .ok (indexKey (items.length : Nat)) :=
    Number.writeInteger_of_isWritable hindex
  simp only [pop, length_ofElements, bind, Except.bind, last_index,
    if_neg (not_length_concat_lt_one items last), hkey, hfound, hchanged]
  rfl

theorem pop_ofElements_of_not_writable (hindex : ¬Number.isWritable items.length = true) :
    (ofElements (items ++ [last])).pop = .error (.givenUp .unreadableText) := by
  simp only [pop, length_ofElements, bind, Except.bind, last_index,
    if_neg (not_length_concat_lt_one items last), Number.writeInteger_of_not_isWritable hindex]

end

/-- Erasing elements leaves the properties that have none of their keys. -/
theorem entries_eraseIndices (o : Object) (count : Nat) :
    (o.eraseIndices count).properties.entries =
      o.properties.entries.filter fun entry => decide (∀ i, i < count → entry.1 ≠ indexKey (i : Nat)) := by
  induction count with
  | zero => exact (List.filter_eq_self.mpr fun entry _ => by simp).symm
  | succ count ih =>
    rw [eraseIndices_succ]
    change List.filter _ (o.eraseIndices count).properties.entries = _
    rw [ih, List.filter_filter]
    refine List.filter_congr fun entry _ => ?_
    rw [Bool.eq_iff_iff, Bool.and_eq_true, bne_iff_ne, decide_eq_true_iff, decide_eq_true_iff]
    constructor
    · rintro ⟨hlast, hbelow⟩ i hi
      rcases Nat.lt_succ_iff_lt_or_eq.mp hi with hi | rfl
      · exact hbelow i hi
      · exact hlast
    · exact fun h => ⟨h count (Nat.lt_succ_self count), fun i hi => h i (Nat.lt_succ_of_lt hi)⟩

/-- Replacing all elements of the array of a list gives the array of the new list. -/
theorem reindex_ofElements (items items' : List Value) :
    (ofElements items).reindex items.length items' = ofElements items' := by
  obtain ⟨hmark, hmethods⟩ := isArray_methods_eraseIndices (ofElements items) items.length
  refine eq_ofElements ?_ hmark hmethods
  -- What is left when all elements are erased is the length.
  have hcleared : ((ofElements items).eraseIndices items.length).properties.entries =
      [(lengthKey, .int items.length)] := by
    have hnone : (indexEntries 0 items).filter (fun entry =>
        decide (∀ i, i < items.length → entry.1 ≠ indexKey (i : Nat))) = [] := by
      refine List.filter_eq_nil_iff.mpr fun entry hentry hkept => ?_
      obtain ⟨i, hi, hkey⟩ := exists_mem_indexEntries_iff.mp ⟨entry, hentry, rfl⟩
      exact of_decide_eq_true hkept i hi hkey
    rw [entries_eraseIndices, entries_ofElements, List.filter_cons_of_pos, hnone]
    exact decide_eq_true fun i _ => (indexKey_ne_lengthKey i).symm
  have hfilled : (((ofElements items).eraseIndices items.length).properties.insertAll
      (indexEntries 0 items')).entries = (lengthKey, .int items.length) :: indexEntries 0 items' := by
    rw [Table.entries_insertAll_of_nodup, hcleared]
    · rfl
    · rw [hcleared]
      exact List.nodup_cons.mpr ⟨lengthKey_not_mem_keys items', nodup_keys items'⟩
  change Table.put _ _ (Table.insertAll _ _).entries = _
  rw [hfilled, Table.put, if_pos rfl]

theorem shift_ofElements_nil : (ofElements []).shift = .error .emptyArray :=
  rfl

theorem shift_ofElements_cons (first : Value) (rest : List Value) :
    (ofElements (first :: rest)).shift = .ok (first, ofElements rest) := by
  rw [shift, elements_ofElements]
  exact congrArg (fun o => Except.ok (first, o)) (reindex_ofElements (first :: rest) rest)

theorem unshift_ofElements (items : List Value) (item : Value) :
    (ofElements items).unshift item = .ok (ofElements (item :: items)) := by
  rw [unshift, elements_ofElements]
  exact congrArg Except.ok (reindex_ofElements items (item :: items))

/-- The array of a list is made by pushing its elements one after the other, as far as their indices
can be written. -/
theorem foldlM_push (items : List Value) :
    items.foldlM Object.push (ofElements []) =
      if Number.isWritable (items.length - 1) then .ok (ofElements items)
      else .error (.givenUp .unreadableText) := by
  induction items using List.reverseRecOn with
  | nil => rfl
  | append_singleton items item ih =>
    rw [List.foldlM_append, ih, last_index]
    by_cases hlast : Number.isWritable items.length = true
    · have hbefore : Number.isWritable ((items.length : Int) - 1) = true := by
        cases items with
        | nil => rfl
        | cons first rest =>
          refine Number.isWritable_of_le hlast ?_
          rw [List.length_cons]
          omega
      rw [if_pos hbefore, if_pos hlast]
      simp only [List.foldlM_cons, List.foldlM_nil, bind, Except.bind, push_ofElements hlast]
      rfl
    · rw [if_neg hlast]
      split
      · simp only [List.foldlM_cons, bind, Except.bind, push_ofElements_of_not_writable hlast]
      · rfl

end Object

/-! ### Runs of operations -/

/-- An operation that changes an array. -/
inductive ArrayOperation where
  | push (item : Value)
  | unshift (item : Value)
  | pop
  | shift

namespace ArrayOperation

/-- What an operation answers: the element that was taken, if it takes one, or why it failed. -/
abbrev Answer := Except Cause (Option Value)

/-- The answer of an operation that adds, and the object behind it, which stays where it failed. -/
def added (o : Object) : Except Cause Object → Answer × Object
  | .ok o' => (.ok none, o')
  | .error cause => (.error cause, o)

/-- The answer of an operation that takes, and the object behind it, which stays where it failed. -/
def taken (o : Object) : Except Cause (Value × Object) → Answer × Object
  | .ok (value, o') => (.ok (some value), o')
  | .error cause => (.error cause, o)

/-- An operation on an object. -/
def onObject (o : Object) : ArrayOperation → Answer × Object
  | .push item => added o (o.push item)
  | .unshift item => added o (o.unshift item)
  | .pop => taken o o.pop
  | .shift => taken o o.shift

/-- An operation on a list: nothing can be taken from a list without elements. At the end of the list
the machine gives up on an index of too many digits. -/
def onList (items : List Value) : ArrayOperation → Answer × List Value
  | .push item =>
    if Number.isWritable items.length then (.ok none, items ++ [item])
    else (.error (.givenUp .unreadableText), items)
  | .unshift item => (.ok none, item :: items)
  | .pop =>
    match items.getLast? with
    | some last =>
      if Number.isWritable (items.length - 1) then (.ok (some last), items.dropLast)
      else (.error (.givenUp .unreadableText), items)
    | none => (.error .emptyArray, items)
  | .shift =>
    match items with
    | first :: rest => (.ok (some first), rest)
    | [] => (.error .emptyArray, [])

/-- The answers of operations that come one after the other, each with the state behind it. -/
def trace {σ : Type} (step : σ → ArrayOperation → Answer × σ) (s : σ) :
    List ArrayOperation → List (Answer × σ)
  | [] => []
  | operation :: rest => step s operation :: trace step (step s operation).2 rest

/-- An operation on the array of a list is the operation on the list. -/
theorem onObject_ofElements (items : List Value) (operation : ArrayOperation) :
    operation.onObject (.ofElements items) =
      ((operation.onList items).1, .ofElements (operation.onList items).2) := by
  cases operation with
  | push item =>
    by_cases hlength : Number.isWritable items.length = true
    · rw [onObject, Object.push_ofElements hlength, added, onList, if_pos hlength]
    · rw [onObject, Object.push_ofElements_of_not_writable hlength, added, onList, if_neg hlength]
  | unshift item => rw [onObject, Object.unshift_ofElements, added, onList]
  | pop =>
    rcases items.eq_nil_or_concat' with rfl | ⟨init, last, rfl⟩
    · rw [onObject, Object.pop_ofElements_nil, taken]
      rfl
    · rw [onObject, onList, List.getLast?_concat]
      simp only [Object.last_index]
      by_cases hindex : Number.isWritable init.length = true
      · rw [Object.pop_ofElements_concat init last hindex, taken, if_pos hindex, List.dropLast_concat]
      · rw [Object.pop_ofElements_of_not_writable init last hindex, taken, if_neg hindex]
  | shift =>
    cases items with
    | nil =>
      rw [onObject, Object.shift_ofElements_nil, taken]
      rfl
    | cons first rest => rw [onObject, Object.shift_ofElements_cons, taken, onList]

/-- A run of operations on the array of a list is the run on the list. -/
theorem trace_ofElements (items : List Value) (operations : List ArrayOperation) :
    trace onObject (.ofElements items) operations =
      (trace onList items operations).map fun state => (state.1, .ofElements state.2) := by
  induction operations generalizing items with
  | nil => rfl
  | cons operation rest ih => rw [trace, onObject_ofElements, ih, trace, List.map_cons]

end ArrayOperation

/-- Whether an object is an array of exactly the elements of a list. -/
structure Object.Represents (o : Object) (items : List Value) : Prop where
  length : o.length = .ok (items.length : Int)
  elements : o.elements = .ok items
  keys : ∀ key, key ∈ o.properties.keys ↔
    key = lengthKey ∨ ∃ i, i < items.length ∧ key = indexKey (i : Nat)
  isArray : o.isArray = true
  methods : o.methods = []

theorem Object.represents_ofElements (items : List Value) : (ofElements items).Represents items where
  length := length_ofElements items
  elements := elements_ofElements items
  keys key := by
    rw [Table.keys, entries_ofElements, List.map_cons, List.mem_cons, List.mem_map,
      exists_mem_indexEntries_iff]
  isArray := rfl
  methods := rfl

/-- Arrays refine lists. The array of a list is made by pushing its elements, and a run of operations
on it simulates the run on the list: after every operation both gave the same answer, which is the
element that was taken, or a failure exactly where nothing could be taken from the list, and the array
is one of exactly the elements of the list. Only the machine may give up, and it does so where the index
at the end of the list has more digits than it writes. -/
theorem arrays_refine_lists (items : List Value) (operations : List ArrayOperation) :
    (items.foldlM Object.push (.ofElements []) =
      if Number.isWritable (items.length - 1) then .ok (.ofElements items)
      else .error (.givenUp .unreadableText)) ∧
      (Object.ofElements items).Represents items ∧
      List.Forall₂ (fun object list => object.1 = list.1 ∧ object.2.Represents list.2)
        (ArrayOperation.trace ArrayOperation.onObject (.ofElements items) operations)
        (ArrayOperation.trace ArrayOperation.onList items operations) := by
  refine ⟨Object.foldlM_push items, Object.represents_ofElements items, ?_⟩
  rw [ArrayOperation.trace_ofElements, List.forall₂_map_left_iff]
  exact List.forall₂_same.mpr fun state _ => ⟨rfl, Object.represents_ofElements state.2⟩

end ModuLang
