import Mathlib.Data.List.Basic
import Mathlib.Data.List.Induction
import ModuLang.Environment

/-!
# What is found in tables

A table gives back what it was given last under a name. For an environment this says what a
definition changes; for an array it says that its elements are found under their indices, which
rests on two facts about keys: different indices have different keys, and none of them is the key of
the length. As a list, a table has its names in the order in which they first came, each with the
value that came last.
-/

namespace ModuLang

namespace Table

variable {α : Type} {key k : String} {value : α}

theorem lookup_put (key : String) (value : α) (entries : List (String × α)) (k : String) :
    (put key value entries).lookup k = if k = key then some value else entries.lookup k := by
  -- A name that is there keeps its place, and a new one comes last.
  by_cases hk : k = key
  · subst hk
    rw [if_pos rfl]
    induction entries with
    | nil => simp [put]
    | cons entry rest ih =>
      obtain ⟨k', v⟩ := entry
      rw [put]
      by_cases hk' : k' = k
      · simp [hk']
      · have hne : (k == k') = false := beq_false_of_ne fun heq => hk' heq.symm
        rw [if_neg hk', List.lookup_cons, hne]
        exact ih
  · have hne : (k == key) = false := beq_false_of_ne hk
    rw [if_neg hk]
    induction entries with
    | nil => simp [put, List.lookup_cons, hne]
    | cons entry rest ih =>
      obtain ⟨k', v⟩ := entry
      rw [put]
      by_cases hk' : k' = key
      · rw [if_pos hk', List.lookup_cons, List.lookup_cons, hk', hne]
      · rw [if_neg hk', List.lookup_cons, List.lookup_cons, ih]

/-- An insertion changes what is found under its name alone. -/
theorem get?_insert (t : Table α) (key : String) (value : α) (k : String) :
    (t.insert key value).get? k = if k = key then some value else t.get? k :=
  lookup_put key value t.entries k

/-- Insertions under other names do not change what is found. -/
theorem get?_insertAll_of_ne {entries : List (String × α)} (t : Table α)
    (h : ∀ entry ∈ entries, entry.1 ≠ k) : (t.insertAll entries).get? k = t.get? k := by
  unfold insertAll
  induction entries generalizing t with
  | nil => rfl
  | cons entry rest ih =>
    have hfirst : k ≠ entry.1 := fun heq => h entry List.mem_cons_self heq.symm
    rw [List.foldl_cons, ih _ fun entry hentry => h entry (List.mem_cons_of_mem _ hentry),
      get?_insert, if_neg hfirst]

/-- Removing a name changes what is found under it alone. -/
theorem get?_erase (t : Table α) (key k : String) :
    (t.erase key).get? k = if k = key then none else t.get? k := by
  have hlookup : ∀ entries : List (String × α),
      (entries.filter fun entry => entry.1 != key).lookup k =
        if k = key then none else entries.lookup k := by
    intro entries
    induction entries with
    | nil => simp
    | cons entry rest ih =>
      by_cases hentry : entry.1 = key
      · -- An entry that is removed is not the one that is looked for, unless its name is.
        rw [List.filter_cons_of_neg (by simpa using hentry), ih, List.lookup_cons]
        by_cases hk : k = key
        · rw [if_pos hk, if_pos hk]
        · have hne : (k == entry.1) = false := beq_false_of_ne fun heq => hk (heq.trans hentry)
          rw [if_neg hk, if_neg hk, hne]
      · rw [List.filter_cons_of_pos (by simpa using hentry), List.lookup_cons, List.lookup_cons, ih]
        by_cases hk : k = key
        · have hne : (k == entry.1) = false :=
            beq_false_of_ne fun heq => hentry (heq.symm.trans hk)
          rw [hne, if_pos hk]
        · rw [if_neg hk, if_neg hk]
  exact hlookup t.entries

/-- What is found where every value is changed is the changed value. -/
theorem get?_map {β : Type} (f : α → β) (t : Table α) (k : String) :
    (t.map f).get? k = (t.get? k).map f := by
  have hlookup : ∀ entries : List (String × α),
      (entries.map fun entry => (entry.1, f entry.2)).lookup k = (entries.lookup k).map f := by
    intro entries
    induction entries with
    | nil => rfl
    | cons entry rest ih =>
      rw [List.map_cons, List.lookup_cons, List.lookup_cons]
      cases k == entry.1 with
      | true => rfl
      | false => exact ih
  exact hlookup t.entries

/-- Under a name that is inserted something is found, and elsewhere what was found before. -/
theorem isSome_get?_insertAll (t : Table α) (entries : List (String × α)) (k : String) :
    ((t.insertAll entries).get? k).isSome ↔ (t.get? k).isSome ∨ ∃ entry ∈ entries, entry.1 = k := by
  unfold insertAll
  induction entries generalizing t with
  | nil => simp
  | cons entry rest ih =>
    rw [List.foldl_cons, ih, get?_insert]
    by_cases hk : k = entry.1
    · simp [hk]
    · have hne : ¬entry.1 = k := fun heq => hk heq.symm
      simp [hk, hne]

/-! ### Tables as lists -/

/-- The names of some entries in the order in which they first come, each with its last value. -/
def lastEntries (entries : List (String × α)) : List (String × α) :=
  (entries.map Prod.fst).eraseDups.filterMap fun name =>
    (entries.reverse.lookup name).map fun v => (name, v)

theorem eraseDups_concat (names : List String) (name : String) :
    (names ++ [name]).eraseDups =
      if name ∈ names then names.eraseDups else names.eraseDups ++ [name] := by
  rw [List.eraseDups_append]
  by_cases h : name ∈ names
  · simp [List.removeAll, h]
  · simp [List.removeAll, h, List.eraseDups_cons]

theorem insertAll_concat (t : Table α) (entries : List (String × α)) (entry : String × α) :
    t.insertAll (entries ++ [entry]) = (t.insertAll entries).insert entry.1 entry.2 := by
  unfold insertAll
  rw [List.foldl_append]
  rfl

/-- A table finds the last value of a name. -/
theorem get?_insertAll (t : Table α) (entries : List (String × α)) (k : String) :
    (t.insertAll entries).get? k = (entries.reverse.lookup k).or (t.get? k) := by
  induction entries using List.reverseRecOn with
  | nil => rfl
  | append_singleton entries entry ih =>
    rw [insertAll_concat, get?_insert, ih, List.reverse_concat, List.lookup_cons]
    by_cases hk : k = entry.1
    · simp [hk]
    · rw [if_neg hk, beq_false_of_ne hk]

/-- A table has the names in the order in which they first came. -/
theorem keys_ofList (entries : List (String × α)) :
    (ofList entries).keys = (entries.map Prod.fst).eraseDups := by
  unfold ofList
  induction entries using List.reverseRecOn with
  | nil => rfl
  | append_singleton entries entry ih =>
    have hkeys : ((empty.insertAll entries).insert entry.1 entry.2).keys =
        if entry.1 ∈ (empty.insertAll entries).keys then (empty.insertAll entries).keys
        else (empty.insertAll entries).keys ++ [entry.1] := map_fst_put _ _ _
    rw [insertAll_concat, hkeys, ih, List.map_append, List.map_singleton, eraseDups_concat]
    simp only [List.mem_eraseDups]

/-- A table is given by its names and what it finds under them. -/
theorem entries_eq_filterMap (t : Table α) :
    t.entries = t.keys.filterMap fun name => (t.get? name).map fun v => (name, v) := by
  have hlist : ∀ entries : List (String × α), (entries.map Prod.fst).Nodup →
      entries = (entries.map Prod.fst).filterMap fun name =>
        (entries.lookup name).map fun v => (name, v) := by
    intro entries
    induction entries with
    | nil => exact fun _ => rfl
    | cons entry rest ih =>
      intro hnodup
      obtain ⟨hnew, hrest⟩ := List.nodup_cons.mp hnodup
      -- The names of the rest are other names, so what is found under them is in the rest.
      have hsame : (rest.map Prod.fst).filterMap (fun name =>
            ((entry :: rest).lookup name).map fun v => (name, v)) =
          (rest.map Prod.fst).filterMap fun name => (rest.lookup name).map fun v => (name, v) := by
        refine List.filterMap_congr fun name hname => ?_
        have hne : (name == entry.1) = false := beq_false_of_ne fun heq => hnew (heq ▸ hname)
        rw [List.lookup_cons, hne]
      rw [List.map_cons, List.filterMap_cons, hsame, ← ih hrest, List.lookup_cons, beq_self_eq_true]
      rfl
  exact hlist t.entries t.nodup

/-- The entries of a table that is made of a list are the last ones of the list. -/
theorem entries_ofList (entries : List (String × α)) :
    (ofList entries).entries = lastEntries entries := by
  rw [entries_eq_filterMap, keys_ofList]
  unfold lastEntries
  refine List.filterMap_congr fun name _ => ?_
  rw [ofList, get?_insertAll, show (empty : Table α).get? name = none from rfl, Option.or_none]

/-- A new name comes last. -/
theorem put_of_not_mem {entries : List (String × α)} (h : key ∉ entries.map Prod.fst) :
    put key value entries = entries ++ [(key, value)] := by
  induction entries with
  | nil => rfl
  | cons first rest ih =>
    have hne : ¬first.1 = key := fun heq => h (List.mem_cons.mpr (.inl heq.symm))
    rw [put, if_neg hne, ih fun hmem => h (List.mem_cons_of_mem _ hmem), List.cons_append]

/-- New names come last, in the order in which they are put in. -/
theorem entries_insertAll_of_nodup (t : Table α) {entries : List (String × α)}
    (h : ((t.entries ++ entries).map Prod.fst).Nodup) :
    (t.insertAll entries).entries = t.entries ++ entries := by
  induction entries using List.reverseRecOn with
  | nil => exact (List.append_nil _).symm
  | append_singleton entries entry ih =>
    rw [← List.append_assoc, List.map_append, List.nodup_append] at h
    have hold := ih h.1
    have hnew : entry.1 ∉ (t.entries ++ entries).map Prod.fst := fun hmem =>
      h.2.2 _ hmem _ (List.mem_singleton.mpr rfl) rfl
    rw [insertAll_concat, insert]
    simp only [hold]
    rw [put_of_not_mem hnew, List.append_assoc]

/-- The entries of a table make it again. -/
theorem entries_ofList_entries (t : Table α) : (ofList t.entries).entries = t.entries :=
  entries_insertAll_of_nodup empty t.nodup

end Table

theorem Environment.get?_define (e : Environment) (name : String) (v : Value) (x : String) :
    (e.define name v).get? x = if x = name then some v else e.get? x :=
  e.vars.get?_insert name v x

namespace Object

/-! ### Arrays -/

/-- The keys of different indices are different. -/
theorem indexKey_injective {i j : Nat} (h : indexKey i = indexKey j) : i = j := by
  have hdigits : ∀ n : Nat, Nat.ofDigitChars 10 (indexKey n).toList 0 = n := by
    intro n
    have hkey : (indexKey n).toList = Nat.toDigits 10 n := Nat.toList_repr
    rw [hkey]
    exact Nat.ofDigitChars_toDigits (by decide) (by decide)
  calc
    i = Nat.ofDigitChars 10 (indexKey i).toList 0 := (hdigits i).symm
    _ = Nat.ofDigitChars 10 (indexKey j).toList 0 := by rw [h]
    _ = j := hdigits j

/-- No index has the key of the length. -/
theorem indexKey_ne_lengthKey (i : Nat) : indexKey i ≠ lengthKey := by
  intro h
  have hkey : Nat.toDigits 10 i = lengthKey.toList := by
    rw [← h]
    exact Nat.toList_repr.symm
  have hmem : 'l' ∈ Nat.toDigits 10 i := by
    rw [hkey]
    decide
  have hdigit := Nat.isDigit_of_mem_toDigits (by decide) (by decide) hmem
  exact absurd hdigit (by decide)

/-- The keys of elements from an index on are those of this index and of later ones. -/
theorem exists_of_mem_indexEntries {i : Nat} {items : List Value} {entry : String × Value}
    (h : entry ∈ indexEntries i items) :
    ∃ j, items[j]? = some entry.2 ∧ entry.1 = indexKey ((i + j : Nat) : Int) := by
  induction items generalizing i with
  | nil => exact absurd h List.not_mem_nil
  | cons item rest ih =>
    rcases List.mem_cons.mp h with rfl | h
    · exact ⟨0, rfl, rfl⟩
    · obtain ⟨j, hitem, hkey⟩ := ih h
      refine ⟨j + 1, hitem, ?_⟩
      rw [hkey]
      congr 2
      omega

/-- The keys of elements from the first index on are those below their number. -/
theorem exists_mem_indexEntries_iff {items : List Value} {key : String} :
    (∃ entry ∈ indexEntries 0 items, entry.1 = key) ↔
      ∃ i, i < items.length ∧ key = indexKey (i : Nat) := by
  have hmem : ∀ (i j : Nat) (items : List Value), j < items.length →
      ∃ v, (indexKey ((i + j : Nat) : Int), v) ∈ indexEntries i items := by
    intro i j items hj
    induction items generalizing i j with
    | nil => exact absurd hj (Nat.not_lt_zero j)
    | cons item rest ih =>
      cases j with
      | zero => exact ⟨item, List.mem_cons_self⟩
      | succ j =>
        obtain ⟨v, hv⟩ := ih (i + 1) j (Nat.lt_of_succ_lt_succ hj)
        rw [show i + 1 + j = i + (j + 1) by omega] at hv
        exact ⟨v, List.mem_cons_of_mem _ hv⟩
  constructor
  · rintro ⟨entry, hentry, rfl⟩
    obtain ⟨j, hitem, hkey⟩ := exists_of_mem_indexEntries hentry
    rw [Nat.zero_add] at hkey
    exact ⟨j, (List.getElem?_eq_some_iff.mp hitem).1, hkey⟩
  · rintro ⟨i, hi, rfl⟩
    obtain ⟨v, hv⟩ := hmem 0 i items hi
    rw [Nat.zero_add] at hv
    exact ⟨_, hv, rfl⟩

/-- The elements that are put into a table are found under their indices. -/
theorem get?_insertAll_indexEntries (t : Table Value) (i : Nat) {items : List Value} {j : Nat}
    {v : Value} (h : items[j]? = some v) :
    (t.insertAll (indexEntries i items)).get? (indexKey ((i + j : Nat) : Int)) = some v := by
  induction items generalizing t i j with
  | nil => simp at h
  | cons item rest ih =>
    cases j with
    | zero =>
      obtain rfl : item = v := by simpa using h
      -- The later elements have other keys, so they leave this one as it is.
      have hlater : ∀ entry ∈ indexEntries (i + 1) rest, entry.1 ≠ indexKey (i : Int) := by
        intro entry hentry heq
        obtain ⟨j, -, hkey⟩ := exists_of_mem_indexEntries hentry
        have hsame := indexKey_injective (hkey.symm.trans heq)
        omega
      have hrest := (t.insert (indexKey i) item).get?_insertAll_of_ne hlater
      rw [Table.get?_insert, if_pos rfl] at hrest
      exact hrest
    | succ j =>
      have hrest := ih (t.insert (indexKey i) item) (i + 1) h
      rw [show i + 1 + j = i + (j + 1) by omega] at hrest
      exact hrest

theorem eraseIndices_succ (o : Object) (count : Nat) :
    o.eraseIndices (count + 1) = (o.eraseIndices count).erase (indexKey count) := by
  unfold eraseIndices
  rw [List.range_succ, List.foldl_append]
  rfl

/-- Erasing elements changes properties only. -/
theorem isArray_methods_eraseIndices (o : Object) (count : Nat) :
    (o.eraseIndices count).isArray = o.isArray ∧ (o.eraseIndices count).methods = o.methods := by
  induction count with
  | zero => exact ⟨rfl, rfl⟩
  | succ count ih =>
    rw [eraseIndices_succ]
    exact ih

/-- The elements of an array are found under their indices. -/
theorem get?_ofElements {items : List Value} {j : Nat} {v : Value} (h : items[j]? = some v) :
    (ofElements items).get? (indexKey (j : Int)) = some v := by
  have hget := get?_insertAll_indexEntries (Table.empty.insert lengthKey (.int items.length)) 0 h
  rw [Nat.zero_add] at hget
  exact hget

theorem get?_lengthKey_ofElements (items : List Value) :
    (ofElements items).get? lengthKey = some (.int items.length) := by
  have hne : ∀ entry ∈ indexEntries 0 items, entry.1 ≠ lengthKey := by
    intro entry hentry heq
    obtain ⟨j, -, hkey⟩ := exists_of_mem_indexEntries hentry
    exact indexKey_ne_lengthKey _ (hkey.symm.trans heq)
  have hget := (Table.empty.insert lengthKey (.int items.length)).get?_insertAll_of_ne hne
  rw [Table.get?_insert, if_pos rfl] at hget
  exact hget

theorem length_ofElements (items : List Value) :
    (ofElements items).length = .ok (items.length : Int) := by
  rw [length, get?_lengthKey_ofElements]

/-- The elements of an object are missing for one reason alone. -/
theorem eq_corruptedArray_of_elementsFrom {o : Object} {i count : Nat} {cause : Cause}
    (h : o.elementsFrom i count = .error cause) : cause = .corruptedArray := by
  induction count generalizing i with
  | zero => cases h
  | succ count ih =>
    rw [elementsFrom] at h
    split at h
    · cases h
      rfl
    · cases hrest : o.elementsFrom (i + 1) count with
      | error cause' =>
        rw [hrest] at h
        cases h
        exact ih hrest
      | ok rest =>
        rw [hrest] at h
        cases h

theorem eq_corruptedArray_of_length {o : Object} {cause : Cause} (h : o.length = .error cause) :
    cause = .corruptedArray := by
  unfold length at h
  split at h <;> cases h
  rfl

theorem eq_corruptedArray_of_elements {o : Object} {cause : Cause} (h : o.elements = .error cause) :
    cause = .corruptedArray := by
  unfold elements length at h
  split at h
  · exact eq_corruptedArray_of_elementsFrom h
  · cases h
    rfl

/-- What is found under the indices from some one on are the elements from there on. -/
theorem elementsFrom_eq {o : Object} {items : List Value} {i : Nat}
    (hget : ∀ (k : Nat) (v : Value), items[k]? = some v →
      o.get? (indexKey ((i + k : Nat) : Int)) = some v) :
    o.elementsFrom i items.length = .ok items := by
  induction items generalizing i with
  | nil => rfl
  | cons item items ih =>
    have hrest : o.elementsFrom (i + 1) items.length = .ok items := by
      refine ih fun k v hk => ?_
      rw [show i + 1 + k = i + (k + 1) by omega]
      exact hget (k + 1) v hk
    have hfirst : o.get? (indexKey (i : Int)) = some item := hget 0 item rfl
    rw [List.length_cons, elementsFrom, hfirst, hrest]
    rfl

theorem elements_ofElements (items : List Value) : (ofElements items).elements = .ok items := by
  rw [elements, length_ofElements]
  refine elementsFrom_eq fun k v hk => ?_
  rw [Nat.zero_add]
  exact get?_ofElements hk

/-- There are as many elements as the length says. -/
theorem exists_length_of_elements {o : Object} {items : List Value} (h : o.elements = .ok items) :
    ∃ n, o.length = .ok n ∧ items.length = n.toNat := by
  have hcount : ∀ {i count items}, o.elementsFrom i count = .ok items → items.length = count := by
    intro i count
    induction count generalizing i with
    | zero =>
      intro items h
      cases h
      rfl
    | succ count ih =>
      intro items h
      rw [elementsFrom] at h
      split at h
      · cases h
      · cases hrest : o.elementsFrom (i + 1) count with
        | error cause =>
          rw [hrest] at h
          cases h
        | ok rest =>
          rw [hrest] at h
          cases h
          exact congrArg (· + 1) (ih hrest)
  rw [elements] at h
  cases hn : o.length with
  | error cause =>
    rw [hn] at h
    cases h
  | ok n =>
    rw [hn] at h
    exact ⟨n, rfl, hcount h⟩

/-- What is found in an array under an index is the element there. -/
theorem getElem?_of_get?_ofElements {items : List Value} {j : Nat} {v : Value}
    (h : (ofElements items).get? (indexKey (j : Int)) = some v) : items[j]? = some v := by
  cases hitem : items[j]? with
  | some w =>
    rw [get?_ofElements hitem] at h
    exact h
  | none =>
    have hne : ∀ entry ∈ (lengthKey, Value.int items.length) :: indexEntries 0 items,
        entry.1 ≠ indexKey (j : Int) := by
      intro entry hentry heq
      rcases List.mem_cons.mp hentry with rfl | hentry
      · exact indexKey_ne_lengthKey j heq.symm
      · obtain ⟨i, hi, hkey⟩ := exists_of_mem_indexEntries hentry
        have hsame := indexKey_injective (hkey.symm.trans heq)
        rw [Nat.zero_add] at hsame
        rw [hsame, hitem] at hi
        cases hi
    have hnone : (ofElements items).get? (indexKey (j : Int)) = none :=
      Table.empty.get?_insertAll_of_ne hne
    rw [hnone] at h
    cases h

end Object

end ModuLang
