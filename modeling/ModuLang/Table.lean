/-!
# Ordered tables

A table maps names to values and remembers the order in which the names first came: giving a name a
new value keeps its place, and a name that was removed and comes again goes last. No name occurs
twice, which is part of the type.
-/

namespace ModuLang

/-- A list of entries without repeated names. -/
structure Table (α : Type) where
  entries : List (String × α)
  nodup : (entries.map Prod.fst).Nodup

namespace Table

variable {α β : Type}

/-- The table without entries. -/
def empty : Table α := ⟨[], by simp⟩

instance : Inhabited (Table α) := ⟨empty⟩

/-- The names, in order. -/
def keys (t : Table α) : List String :=
  t.entries.map Prod.fst

/-- The number of entries. -/
def size (t : Table α) : Nat :=
  t.entries.length

/-- The value of a name. -/
def get? (t : Table α) (key : String) : Option α :=
  t.entries.lookup key

/-- Whether a name has a value. -/
def contains (t : Table α) (key : String) : Bool :=
  (t.get? key).isSome

/-- Puts a value into a list of entries: in the place of the name, or else at the end. -/
def put (key : String) (value : α) : List (String × α) → List (String × α)
  | [] => [(key, value)]
  | (k, v) :: rest => if k = key then (key, value) :: rest else (k, v) :: put key value rest

/-- The names after putting a value. -/
theorem map_fst_put (key : String) (value : α) (entries : List (String × α)) :
    (put key value entries).map Prod.fst =
      if key ∈ entries.map Prod.fst then entries.map Prod.fst
      else entries.map Prod.fst ++ [key] := by
  induction entries with
  | nil => simp [put]
  | cons entry rest ih =>
    obtain ⟨k, v⟩ := entry
    by_cases hk : k = key
    · simp [put, hk]
    · have hk' : ¬key = k := fun h => hk h.symm
      simp only [put, hk, if_false, List.map_cons, ih, List.mem_cons, hk', false_or]
      split <;> simp

/-- Putting a value repeats no name. -/
theorem nodup_put (key : String) (value : α) {entries : List (String × α)}
    (h : (entries.map Prod.fst).Nodup) : ((put key value entries).map Prod.fst).Nodup := by
  rw [map_fst_put]
  split
  · exact h
  · next hnew => exact List.nodup_append.2 ⟨h, by simp, by
      intro a ha b hb
      rw [List.mem_singleton] at hb
      rintro rfl
      exact hnew (hb ▸ ha)⟩

/-- Gives a name a value. -/
def insert (t : Table α) (key : String) (value : α) : Table α :=
  ⟨put key value t.entries, nodup_put key value t.nodup⟩

/-- Keeps some of the entries. -/
def filter (t : Table α) (keep : String × α → Bool) : Table α :=
  ⟨t.entries.filter keep, (List.filter_sublist.map Prod.fst).nodup t.nodup⟩

/-- Removes a name. -/
def erase (t : Table α) (key : String) : Table α :=
  t.filter fun entry => entry.1 != key

/-- Changes every value. -/
def map (f : α → β) (t : Table α) : Table β :=
  ⟨t.entries.map fun entry => (entry.1, f entry.2), by
    simpa [List.map_map, Function.comp_def] using t.nodup⟩

/-- Gives values to names one after the other. -/
def insertAll (t : Table α) (entries : List (String × α)) : Table α :=
  entries.foldl (fun t entry => t.insert entry.1 entry.2) t

/-- The table of a list of names and values; a later value of a name replaces an earlier one. -/
def ofList (entries : List (String × α)) : Table α :=
  empty.insertAll entries

end Table

end ModuLang
