import Mathlib.Data.List.Nodup
import ModuLang.Evaluation
import ModuLang.Proofs.ParserEquations
import ModuLang.Proofs.Reachability
import ModuLang.Proofs.TableLookup

/-!
# Values that are held

An object holds the values of its properties, and an environment those of its bindings. What is said
of all values that one of them holds stays true when values of which it can be said are added, and
when values are taken away. The lengths of arrays, which are integers, and the nulls of missing
arguments come on top. A copy holds the same values but for the addresses, so what is said of values
whatever their addresses is true of copies as well.
-/

namespace ModuLang

/-! ### Tables -/

namespace Table

variable {α : Type} {t : Table α} {key : String} {value : α} {entry : String × α}

theorem mem_put {entries : List (String × α)} (h : entry ∈ put key value entries) :
    entry = (key, value) ∨ entry ∈ entries := by
  induction entries with
  | nil => exact .inl (List.mem_singleton.mp h)
  | cons first rest ih =>
    obtain ⟨k, v⟩ := first
    rw [put] at h
    split at h
    · rcases List.mem_cons.mp h with h | h
      · exact .inl h
      · exact .inr (List.mem_cons_of_mem _ h)
    · rcases List.mem_cons.mp h with h | h
      · exact .inr (h ▸ List.mem_cons_self)
      · rcases ih h with h | h
        · exact .inl h
        · exact .inr (List.mem_cons_of_mem _ h)

theorem mem_insertAll {entries : List (String × α)} (h : entry ∈ (t.insertAll entries).entries) :
    entry ∈ entries ∨ entry ∈ t.entries := by
  unfold insertAll at h
  induction entries generalizing t with
  | nil => exact .inr h
  | cons first rest ih =>
    rcases ih h with h | h
    · exact .inl (List.mem_cons_of_mem _ h)
    · rcases mem_put h with h | h
      · exact .inl (h ▸ List.mem_cons_self)
      · exact .inr h

theorem mem_ofList {entries : List (String × α)} (h : entry ∈ (ofList entries).entries) :
    entry ∈ entries := by
  rcases mem_insertAll h with h | h
  · exact h
  · exact absurd h List.not_mem_nil

theorem mem_of_get? (h : t.get? key = some value) : (key, value) ∈ t.entries := by
  obtain ⟨before, after, heq, -⟩ := List.lookup_eq_some_iff.mp h
  rw [heq]
  simp

/-- What a table holds after a name is given a value: nothing else of that name. -/
theorem mem_insert (h : entry ∈ (t.insert key value).entries) :
    entry = (key, value) ∨ entry.1 ≠ key ∧ entry ∈ t.entries := by
  by_cases hname : entry.1 = key
  · have hself : (key, value) ∈ (t.insert key value).entries :=
      mem_of_get? (by rw [get?_insert, if_pos rfl])
    exact .inl (List.inj_on_of_nodup_map (t.insert key value).nodup h hself hname)
  · rcases mem_put h with rfl | h
    · exact absurd rfl hname
    · exact .inr ⟨hname, h⟩

end Table

/-! ### Objects -/

namespace Object

/-- Whether all values of an object's properties satisfy a condition. -/
def All (P : Value → Prop) (o : Object) : Prop :=
  ∀ entry ∈ o.properties.entries, P entry.2

section

variable {P : Value → Prop} {o o' : Object} {v item : Value} {items : List Value}

theorem all_empty : All P {} :=
  fun _ hentry => absurd hentry List.not_mem_nil

theorem all_ofList {members : List (String × Value)} (hmembers : ∀ member ∈ members, P member.2) :
    All P { properties := Table.ofList members } :=
  fun entry hentry => hmembers entry (Table.mem_ofList hentry)

/-- An object of a document has the method that sets properties, in the place of a member of its
name. -/
theorem all_record {members : List (String × Value)} (hset : P (.native (.json .set)))
    (hmembers : ∀ member ∈ members, member.1 ≠ "set" → P member.2) : All P (Json.record members) := by
  intro entry hentry
  rcases Table.mem_insert hentry with rfl | ⟨hname, h⟩
  · exact hset
  · exact hmembers entry (Table.mem_ofList h) hname

theorem All.get? {key : String} (ho : o.All P) (h : o.get? key = some v) : P v :=
  ho (key, v) (Table.mem_of_get? h)

theorem All.set {key : String} (ho : o.All P) (hv : P v) : (o.set key v).All P := by
  intro entry hentry
  rcases Table.mem_put hentry with rfl | h
  · exact hv
  · exact ho entry h

theorem All.erase {key : String} (ho : o.All P) : (o.erase key).All P :=
  fun entry hentry => ho entry (List.mem_filter.mp hentry).1

theorem All.eraseIndices (ho : o.All P) (count : Nat) : (o.eraseIndices count).All P := by
  unfold Object.eraseIndices
  generalize List.range count = indices
  induction indices generalizing o with
  | nil => exact ho
  | cons i rest ih => exact ih ho.erase

theorem forall_indexEntries (hitems : ∀ v ∈ items, P v) (i : Nat) :
    ∀ entry ∈ indexEntries i items, P entry.2 := by
  induction items generalizing i with
  | nil => exact fun entry hentry => absurd hentry List.not_mem_nil
  | cons item rest ih =>
    intro entry hentry
    rcases List.mem_cons.mp hentry with rfl | hentry
    · exact hitems item List.mem_cons_self
    · exact ih (fun v hv => hitems v (List.mem_cons_of_mem _ hv)) (i + 1) entry hentry

theorem All.elementsFrom (ho : o.All P) (i count : Nat) (h : o.elementsFrom i count = .ok items) :
    ∀ v ∈ items, P v := by
  induction count generalizing i items with
  | zero =>
    cases h
    exact fun v hv => absurd hv List.not_mem_nil
  | succ count ih =>
    rw [Object.elementsFrom] at h
    split at h
    · cases h
    · next value hvalue =>
      rw [Source.bind_eq_ok] at h
      obtain ⟨rest, hrest, h⟩ := h
      cases h
      intro v hv
      rcases List.mem_cons.mp hv with rfl | hv
      · exact ho.get? hvalue
      · exact ih (i + 1) hrest v hv

theorem All.elements (ho : o.All P) (h : o.elements = .ok items) : ∀ v ∈ items, P v := by
  rw [Object.elements, Source.bind_eq_ok] at h
  obtain ⟨_, -, h⟩ := h
  exact ho.elementsFrom 0 _ h

/-! An array has its length besides its elements, and that has to satisfy the condition as well. -/

theorem all_ofElements (hlength : P (.int items.length)) (hitems : ∀ v ∈ items, P v) :
    (ofElements items).All P := by
  intro entry hentry
  rcases List.mem_cons.mp (Table.mem_ofList hentry) with rfl | h
  · exact hlength
  · exact forall_indexEntries hitems 0 entry h

theorem All.reindex (ho : o.All P) (count : Nat) (hlength : P (.int items.length))
    (hitems : ∀ v ∈ items, P v) : (o.reindex count items).All P := by
  refine All.set ?_ hlength
  intro entry hentry
  rcases Table.mem_insertAll hentry with h | h
  · exact forall_indexEntries hitems 0 entry h
  · exact ho.eraseIndices count entry h

/-- What a push leaves: the item under the number that was the length, and the length one more. -/
theorem exists_of_push (h : o.push item = .ok o') :
    ∃ n, o.length = .ok n ∧ o' = (o.set (indexKey n) item).set lengthKey (.int (n + 1)) := by
  rw [Object.push, Source.bind_eq_ok] at h
  obtain ⟨n, hn, h⟩ := h
  obtain ⟨key, hkey, h⟩ := Source.bind_eq_ok.mp h
  obtain ⟨-, rfl⟩ := Number.writeInteger_eq_ok_iff.mp hkey
  cases h
  exact ⟨n, hn, rfl⟩

/-- What a pop takes and leaves: the item under the number below the length, and the rest. -/
theorem exists_of_pop (h : o.pop = .ok (v, o')) :
    ∃ n, o.length = .ok n ∧ 1 ≤ n ∧ o.get? (indexKey (n - 1)) = some v ∧
      o' = (o.erase (indexKey (n - 1))).set lengthKey (.int (n - 1)) := by
  rw [Object.pop, Source.bind_eq_ok] at h
  obtain ⟨n, hn, h⟩ := h
  split at h
  · cases h
  · next hpos =>
    obtain ⟨key, hkey, h⟩ := Source.bind_eq_ok.mp h
    obtain ⟨-, rfl⟩ := Number.writeInteger_eq_ok_iff.mp hkey
    split at h
    · cases h
    · next last hlast =>
      cases h
      exact ⟨n, hn, Int.not_lt.mp hpos, hlast, rfl⟩

theorem All.push (ho : o.All P) (hitem : P item) (hlength : ∀ n, o.length = .ok n → P (.int (n + 1)))
    (h : o.push item = .ok o') : o'.All P := by
  obtain ⟨n, hn, rfl⟩ := exists_of_push h
  exact (ho.set hitem).set (hlength n hn)

theorem All.unshift (ho : o.All P) (hitem : P item)
    (hlength : ∀ items, o.elements = .ok items → P (.int (items.length + 1)))
    (h : o.unshift item = .ok o') : o'.All P := by
  rw [Object.unshift, Source.bind_eq_ok] at h
  obtain ⟨items, hitems, h⟩ := h
  cases h
  refine ho.reindex _ (hlength items hitems) fun v hv => ?_
  rcases List.mem_cons.mp hv with rfl | hv
  · exact hitem
  · exact ho.elements hitems v hv

/-- What is taken from an array satisfies the condition, and so does what is left. -/
theorem All.pop (ho : o.All P) (hlength : ∀ n, o.length = .ok n → 1 ≤ n → P (.int (n - 1)))
    (h : o.pop = .ok (v, o')) : P v ∧ o'.All P := by
  obtain ⟨n, hn, hpos, hlast, rfl⟩ := exists_of_pop h
  exact ⟨ho.get? hlast, ho.erase.set (hlength n hn hpos)⟩

theorem All.shift (ho : o.All P)
    (hlength : ∀ first rest, o.elements = .ok (first :: rest) → P (.int rest.length))
    (h : o.shift = .ok (v, o')) : P v ∧ o'.All P := by
  rw [Object.shift, Source.bind_eq_ok] at h
  obtain ⟨items, hitems, h⟩ := h
  have hall := ho.elements hitems
  cases items with
  | nil => cases h
  | cons first rest =>
    cases h
    exact ⟨hall _ List.mem_cons_self,
      ho.reindex _ (hlength _ rest hitems) fun w hw => hall w (List.mem_cons_of_mem _ hw)⟩

end

end Object

/-! ### Environments -/

namespace Environment

/-- Whether all bindings of an environment satisfy a condition. -/
def AllBindings (P : String → Value → Prop) (e : Environment) : Prop :=
  ∀ binding ∈ e.vars.entries, P binding.1 binding.2

/-- Whether all values of an environment's bindings satisfy a condition. -/
def All (P : Value → Prop) (e : Environment) : Prop :=
  ∀ binding ∈ e.vars.entries, P binding.2

section Bindings

variable {P : String → Value → Prop} {e : Environment} {name : String} {v : Value}

theorem allBindings_empty : AllBindings P {} :=
  fun _ hbinding => absurd hbinding List.not_mem_nil

theorem AllBindings.get? (he : e.AllBindings P) (h : e.get? name = some v) : P name v :=
  he (name, v) (Table.mem_of_get? h)

theorem AllBindings.define (he : e.AllBindings P) (hv : P name v) :
    (e.define name v).AllBindings P := by
  intro binding hbinding
  rcases Table.mem_put hbinding with rfl | h
  · exact hv
  · exact he binding h

theorem AllBindings.update {bindings : List (String × Value)} (he : e.AllBindings P)
    (hbindings : ∀ b ∈ bindings, P b.1 b.2) : (e.update bindings).AllBindings P := by
  unfold Environment.update
  induction bindings generalizing e with
  | nil => exact he
  | cons b rest ih =>
    exact ih (he.define (hbindings b List.mem_cons_self)) fun b hb =>
      hbindings b (List.mem_cons_of_mem _ hb)

theorem AllBindings.boundSinceCreation (he : e.AllBindings P) :
    ∀ b ∈ e.boundSinceCreation, P b.1 b.2 := by
  intro b hb
  obtain ⟨name, -, hname⟩ := List.mem_filterMap.mp hb
  obtain ⟨v, hv, rfl⟩ := Option.map_eq_some_iff.mp hname
  exact he.get? hv

theorem AllBindings.bindParameters (names : List String) {values : List Value}
    (he : e.AllBindings P) (hnames : ∀ x ∈ names, ∀ v, v = .null ∨ v ∈ values → P x v) :
    (bindParameters e names values).AllBindings P := by
  induction names generalizing e values with
  | nil =>
    rw [ModuLang.bindParameters]
    exact he
  | cons name names ih =>
    have hfirst := hnames name List.mem_cons_self
    cases values with
    | nil =>
      rw [ModuLang.bindParameters]
      exact ih (he.define (hfirst .null (.inl rfl))) fun x hx =>
        hnames x (List.mem_cons_of_mem _ hx)
    | cons value values =>
      rw [ModuLang.bindParameters]
      refine ih (he.define (hfirst value (.inr List.mem_cons_self))) fun x hx v hv => ?_
      exact hnames x (List.mem_cons_of_mem _ hx) v (hv.imp_right (List.mem_cons_of_mem _))

end Bindings

variable {P : Value → Prop} {e : Environment} {name : String} {v : Value}

theorem All.get? (he : e.All P) (h : e.get? name = some v) : P v :=
  he (name, v) (Table.mem_of_get? h)

theorem All.lookup (hnull : P .null) (he : e.All P) (name : String) : P (e.lookup name) := by
  unfold Environment.lookup
  cases h : e.get? name with
  | none => exact hnull
  | some v => exact he.get? h

theorem All.define (he : e.All P) (hv : P v) : (e.define name v).All P :=
  AllBindings.define (P := fun _ => P) he hv

theorem All.update {bindings : List (String × Value)} (he : e.All P)
    (hbindings : ∀ b ∈ bindings, P b.2) : (e.update bindings).All P :=
  AllBindings.update (P := fun _ => P) he hbindings

theorem All.boundSinceCreation (he : e.All P) : ∀ b ∈ e.boundSinceCreation, P b.2 :=
  AllBindings.boundSinceCreation (P := fun _ => P) he

theorem All.bindParameters (hnull : P .null) (names : List String) {values : List Value}
    (he : e.All P) (hvalues : ∀ v ∈ values, P v) : (bindParameters e names values).All P := by
  refine AllBindings.bindParameters (P := fun _ => P) names he fun x _ v hv => ?_
  rcases hv with rfl | hv
  · exact hnull
  · exact hvalues v hv

end Environment

/-! ### Heaps and copies -/

namespace Heap

/-- Whether all values that the objects of a heap hold satisfy a condition. -/
def All (P : Value → Prop) (h : Heap) : Prop :=
  ∀ a, (h.get a).All P

variable {P : Value → Prop} {h : Heap} {o : Object} {v : Value}

theorem all_empty : All P {} := by
  intro a
  rw [get_of_size_le (Nat.zero_le a)]
  exact Object.all_empty

theorem All.alloc (hh : h.All P) (ho : o.All P) : (h.alloc o).2.All P := by
  intro a
  rcases Nat.lt_trichotomy a h.size with ha | rfl | ha
  · rw [get_eq_of_get? (get?_alloc_of_lt o ha)]
    exact hh a
  · rw [get_alloc_self]
    exact ho
  · rw [get_of_size_le (by rw [size_alloc]; exact ha)]
    exact Object.all_empty

theorem All.set {a : Address} (hh : h.All P) (ho : o.All P) : (h.set a o).All P := by
  intro b
  by_cases hb : a = b
  · subst hb
    by_cases ha : a < h.size
    · rw [get_set_self o ha]
      exact ho
    · rw [get_of_size_le (by rw [size_set]; exact Nat.le_of_not_lt ha)]
      exact Object.all_empty
  · rw [get_eq_of_get? (get?_set_of_ne o hb)]
    exact hh b

variable (hrename : ∀ f v, P v → P (v.rename f))

include hrename

theorem All.copy (hh : h.All P) (vs : List Value) : (h.copy vs).2.All P := by
  intro a
  by_cases hold : a < h.size
  · rw [get_eq_of_get? (get?_copy_of_lt hold)]
    exact hh a
  · by_cases hnew : a < (h.copy vs).2.size
    · obtain ⟨b, -, hget⟩ := exists_get_copy (Nat.le_of_not_lt hold) hnew
      rw [hget]
      intro entry hentry
      obtain ⟨old, hold, rfl⟩ := List.mem_map.mp hentry
      exact hrename _ _ (hh b old hold)
    · rw [get_of_size_le (Nat.le_of_not_lt hnew)]
      exact Object.all_empty

theorem All.copyValue (hh : h.All P) (hv : P v) :
    P (h.copyValue v).1 ∧ (h.copyValue v).2.All P := by
  cases v with
  | object a => exact ⟨hrename _ _ hv, hh.copy hrename _⟩
  | _ => exact ⟨hv, hh⟩

theorem All.clone {N : String → Prop} {e : Environment} (hh : h.All P)
    (he : e.AllBindings fun x v => N x ∧ P v) :
    ((e.clone h).1.AllBindings fun x v => N x ∧ P v) ∧ (e.clone h).2.All P := by
  refine ⟨fun binding hbinding => ?_, hh.copy hrename _⟩
  obtain ⟨old, hold, rfl⟩ := List.mem_map.mp hbinding
  obtain ⟨hname, hvalue⟩ := he old hold
  exact ⟨hname, hrename _ _ hvalue⟩

end Heap

end ModuLang
