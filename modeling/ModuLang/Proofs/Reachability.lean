import Mathlib.Logic.Relation
import ModuLang.Heap

/-!
# Reachable objects and their copies

An object reaches the objects that its properties hold, and all that these reach. `Heap.reachFrom`
computes this: what it gives is closed under the references of its objects, and everything in it is
reached from where it started. So the copies that `Heap.copy` makes refer to each other alone: they
stand behind all objects that were there before, and none of these is changed.
-/

namespace ModuLang

theorem Value.address?_eq_some {v : Value} {a : Address} : v.address? = some a ↔ v = .object a := by
  cases v <;> simp [address?]

/-- The references of an object are the objects that its properties hold. -/
theorem Object.mem_references {o : Object} {a : Address} :
    a ∈ o.references ↔ ∃ entry ∈ o.properties.entries, entry.2 = .object a := by
  unfold references
  simp only [List.mem_filterMap, Value.address?_eq_some]

/-- An object whose addresses are changed refers to the changed addresses. -/
theorem Object.exists_of_mem_references_rename {o : Object} {f : Address → Address} {b : Address}
    (hb : b ∈ (o.rename f).references) : ∃ c ∈ o.references, b = f c := by
  obtain ⟨entry, hentry, hvalue⟩ := mem_references.mp hb
  obtain ⟨⟨key, v⟩, hold, rfl⟩ := List.mem_map.mp hentry
  cases v with
  | object c => exact ⟨c, mem_references.mpr ⟨_, hold, rfl⟩, (Value.object.inj hvalue).symm⟩
  | _ => cases hvalue

/-- An object whose addresses are changed refers to all the changed addresses. -/
theorem Object.mem_references_rename {o : Object} {f : Address → Address} {b : Address}
    (hb : b ∈ o.references) : f b ∈ (o.rename f).references := by
  obtain ⟨entry, hentry, hvalue⟩ := mem_references.mp hb
  refine mem_references.mpr ⟨(entry.1, entry.2.rename f), List.mem_map_of_mem hentry, ?_⟩
  rw [hvalue, Value.rename]

namespace Heap

/-- Whether an object holds another one in a property. -/
def RefersTo (h : Heap) (a b : Address) : Prop :=
  b ∈ (h.get a).references

/-- Whether an object can be reached from another one through properties. -/
def Reaches (h : Heap) : Address → Address → Prop :=
  Relation.ReflTransGen h.RefersTo

/-- Whether an object can be reached from one of some values. -/
def LedTo (h : Heap) (vs : List Value) (a : Address) : Prop :=
  ∃ r, .object r ∈ vs ∧ h.Reaches r a

/-! ### What is computed is what is reached -/

/-- An address that is there and not new was visited. -/
theorem mem_visited {h : Heap} {visited : List Address} {a : Address}
    (hold : ¬(visited.contains a = false ∧ a < h.size)) (hlt : a < h.size) : a ∈ visited := by
  cases hc : visited.contains a with
  | false => exact absurd ⟨hc, hlt⟩ hold
  | true => simpa using hc

/-- Nothing that was visited or is pending is lost. -/
theorem mem_reachFrom {h : Heap} {visited pending : List Address} {a : Address}
    (ha : a ∈ visited ∨ a ∈ pending ∧ a < h.size) : a ∈ h.reachFrom visited pending := by
  fun_induction reachFrom h visited pending with
  | case1 visited => simpa using ha
  | case2 visited b rest hnew _ ih =>
    apply ih
    rcases ha with ha | ⟨ha, hlt⟩
    · exact .inl (List.mem_cons_of_mem b ha)
    · rcases List.mem_cons.mp ha with rfl | ha
      · exact .inl List.mem_cons_self
      · exact .inr ⟨List.mem_append_right _ ha, hlt⟩
  | case3 visited b rest hold ih =>
    apply ih
    rcases ha with ha | ⟨ha, hlt⟩
    · exact .inl ha
    · rcases List.mem_cons.mp ha with rfl | ha
      · exact .inl (mem_visited hold hlt)
      · exact .inr ⟨ha, hlt⟩

/-- What is computed is closed under references, if what was visited is but for what is pending. -/
theorem reachFrom_closed {h : Heap} {visited pending : List Address}
    (hinv : ∀ a ∈ visited, ∀ b ∈ (h.get a).references, b < h.size → b ∈ visited ∨ b ∈ pending) :
    ∀ a ∈ h.reachFrom visited pending, ∀ b ∈ (h.get a).references, b < h.size →
      b ∈ h.reachFrom visited pending := by
  fun_induction reachFrom h visited pending with
  | case1 visited =>
    intro a ha b hb hlt
    simpa using hinv a ha b hb hlt
  | case2 visited c rest hnew _ ih =>
    apply ih
    intro a ha b hb hlt
    -- The references of the new address become pending; those of the others were or are visited.
    rcases List.mem_cons.mp ha with rfl | ha
    · exact .inr (List.mem_append_left _ hb)
    · rcases hinv a ha b hb hlt with h | h
      · exact .inl (List.mem_cons_of_mem c h)
      · rcases List.mem_cons.mp h with rfl | h
        · exact .inl List.mem_cons_self
        · exact .inr (List.mem_append_right _ h)
  | case3 visited c rest hold ih =>
    apply ih
    intro a ha b hb hlt
    rcases hinv a ha b hb hlt with h | h
    · exact .inl h
    · rcases List.mem_cons.mp h with rfl | h
      · exact .inl (mem_visited hold hlt)
      · exact .inr h

/-- A property that is closed under references holds of all that is computed, if it holds of where
the computation starts. -/
theorem reachFrom_forall {h : Heap} {P : Address → Prop} {visited pending : List Address}
    (hclosed : ∀ a, P a → ∀ b ∈ (h.get a).references, P b)
    (hvisited : ∀ a ∈ visited, P a ∧ a < h.size) (hpending : ∀ a ∈ pending, P a) :
    ∀ a ∈ h.reachFrom visited pending, P a ∧ a < h.size := by
  fun_induction reachFrom h visited pending with
  | case1 visited => exact hvisited
  | case2 visited c rest hnew _ ih =>
    have hc : P c := hpending c List.mem_cons_self
    refine ih ?_ ?_
    · intro a ha
      rcases List.mem_cons.mp ha with rfl | ha
      · exact ⟨hc, hnew.2⟩
      · exact hvisited a ha
    · intro a ha
      rcases List.mem_append.mp ha with ha | ha
      · exact hclosed c hc a ha
      · exact hpending a (List.mem_cons_of_mem c ha)
  | case3 visited c rest _ ih =>
    exact ih hvisited fun a ha => hpending a (List.mem_cons_of_mem c ha)

variable {h : Heap} {roots : List Address} {a b : Address}

theorem mem_reachable_of_root (ha : a ∈ roots) (hlt : a < h.size) : a ∈ h.reachable roots :=
  List.mem_reverse.mpr (mem_reachFrom (.inr ⟨ha, hlt⟩))

theorem reachable_closed (ha : a ∈ h.reachable roots) (hb : h.RefersTo a b) (hlt : b < h.size) :
    b ∈ h.reachable roots := by
  refine List.mem_reverse.mpr (reachFrom_closed ?_ a (List.mem_reverse.mp ha) b hb hlt)
  intro c hc
  exact absurd hc List.not_mem_nil

/-- What is computed is there, and is reached from one of the roots. -/
theorem reaches_of_mem_reachable (ha : a ∈ h.reachable roots) :
    (∃ r ∈ roots, h.Reaches r a) ∧ a < h.size := by
  refine reachFrom_forall (P := fun a => ∃ r ∈ roots, h.Reaches r a) ?_ ?_ ?_ a
    (List.mem_reverse.mp ha)
  · rintro b ⟨r, hr, hrb⟩ c hc
    exact ⟨r, hr, hrb.tail hc⟩
  · intro b hb
    exact absurd hb List.not_mem_nil
  · intro b hb
    exact ⟨b, hb, .refl⟩

/-! ### Copies -/

@[simp]
theorem size_alloc (h : Heap) (o : Object) : (h.alloc o).2.size = h.size + 1 := by
  simp [alloc, size]

@[simp]
theorem size_set (h : Heap) (a : Address) (o : Object) : (h.set a o).size = h.size := by
  simp [set, size]

/-- Where no object was made, there is one without properties. -/
theorem get_of_size_le (ha : h.size ≤ a) : h.get a = {} := by
  unfold get get?
  rw [Array.getElem?_eq_none ha]
  rfl

theorem get?_alloc_of_lt (o : Object) (ha : a < h.size) : (h.alloc o).2.get? a = h.get? a := by
  unfold alloc get?
  exact Array.getElem?_push_lt ha |>.trans (Array.getElem?_eq_getElem ha).symm

theorem get?_alloc_self (o : Object) : (h.alloc o).2.get? h.size = some o := by
  unfold get? alloc size
  exact Array.getElem?_push_size

theorem get_alloc_self (o : Object) : (h.alloc o).2.get h.size = o := by
  rw [get, get?_alloc_self]
  rfl

theorem get?_set_of_ne (o : Object) (hne : b ≠ a) : (h.set b o).get? a = h.get? a := by
  unfold set get?
  exact Array.getElem?_setIfInBounds_ne hne

theorem get_set_self (o : Object) (ha : a < h.size) : (h.set a o).get a = o := by
  unfold get get? set
  rw [Array.getElem?_setIfInBounds_self_of_lt ha]
  rfl

theorem get_eq_of_get? {h h' : Heap} (heq : h'.get? a = h.get? a) : h'.get a = h.get a := by
  unfold get
  rw [heq]

/-- An object without references reaches itself alone. -/
theorem eq_of_reaches {h : Heap} {a b : Address} (ha : (h.get a).references = [])
    (hab : h.Reaches a b) : b = a := by
  rcases Relation.ReflTransGen.cases_head hab with rfl | ⟨c, hac, -⟩
  · rfl
  · unfold RefersTo at hac
    rw [ha] at hac
    exact absurd hac List.not_mem_nil

/-- Objects are reached in the same way where all that are reached are the same. -/
theorem reaches_iff {h h' : Heap} {a b : Address}
    (heq : ∀ c, h.Reaches a c → h'.get? c = h.get? c) : h'.Reaches a b ↔ h.Reaches a b := by
  have hrefers : ∀ c d, h.Reaches a c → (h'.RefersTo c d ↔ h.RefersTo c d) := by
    intro c d hac
    unfold RefersTo
    rw [get_eq_of_get? (heq c hac)]
  constructor
  · intro hab
    induction hab with
    | refl => exact .refl
    | tail _ hcd ih => exact ih.tail ((hrefers _ _ ih).mp hcd)
  · intro hab
    induction hab with
    | refl => exact .refl
    | tail hac hcd ih => exact ih.tail ((hrefers _ _ hac).mpr hcd)

/-- Where the first objects stay as they are, what reached these alone still does. -/
theorem lt_of_reaches {h h' : Heap} {a c : Address} {n : Nat}
    (hold : ∀ d, d < n → h'.get? d = h.get? d) (hlt : ∀ d, h.Reaches a d → d < n)
    (hac : h'.Reaches a c) : c < n := by
  rw [reaches_iff fun d had => hold d (hlt d had)] at hac
  exact hlt c hac

variable {vs : List Value}

/-- The addresses of the objects that are copied. -/
abbrev copied (h : Heap) (vs : List Value) : List Address :=
  h.reachable (vs.filterMap Value.address?)

/-- The copies come behind all objects that were there. -/
theorem size_copy (h : Heap) (vs : List Value) :
    (h.copy vs).2.size = h.size + (h.copied vs).length := by
  unfold copy allocAll size
  simp

/-- Copying changes no object that was there. -/
theorem get?_copy_of_lt (ha : a < h.size) : (h.copy vs).2.get? a = h.get? a := by
  unfold copy allocAll get?
  exact Array.getElem?_append_left ha

/-- An object that is copied moves behind all objects that were there. -/
theorem moved_of_mem (ha : a ∈ h.copied vs) :
    h.size ≤ (h.copy vs).1 a ∧ (h.copy vs).1 a < (h.copy vs).2.size := by
  rw [size_copy]
  unfold copy copyAddress
  obtain ⟨i, hi⟩ := Option.isSome_iff_exists.mp (List.isSome_idxOf?.mpr ha)
  have hlt : i < (h.copied vs).length := (List.idxOf?_eq_some_iff.mp hi).1
  simp only [hi]
  exact ⟨Nat.le_add_right _ _, Nat.add_lt_add_left hlt _⟩

/-- A copy is an object that is copied, with its references moved. -/
theorem exists_get_copy (hle : h.size ≤ a) (hlt : a < (h.copy vs).2.size) :
    ∃ b ∈ h.copied vs, (h.copy vs).2.get a = (h.get b).rename (h.copy vs).1 := by
  rw [size_copy] at hlt
  have hi : a - h.size < (h.copied vs).length := Nat.sub_lt_left_of_lt_add hle hlt
  refine ⟨(h.copied vs)[a - h.size], List.getElem_mem hi, ?_⟩
  have hget : (h.copy vs).2.get? a =
      some ((h.get (h.copied vs)[a - h.size]).rename (h.copy vs).1) := by
    unfold copy allocAll get?
    simp only
    rw [Array.getElem?_append_right hle, List.getElem?_toArray, List.getElem?_map]
    rw [show h.objects.size = h.size from rfl, List.getElem?_eq_getElem hi]
    rfl
  rw [get, hget]
  rfl

/-- The address that an object moves to. -/
theorem exists_moved_eq (ha : a ∈ h.copied vs) :
    ∃ i, (h.copied vs)[i]? = some a ∧ (h.copy vs).1 a = h.size + i := by
  obtain ⟨i, hi⟩ := Option.isSome_iff_exists.mp (List.isSome_idxOf?.mpr ha)
  obtain ⟨hlt, hget, -⟩ := List.idxOf?_eq_some_iff.mp hi
  refine ⟨i, ?_, ?_⟩
  · rw [List.getElem?_eq_getElem hlt]
    exact congrArg some hget
  · unfold copy copyAddress
    simp only [hi]

/-- Different objects move to different addresses. -/
theorem moved_injective (ha : a ∈ h.copied vs) (hb : b ∈ h.copied vs)
    (heq : (h.copy vs).1 a = (h.copy vs).1 b) : a = b := by
  obtain ⟨i, hi, hai⟩ := exists_moved_eq ha
  obtain ⟨j, hj, hbj⟩ := exists_moved_eq hb
  obtain rfl : i = j := Nat.add_left_cancel (hai.symm.trans (heq.trans hbj))
  exact Option.some.inj (hi.symm.trans hj)

/-- The object at the address that an object moves to is its copy. -/
theorem get_copy_moved (ha : a ∈ h.copied vs) :
    (h.copy vs).2.get ((h.copy vs).1 a) = (h.get a).rename (h.copy vs).1 := by
  obtain ⟨i, hi, hai⟩ := exists_moved_eq ha
  have hget : (h.copy vs).2.get? (h.size + i) = some ((h.get a).rename (h.copy vs).1) := by
    unfold copy allocAll get?
    simp only
    rw [Array.getElem?_append_right (i := h.size + i) (Nat.le_add_right _ _), List.getElem?_toArray,
      List.getElem?_map, show h.size + i - h.objects.size = i from Nat.add_sub_cancel_left _ _, hi]
    rfl
  rw [hai, get, hget]
  rfl

/-- A copy refers to the copies of what its original refers to. -/
theorem exists_of_refersTo_moved (ha : a ∈ h.copied vs)
    (hab : (h.copy vs).2.RefersTo ((h.copy vs).1 a) b) :
    ∃ c, h.RefersTo a c ∧ b = (h.copy vs).1 c := by
  unfold RefersTo at hab
  rw [get_copy_moved ha] at hab
  exact Object.exists_of_mem_references_rename hab

/-- A copy reaches the copies of what its original reaches. -/
theorem exists_of_reaches_moved (hthere : ∀ c, h.Reaches a c → c < h.size) (ha : a ∈ h.copied vs)
    (hab : (h.copy vs).2.Reaches ((h.copy vs).1 a) b) :
    ∃ c ∈ h.copied vs, h.Reaches a c ∧ b = (h.copy vs).1 c := by
  induction hab with
  | refl => exact ⟨a, ha, .refl, rfl⟩
  | tail _ hbd ih =>
    obtain ⟨c, hc, hac, rfl⟩ := ih
    obtain ⟨d, hcd, rfl⟩ := exists_of_refersTo_moved hc hbd
    have had : h.Reaches a d := hac.tail hcd
    exact ⟨d, reachable_closed hc hcd (hthere d had), had, rfl⟩

/-- What an object reaches is copied with it, and its copy reaches the copies. -/
theorem reaches_moved (hthere : ∀ c, h.Reaches a c → c < h.size) (ha : a ∈ h.copied vs)
    (hab : h.Reaches a b) :
    b ∈ h.copied vs ∧ (h.copy vs).2.Reaches ((h.copy vs).1 a) ((h.copy vs).1 b) := by
  induction hab with
  | refl => exact ⟨ha, .refl⟩
  | tail hac hcd ih =>
    obtain ⟨hc, hmoved⟩ := ih
    refine ⟨reachable_closed hc hcd (hthere _ (hac.tail hcd)), hmoved.tail ?_⟩
    unfold RefersTo
    rw [get_copy_moved hc]
    exact Object.mem_references_rename hcd

end Heap

/-- Whether two values reach no common object. -/
def Separate (h : Heap) (v w : Value) : Prop :=
  ∀ a b c, v = .object a → w = .object b → h.Reaches a c → ¬h.Reaches b c

theorem Separate.symm {h : Heap} {v w : Value} (hvw : Separate h v w) : Separate h w v :=
  fun b a c hw hv hb ha => hvw a b c hv hw ha hb

end ModuLang
