import ModuLang.Proofs.ArrayLists
import ModuLang.Proofs.Rendering

/-!
# Copies that are faithful and disjoint

A clone of an environment copies all objects that its names lead to at once, and the copy of a value
all that the value leads to. Each of these objects has one copy, whose properties hold the copies of
what the original holds. So the copies form the same graph: what is shared among the originals is
shared among the copies, across the names too, and a cycle is copied to a cycle. Values that lead to
the same graph are shown in the same way, since the objects that stand around a place move along with
those that are met there.

All copies lie behind the objects that were there, and these do not change. So no object belongs to
both sides. A change reaches the objects of its own side and those that are made later, so whatever
happens on one side, however long, leaves every object of the other side as it is.
-/

namespace ModuLang

/-! ### Isomorphic values -/

/-- Whether an object repeats another one with all objects that it holds moved: it is marked in the same
way, and it has the same names in the same order, with the same values but for the moved objects. -/
structure Object.Mirrors (f : Address → Address) (o o' : Object) : Prop where
  isArray : o'.isArray = o.isArray
  methods : o'.methods = o.methods
  entries : o'.properties.entries = o.properties.entries.map fun entry => (entry.1, entry.2.rename f)

/-- Whether values of a second heap lead to the same graph of objects as values of a first one, with the
objects moved: every object has one place, different objects have different ones, and there are no
others. So what was shared is shared, and what was a cycle is a cycle. -/
structure Heap.Isomorphic (h h' : Heap) (f : Address → Address) (vs ws : List Value) : Prop where
  values : ws = vs.map (Value.rename f)
  injective : ∀ a b, h.LedTo vs a → h.LedTo vs b → f a = f b → a = b
  onto : ∀ b, h'.LedTo ws b ↔ ∃ a, h.LedTo vs a ∧ f a = b
  objects : ∀ a, h.LedTo vs a → (h.get a).Mirrors f (h'.get (f a))

section Mirrors

variable {f : Address → Address} {o o' : Object}

theorem Object.Mirrors.get? (ho : o.Mirrors f o') (key : String) :
    o'.get? key = (o.get? key).map (Value.rename f) := by
  have hproperties : o'.properties = o.properties.map (Value.rename f) := Table.eq_of_entries ho.entries
  unfold Object.get?
  rw [hproperties, Table.get?_map]

theorem Object.Mirrors.length (ho : o.Mirrors f o') : o'.length = o.length := by
  unfold Object.length
  rw [ho.get?]
  cases o.get? Object.lengthKey with
  | none => rfl
  | some v => cases v <;> rfl

theorem Object.Mirrors.elementsFrom (ho : o.Mirrors f o') (i count : Nat) :
    o'.elementsFrom i count = (o.elementsFrom i count).map (List.map (Value.rename f)) := by
  induction count generalizing i with
  | zero => rfl
  | succ count ih =>
    rw [Object.elementsFrom, Object.elementsFrom, ho.get?, ih]
    cases o.get? (Object.indexKey i) with
    | none => rfl
    | some v =>
      simp only [Option.map_some]
      cases o.elementsFrom (i + 1) count <;> rfl

/-- The elements of an object that repeats another one are moved. -/
theorem Object.Mirrors.elements (ho : o.Mirrors f o') :
    o'.elements = o.elements.map (List.map (Value.rename f)) := by
  unfold Object.elements
  rw [ho.length]
  cases o.length with
  | error cause => rfl
  | ok n => exact ho.elementsFrom 0 n.toNat

theorem Object.Mirrors.plainEntries (ho : o.Mirrors f o') :
    o'.plainEntries = o.plainEntries.map fun entry => (entry.1, entry.2.rename f) := by
  unfold Object.plainEntries
  rw [ho.entries, ho.methods, List.filter_map]
  rfl

/-- Where each property is made the same of, the same is made of the elements. -/
theorem Object.Mirrors.bind_elements {α : Type} {F F' : Value → Except Cause String}
    (ho : o.Mirrors f o')
    (hF : ∀ entry ∈ o.properties.entries, F' (entry.2.rename f) = F entry.2)
    (next : List String → Except Cause α) :
    (o'.elements >>= fun items => items.mapM F' >>= next) =
      o.elements >>= fun items => items.mapM F >>= next := by
  rw [ho.elements]
  cases hitems : o.elements with
  | error cause => rfl
  | ok items =>
    have hheld : o.All fun v => F' (v.rename f) = F v := hF
    have hall : (items.map (Value.rename f)).mapM F' = items.mapM F :=
      mapM_congr_map (hheld.elements hitems)
    exact congrArg (· >>= next) hall

end Mirrors

section

variable {h h' : Heap} {f : Address → Address} {vs ws : List Value} {a b : Address} {v : Value}

/-- What is led to leads on. -/
theorem Heap.LedTo.entry {entry : String × Value} (ha : h.LedTo vs a)
    (hentry : entry ∈ (h.get a).properties.entries) (hb : entry.2 = .object b) : h.LedTo vs b := by
  obtain ⟨r, hr, hra⟩ := ha
  exact ⟨r, hr, hra.tail (Object.mem_references.mpr ⟨entry, hentry, hb⟩)⟩

/-- An object moves among the moved objects only if it was among them. -/
theorem Heap.Isomorphic.mem_map_iff (hiso : h.Isomorphic h' f vs ws) {above : List Address}
    (habove : ∀ a ∈ above, h.LedTo vs a) (ha : h.LedTo vs a) : f a ∈ above.map f ↔ a ∈ above := by
  refine ⟨fun hfa => ?_, List.mem_map_of_mem⟩
  obtain ⟨b, hb, heq⟩ := List.mem_map.mp hfa
  exact hiso.injective b a (habove b hb) ha heq ▸ hb

/-- Values that lead to the same graph are shown in the same way, wherever they occur. -/
theorem Heap.Isomorphic.showNested (hiso : h.Isomorphic h' f vs ws)
    (hthere : ∀ a, h.LedTo vs a → a < h.size) (hthere' : ∀ b, h'.LedTo ws b → b < h'.size)
    {above : List Address} (habove : ∀ a ∈ above, h.LedTo vs a)
    (hv : ∀ a, v = .object a → h.LedTo vs a) :
    h'.showNested (above.map f) (v.rename f) = h.showNested above v := by
  -- The number of objects that are not above gets smaller on the way down. What stands around a
  -- place is led to as well, so that dots stand for an object exactly if they stand for its copy.
  induction hn : h.unvisited above using Nat.strong_induction_on generalizing above v with
  | _ n ih =>
    cases v with
    | object a =>
      have ha := hv a rfl
      have ho := hiso.objects a ha
      have hplace : f a < h'.size := hthere' _ ((hiso.onto _).mpr ⟨a, ha, rfl⟩)
      have hnew : ((above.map f).contains (f a) = false ∧ f a < h'.size) ↔
          (above.contains a = false ∧ a < h.size) := by
        simp [hiso.mem_map_iff habove ha, hplace, hthere a ha]
      rw [Value.rename, Heap.showNested, Heap.showNested]
      by_cases hcases : above.contains a = false ∧ a < h.size
      · have hlt : h.unvisited (a :: above) < n := hn ▸ h.unvisited_cons_lt hcases.1 hcases.2
        have hshown : ∀ entry ∈ (h.get a).properties.entries,
            h'.showNested (f a :: above.map f) (entry.2.rename f) =
              h.showNested (a :: above) entry.2 := by
          intro entry hentry
          have hled : ∀ b ∈ a :: above, h.LedTo vs b := List.forall_mem_cons.mpr ⟨ha, habove⟩
          exact ih _ hlt hled (fun b hb => ha.entry hentry hb) rfl
        simp only [dif_pos hcases, dif_pos (hnew.mpr hcases), ho.isArray, ho.plainEntries]
        split
        · exact ho.bind_elements hshown _
        · rw [mapM_congr_map]
          intro entry hentry
          rw [hshown entry (List.mem_filter.mp hentry).1]
      · simp only [dif_neg hcases, dif_neg (mt hnew.mp hcases), ho.isArray]
    | _ =>
      rw [Value.rename]
      · rw [Heap.showNested, Heap.showNested]
      · exact fun a heq => by cases heq

theorem Heap.Isomorphic.display (hiso : h.Isomorphic h' f vs ws)
    (hthere : ∀ a, h.LedTo vs a → a < h.size) (hthere' : ∀ b, h'.LedTo ws b → b < h'.size) :
    ws.map h'.display = vs.map h.display := by
  rw [hiso.values, List.map_map]
  refine List.map_congr_left fun v hv => ?_
  have hnone : ∀ a ∈ ([] : List Address), h.LedTo vs a := fun a ha => absurd ha List.not_mem_nil
  have hnested : h'.showNested [] (v.rename f) = h.showNested [] v :=
    hiso.showNested hthere hthere' hnone fun a ha => ⟨a, ha ▸ hv, .refl⟩
  cases v with
  | str s => rfl
  | _ => exact hnested

/-! ### Copies -/

/-- What is copied is what the values lead to. -/
theorem Heap.mem_copied_iff (hthere : ∀ a, h.LedTo vs a → a < h.size) :
    a ∈ h.copied vs ↔ h.LedTo vs a := by
  have hroot : ∀ {r}, r ∈ vs.filterMap Value.address? ↔ .object r ∈ vs := by
    simp [List.mem_filterMap, Value.address?_eq_some]
  constructor
  · intro ha
    obtain ⟨⟨r, hr, hra⟩, -⟩ := Heap.reaches_of_mem_reachable ha
    exact ⟨r, hroot.mp hr, hra⟩
  · rintro ⟨r, hr, hra⟩
    induction hra with
    | refl => exact Heap.mem_reachable_of_root (hroot.mpr hr) (hthere r ⟨r, hr, .refl⟩)
    | tail hrb hbc ih => exact Heap.reachable_closed ih hbc (hthere _ ⟨r, hr, hrb.tail hbc⟩)

/-- The copies of values lead to the copies of what these lead to. -/
theorem Heap.ledTo_copy_iff (hthere : ∀ a, h.LedTo vs a → a < h.size) :
    (h.copy vs).2.LedTo (vs.map (Value.rename (h.copy vs).1)) b ↔
      ∃ a, h.LedTo vs a ∧ (h.copy vs).1 a = b := by
  have hcopied : ∀ {r}, .object r ∈ vs → r ∈ h.copied vs := fun {r} hr =>
    (Heap.mem_copied_iff hthere).mpr ⟨r, hr, .refl⟩
  constructor
  · rintro ⟨r, hr, hrb⟩
    obtain ⟨v, hv, hvalue⟩ := List.mem_map.mp hr
    cases v with
    | object a =>
      obtain rfl : (h.copy vs).1 a = r := Value.object.inj hvalue
      obtain ⟨c, -, hac, rfl⟩ :=
        Heap.exists_of_reaches_moved (fun c hac => hthere c ⟨a, hv, hac⟩) (hcopied hv) hrb
      exact ⟨c, ⟨a, hv, hac⟩, rfl⟩
    | _ => cases hvalue
  · rintro ⟨a, ⟨r, hr, hra⟩, rfl⟩
    obtain ⟨-, hmoved⟩ := Heap.reaches_moved (fun c hrc => hthere c ⟨r, hr, hrc⟩) (hcopied hr) hra
    exact ⟨(h.copy vs).1 r, List.mem_map.mpr ⟨_, hr, rfl⟩, hmoved⟩

/-- What is copied and the copies form the same graph. -/
theorem Heap.isomorphic_copy (hthere : ∀ a, h.LedTo vs a → a < h.size) :
    h.Isomorphic (h.copy vs).2 (h.copy vs).1 vs (vs.map (Value.rename (h.copy vs).1)) where
  values := rfl
  injective a b ha hb heq := Heap.moved_injective ((Heap.mem_copied_iff hthere).mpr ha)
    ((Heap.mem_copied_iff hthere).mpr hb) heq
  onto b := Heap.ledTo_copy_iff hthere
  objects a ha := by
    rw [Heap.get_copy_moved ((Heap.mem_copied_iff hthere).mpr ha)]
    exact ⟨rfl, rfl, rfl⟩

/-! ### Later changes -/

/-- One change by someone who may write on some objects: an object is made, or one of them is given
another content, whatever it is. -/
inductive Heap.Change (mine : Address → Prop) (h : Heap) : Heap → Prop where
  | make (o : Object) : Change mine h (h.alloc o).2
  | write {a : Address} (o : Object) : mine a → Change mine h (h.set a o)

/-- What someone may do who has some objects of a heap: change these and the objects that are made from
then on, in any way and as often as they like. -/
def Heap.Changes (h : Heap) (mine : Address → Prop) : Heap → Prop :=
  Relation.ReflTransGen (Heap.Change fun a => mine a ∨ h.size ≤ a) h

/-- A change leaves every other object that is there as it is. -/
theorem Heap.Change.get?_eq {mine : Address → Prop} (hstep : h.Change mine h') (ha : a < h.size)
    (hother : ¬mine a) : h'.get? a = h.get? a := by
  cases hstep with
  | make o => exact Heap.get?_alloc_of_lt o ha
  | @write b o hb => exact Heap.get?_set_of_ne o fun heq => hother (heq ▸ hb)

theorem Heap.Change.size_le {mine : Address → Prop} (hstep : h.Change mine h') : h.size ≤ h'.size := by
  cases hstep with
  | make o => simp
  | write o _ => simp

/-- However often someone changes what is theirs, all else stays as it is. -/
theorem Heap.Changes.kept {mine : Address → Prop} (hrun : h.Changes mine h') :
    h.size ≤ h'.size ∧ ∀ a, a < h.size → ¬mine a → h'.get? a = h.get? a := by
  induction hrun with
  | refl => exact ⟨Nat.le_refl _, fun _ _ _ => rfl⟩
  | tail _ hstep ih =>
    obtain ⟨hsize, hkept⟩ := ih
    refine ⟨Nat.le_trans hsize hstep.size_le, fun a ha hother => ?_⟩
    have hnot : ¬(mine a ∨ h.size ≤ a) := by
      rintro (hmine | hle)
      · exact hother hmine
      · exact Nat.not_lt.mpr hle ha
    exact (hstep.get?_eq (Nat.lt_of_lt_of_le ha hsize) hnot).trans (hkept a ha hother)

/-- Whether nothing can be seen from some values of what happened between two heaps: they lead to the
same objects, these are as they were, and the values are shown in the same way. -/
structure Heap.SameFrom (h h' : Heap) (vs : List Value) : Prop where
  ledTo : ∀ a, h'.LedTo vs a ↔ h.LedTo vs a
  objects : ∀ a, h.LedTo vs a → h'.get? a = h.get? a
  shown : vs.map h'.display = vs.map h.display

theorem Value.rename_id (v : Value) : v.rename id = v := by
  cases v <;> rfl

/-- Where all objects that are led to stay as they are, the values lead to the same ones. -/
theorem Heap.ledTo_iff (hsame : ∀ a, h.LedTo vs a → h'.get? a = h.get? a) :
    h'.LedTo vs a ↔ h.LedTo vs a := by
  unfold Heap.LedTo
  refine exists_congr fun r => and_congr_right fun hr => ?_
  exact Heap.reaches_iff fun c hc => hsame c ⟨r, hr, hc⟩

/-- Where all objects that are led to stay as they are, nothing can be seen of a change. -/
theorem Heap.sameFrom_of_get? (hthere : ∀ a, h.LedTo vs a → a < h.size) (hsize : h.size ≤ h'.size)
    (hsame : ∀ a, h.LedTo vs a → h'.get? a = h.get? a) : h.SameFrom h' vs := by
  have hledTo : ∀ a, h'.LedTo vs a ↔ h.LedTo vs a := fun a => Heap.ledTo_iff hsame
  -- No object moves, so that the graph is the same, and so is what is shown of it.
  have hiso : h.Isomorphic h' id vs vs :=
    { values := ((List.map_congr_left fun v _ => v.rename_id).trans (List.map_id vs)).symm
      injective := fun _ _ _ _ heq => heq
      onto := fun b => by simp [hledTo]
      objects := fun a ha => by
        rw [id, Heap.get_eq_of_get? (hsame a ha)]
        exact ⟨rfl, rfl, by simp [Value.rename_id]⟩ }
  refine ⟨hledTo, hsame, hiso.display hthere fun b hb => ?_⟩
  exact Nat.lt_of_lt_of_le (hthere b ((hledTo b).mp hb)) hsize

/-! ### Faithful and disjoint copies -/

/-- Whether values of a second heap are faithful and independent copies of values of a first one. They
lead to the same graph, made of new objects alone, while all objects that were there stay as they are;
they are shown in the same way; and whatever is done later to what one side leads to, nothing of it can be
seen from the other side. -/
structure Heap.CopiedTo (h : Heap) (vs : List Value) (h' : Heap) (ws : List Value) : Prop where
  isomorphic : ∃ f, h.Isomorphic h' f vs ws
  new : ∀ b, h'.LedTo ws b → h.size ≤ b ∧ b < h'.size
  kept : ∀ a, a < h.size → h'.get? a = h.get? a
  shown : ws.map h'.display = vs.map h.display
  copiesApart : ∀ h'', h'.Changes (h'.LedTo vs) h'' → h'.SameFrom h'' ws
  originalsApart : ∀ h'', h'.Changes (h'.LedTo ws) h'' → h'.SameFrom h'' vs

/-- The copy of values, all of them at once, is faithful and independent. -/
theorem Heap.copiedTo_copy (hthere : ∀ a, h.LedTo vs a → a < h.size) :
    h.CopiedTo vs (h.copy vs).2 (vs.map (Value.rename (h.copy vs).1)) := by
  have hiso := Heap.isomorphic_copy hthere
  have hkept : ∀ a, a < h.size → (h.copy vs).2.get? a = h.get? a := fun a => Heap.get?_copy_of_lt
  have hnew : ∀ b, (h.copy vs).2.LedTo (vs.map (Value.rename (h.copy vs).1)) b →
      h.size ≤ b ∧ b < (h.copy vs).2.size := by
    intro b hb
    obtain ⟨a, ha, rfl⟩ := (hiso.onto b).mp hb
    exact Heap.moved_of_mem ((Heap.mem_copied_iff hthere).mpr ha)
  have hsize : h.size ≤ (h.copy vs).2.size := by
    rw [Heap.size_copy]
    exact Nat.le_add_right _ _
  have hold : ∀ {a}, (h.copy vs).2.LedTo vs a ↔ h.LedTo vs a :=
    Heap.ledTo_iff fun a ha => hkept a (hthere a ha)
  -- The originals are below the size of the heap that was there, and the copies are not.
  have hdisjoint : ∀ a, (h.copy vs).2.LedTo vs a →
      ¬(h.copy vs).2.LedTo (vs.map (Value.rename (h.copy vs).1)) a := fun a ha hcopy =>
    Nat.not_lt.mpr (hnew a hcopy).1 (hthere a (hold.mp ha))
  refine ⟨⟨_, hiso⟩, hnew, hkept, hiso.display hthere fun b hb => (hnew b hb).2,
    fun h'' hrun => ?_, fun h'' hrun => ?_⟩
  · exact Heap.sameFrom_of_get? (fun b hb => (hnew b hb).2) hrun.kept.1 fun b hb =>
      hrun.kept.2 b (hnew b hb).2 fun ha => hdisjoint b ha hb
  · have hlt : ∀ a, (h.copy vs).2.LedTo vs a → a < (h.copy vs).2.size := fun a ha =>
      Nat.lt_of_lt_of_le (hthere a (hold.mp ha)) hsize
    exact Heap.sameFrom_of_get? hlt hrun.kept.1 fun a ha => hrun.kept.2 a (hlt a ha) (hdisjoint a ha)

/-- Copying a value is copying all that it leads to; for a value that is no object, this is nothing. -/
theorem Heap.copyValue_eq (h : Heap) (v : Value) :
    h.copyValue v = (v.rename (h.copy [v]).1, (h.copy [v]).2) := by
  by_cases hplain : ∀ a, v ≠ .object a
  · -- Nothing is copied, so the heap stays as it is.
    have hnone : h.copied [v] = [] := by
      have haddress : [v].filterMap Value.address? = [] := by
        rw [List.filterMap_eq_nil_iff]
        intro w hw
        rw [List.mem_singleton.mp hw, Option.eq_none_iff_forall_ne_some]
        exact fun a ha => hplain a (Value.address?_eq_some.mp ha)
      rw [Heap.copied, haddress, Heap.reachable, Heap.reachFrom, List.reverse_nil]
    have hheap : (h.copy [v]).2 = h := by
      change h.allocAll ((h.copied [v]).map _) = h
      rw [hnone]
      simp [Heap.allocAll]
    rw [hheap]
    cases v with
    | object a => exact absurd rfl (hplain a)
    | _ => rfl
  · obtain ⟨a, rfl⟩ : ∃ a, v = .object a := by simpa using hplain
    rfl

end

/-- The values of an environment. -/
def Environment.values (env : Environment) : List Value :=
  env.vars.entries.map Prod.snd

/-- A copy of a value is faithful and independent, and so is a clone of an environment, which copies the
values of all its names in one go. The clone has the same names in the same order, and none of them
counts as bound since it was made. -/
theorem copies_faithful_and_disjoint {h : Heap} :
    (∀ v : Value, (∀ a, h.LedTo [v] a → a < h.size) →
      h.CopiedTo [v] (h.copyValue v).2 [(h.copyValue v).1]) ∧
    ∀ env : Environment, (∀ a, h.LedTo env.values a → a < h.size) →
      h.CopiedTo env.values (env.clone h).2 (env.clone h).1.values ∧
        (env.clone h).1.vars.keys = env.vars.keys ∧ (env.clone h).1.bound = [] := by
  refine ⟨fun v hv => ?_, fun env henv => ⟨?_, ?_, rfl⟩⟩
  · rw [Heap.copyValue_eq]
    exact Heap.copiedTo_copy hv
  · have hvalues : (env.clone h).1.values = env.values.map (Value.rename (h.copy env.values).1) := by
      change (env.vars.entries.map _).map Prod.snd = _
      rw [Environment.values, List.map_map, List.map_map]
      rfl
    rw [hvalues]
    exact Heap.copiedTo_copy henv
  · change (env.vars.entries.map _).map Prod.fst = _
    rw [List.map_map]
    rfl

/-- An environment with two names that lead to an object and to an array in it, and with a function. -/
def tangledEnvironment : Environment where
  vars := .ofList [("x", .object 0), ("f", .function "f" [] []), ("y", .object 1)]
  bound := ["x"]

/-- The array that the second name leads to is among what the first one leads to, and it has one copy. By
itself the array is copied without the object. -/
theorem tangledEnvironment_cloned :
    (∀ a, tangledHeap.LedTo tangledEnvironment.values a → a < tangledHeap.size) ∧
      (∀ a, tangledHeap.LedTo [.object 1] a → a < tangledHeap.size) ∧
      tangledHeap.CopiedTo [.object 0, .function "f" [] [], .object 1]
        (tangledEnvironment.clone tangledHeap).2 [.object 3, .function "f" [] [], .object 4] ∧
      (tangledEnvironment.clone tangledHeap).1.vars.keys = ["x", "f", "y"] ∧
      (tangledEnvironment.clone tangledHeap).1.bound = [] ∧
      tangledHeap.CopiedTo [.object 1] (tangledHeap.copyValue (.object 1)).2 [.object 3] := by
  have hvalues : tangledEnvironment.values = [.object 0, .function "f" [] [], .object 1] := rfl
  have hcopies : (tangledEnvironment.clone tangledHeap).1.values =
      [.object 3, .function "f" [] [], .object 4] := by
    cbv
  have hcopy : (tangledHeap.copyValue (.object 1)).1 = .object 3 := by
    cbv
  have hthere : ∀ a, tangledHeap.LedTo tangledEnvironment.values a → a < tangledHeap.size := by
    refine fun a => Heap.lt_size_of_ledTo (fun r hr => ?_) (by decide)
    rw [hvalues] at hr
    have hroot : r = 0 ∨ r = 1 := by simpa using hr
    rcases hroot with rfl | rfl <;> decide
  have hthere' : ∀ a, tangledHeap.LedTo [.object 1] a → a < tangledHeap.size := by
    refine fun a => Heap.lt_size_of_ledTo (fun r hr => ?_) (by decide)
    obtain rfl : r = 1 := by simpa using hr
    decide
  obtain ⟨hcloned, hkeys, hbound⟩ := copies_faithful_and_disjoint.2 tangledEnvironment hthere
  have hcopied := copies_faithful_and_disjoint.1 (.object 1) hthere'
  rw [hvalues, hcopies] at hcloned
  rw [hcopy] at hcopied
  exact ⟨hthere, hthere', hcloned, hkeys, hbound, hcopied⟩

end ModuLang
