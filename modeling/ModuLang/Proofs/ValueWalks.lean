import Mathlib.Data.List.Forall2
import Mathlib.Data.List.Nodup
import Mathlib.Data.List.Perm.Subperm
import ModuLang.Proofs.HeapEffects

/-!
# Walks through a value

Showing a value, copying it and making its document all walk through the objects that it leads to.
What they do is said here for heaps with two properties. In a heap without cycles no object is met on
the way down from itself: everything is shown in full, and the document is found within one level
more than there are objects. In a heap whose arrays have all their elements, showing does not fail,
and no document fails because of an array.
-/

namespace ModuLang

open Eval

variable {ε α β : Type} {h : Heap} {above : List Address} {v : Value}

/-! ### Lists of computations -/

theorem forall₂_of_mapM_eq_ok {f : α → Except ε β} {R : α → β → Prop} {xs : List α} {ys : List β}
    (h : xs.mapM f = .ok ys) (hR : ∀ x ∈ xs, ∀ y, f x = .ok y → R x y) : List.Forall₂ R xs ys := by
  induction xs generalizing ys with
  | nil =>
    cases h
    exact .nil
  | cons x xs ih =>
    rw [List.mapM_cons, Source.bind_eq_ok] at h
    obtain ⟨y, hy, h⟩ := h
    obtain ⟨rest, hrest, h⟩ := Source.bind_eq_ok.mp h
    cases h
    refine .cons (hR x List.mem_cons_self y hy) (ih hrest fun x' hx' => ?_)
    exact hR x' (List.mem_cons_of_mem _ hx')

/-- A computation that goes on with a value fails as it does. -/
theorem eq_error_of_bind {x : Except ε α} {g : α → β} {e : ε}
    (h : (x >>= fun a => pure (g a)) = .error e) : x = .error e := by
  cases x with
  | ok a => cases h
  | error e' =>
    cases h
    rfl

theorem exists_first_of_mapM_eq_error {f : α → Except ε β} {xs : List α} {e : ε}
    (h : xs.mapM f = .error e) : ∃ before x after, xs = before ++ x :: after ∧
      (∀ b ∈ before, ∃ y, f b = .ok y) ∧ f x = .error e := by
  induction xs with
  | nil => cases h
  | cons x xs ih =>
    rw [List.mapM_cons] at h
    cases hx : f x with
    | error e' =>
      rw [hx] at h
      cases h
      exact ⟨[], x, xs, rfl, fun b hb => absurd hb List.not_mem_nil, hx⟩
    | ok y =>
      rw [hx] at h
      cases hxs : xs.mapM f with
      | error e' =>
        rw [hxs] at h
        cases h
        obtain ⟨before, x', after, rfl, hbefore, hx'⟩ := ih hxs
        exact ⟨x :: before, x', after, rfl, List.forall_mem_cons.mpr ⟨⟨y, hx⟩, hbefore⟩, hx'⟩
      | ok ys =>
        rw [hxs] at h
        cases h

theorem mapM_append_eq_error {f : α → Except ε β} {before after : List α} {x : α} {e : ε}
    (hbefore : ∀ b ∈ before, ∃ y, f b = .ok y) (hx : f x = .error e) :
    (before ++ x :: after).mapM f = .error e := by
  induction before with
  | nil =>
    rw [List.nil_append, List.mapM_cons, hx]
    rfl
  | cons b before ih =>
    obtain ⟨⟨y, hy⟩, hrest⟩ := List.forall_mem_cons.mp hbefore
    rw [List.cons_append, List.mapM_cons, hy, ih hrest]
    rfl

/-- A list of computations fails as the first of them that fails. -/
theorem mapM_eq_error_iff {f : α → Except ε β} {xs : List α} {e : ε} :
    xs.mapM f = .error e ↔ ∃ before x after, xs = before ++ x :: after ∧
      (∀ b ∈ before, ∃ y, f b = .ok y) ∧ f x = .error e := by
  constructor
  · exact exists_first_of_mapM_eq_error
  · rintro ⟨before, x, after, rfl, hbefore, hx⟩
    exact mapM_append_eq_error hbefore hx

theorem exists_of_mapM_eq_error {f : α → Except ε β} {xs : List α} {e : ε}
    (h : xs.mapM f = .error e) : ∃ x ∈ xs, f x = .error e := by
  obtain ⟨before, x, after, rfl, -, hx⟩ := mapM_eq_error_iff.mp h
  exact ⟨x, by simp, hx⟩

theorem exists_forall₂ {R : α → β → Prop} {xs : List α} (h : ∀ x ∈ xs, ∃ y, R x y) :
    ∃ ys, List.Forall₂ R xs ys := by
  induction xs with
  | nil => exact ⟨[], .nil⟩
  | cons x xs ih =>
    obtain ⟨y, hy⟩ := h x List.mem_cons_self
    obtain ⟨ys, hys⟩ := ih fun x' hx' => h x' (List.mem_cons_of_mem _ hx')
    exact ⟨y :: ys, .cons hy hys⟩

theorem exists_of_mem_right {R : α → β → Prop} {xs : List α} {ys : List β} {y : β}
    (h : List.Forall₂ R xs ys) (hy : y ∈ ys) : ∃ x ∈ xs, R x y := by
  induction h with
  | nil => cases hy
  | @cons x y' xs ys hfirst _ ih =>
    rcases List.mem_cons.mp hy with rfl | hy
    · exact ⟨x, List.mem_cons_self, hfirst⟩
    · obtain ⟨x', hx', hrest⟩ := ih hy
      exact ⟨x', List.mem_cons_of_mem _ hx', hrest⟩

theorem mapM_eq_ok_of_forall₂ {f : α → Except ε β} {xs : List α} {ys : List β}
    (h : List.Forall₂ (fun x y => f x = .ok y) xs ys) : xs.mapM f = .ok ys := by
  induction h with
  | nil => rfl
  | cons hfirst hrest ih =>
    rw [List.mapM_cons, hfirst, ih]
    rfl

theorem mapM_map_eq_ok {γ : Type} {f : α → Except ε β} {g : γ → α} {k : γ → β} {xs : List γ}
    (h : ∀ x ∈ xs, f (g x) = .ok (k x)) : (xs.map g).mapM f = .ok (xs.map k) :=
  mapM_eq_ok_of_forall₂
    (List.forall₂_map_left_iff.mpr (List.forall₂_map_right_iff.mpr (List.forall₂_same.mpr h)))

/-- Where all computations that fail fail with one error, the list of them does. -/
theorem mapM_eq_error_of_mem {f : α → Except ε β} {xs : List α} {x : α} {e : ε}
    (hcases : ∀ x ∈ xs, (∃ y, f x = .ok y) ∨ f x = .error e) (hmem : x ∈ xs)
    (hx : ∀ y, f x ≠ .ok y) : xs.mapM f = .error e := by
  cases hmap : xs.mapM f with
  | ok ys =>
    have hall := forall₂_of_mapM_eq_ok (R := fun x y => f x = .ok y) hmap fun _ _ _ hy => hy
    obtain ⟨y, -, hy⟩ := exists_of_mem_right hall.flip hmem
    exact absurd hy (hx y)
  | error e' =>
    obtain ⟨x', hx', herror⟩ := exists_of_mapM_eq_error hmap
    rcases hcases x' hx' with ⟨y, hy⟩ | he
    · cases hy.symm.trans herror
    · exact congrArg _ (Except.error.inj (herror.symm.trans he))

/-- Lists of computations with the same outcomes have the same outcome. -/
theorem mapM_congr_map {γ : Type} {f : α → Except ε β} {f' : γ → Except ε β} {g : α → γ}
    {xs : List α} (h : ∀ x ∈ xs, f' (g x) = f x) : (xs.map g).mapM f' = xs.mapM f := by
  induction xs with
  | nil => rfl
  | cons x xs ih =>
    rw [List.map_cons, List.mapM_cons, List.mapM_cons, h x List.mem_cons_self,
      ih fun x' hx' => h x' (List.mem_cons_of_mem _ hx')]

/-! ### The way down -/

/-- Whether no object can be reached from itself. -/
def Heap.Acyclic (h : Heap) : Prop :=
  ∀ a, ¬Relation.TransGen h.RefersTo a a

/-- Whether a value may come next on the way down through some objects: if it is an object, then it
is there, and it can be reached from all of them. -/
def Heap.Below (h : Heap) (above : List Address) (v : Value) : Prop :=
  ∀ a, v = .object a → a < h.size ∧ ∀ b ∈ above, Relation.TransGen h.RefersTo b a

theorem Heap.Below.of_known (hv : Known .clear h.size v) : h.Below [] v := by
  rintro a rfl
  exact ⟨(hv trivial).1, fun b hb => absurd hb List.not_mem_nil⟩

/-- What an object holds comes below it. -/
theorem Heap.Below.property {a : Address} (hbelow : h.Below above (.object a))
    (hheap : HeapKnown .clear h) (hv : ∀ b, v = .object b → b ∈ (h.get a).references) :
    h.Below (a :: above) v := by
  obtain ⟨ha, habove⟩ := hbelow a rfl
  rintro b rfl
  have hab : h.RefersTo a b := hv b rfl
  refine ⟨hheap.lt_of_reaches ha (.single hab), fun c hc => ?_⟩
  rcases List.mem_cons.mp hc with rfl | hc
  · exact .single hab
  · exact (habove c hc).tail hab

/-- On the way down no object is met again. -/
theorem Heap.Below.not_mem {a : Address} (hbelow : h.Below above (.object a)) (hacyclic : h.Acyclic) :
    above.contains a = false ∧ a < h.size := by
  obtain ⟨ha, habove⟩ := hbelow a rfl
  refine ⟨?_, ha⟩
  rw [Bool.eq_false_iff]
  intro hmem
  exact hacyclic a (habove a (by simpa using hmem))

/-- The elements of an array are among the objects that it refers to. -/
theorem mem_references_of_elements {o : Object} {n : Nat} {items : List Value}
    (ho : ObjectKnown .clear n o) (h : o.elements = .ok items) :
    ∀ item ∈ items, ∀ b, item = .object b → b ∈ o.references := by
  rintro item hitem b rfl
  have hknown := (ho.only fun _ hb => hb).elements h _ hitem trivial
  exact Classical.not_not.mp hknown.2

theorem mem_references_of_plainEntries {o : Object} :
    ∀ entry ∈ o.plainEntries, ∀ b, entry.2 = .object b → b ∈ o.references :=
  fun entry hentry _ hb => Object.mem_references.mpr ⟨entry, (List.mem_filter.mp hentry).1, hb⟩

/-! ### Showing -/

/-- The form of a value in which every object is written out, wherever it stands. -/
inductive Heap.WrittenOut (h : Heap) : Value → String → Prop where
  | plain {v : Value} {s : String} : (∀ a, v ≠ .object a) → h.showInner v = .ok s → WrittenOut h v s
  | array {a : Address} {items : List Value} {texts : List String} : (h.get a).isArray = true →
      (h.get a).elements = .ok items → List.Forall₂ (WrittenOut h) items texts →
      WrittenOut h (.object a) ("[" ++ ", ".intercalate texts ++ "]")
  | record {a : Address} {texts : List String} : (h.get a).isArray = false →
      List.Forall₂ (WrittenOut h) ((h.get a).plainEntries.map Prod.snd) texts →
      WrittenOut h (.object a) ("\x7b" ++ ", ".intercalate (((h.get a).plainEntries.zip texts).map
        fun entry => "\"" ++ entry.1.1 ++ "\": " ++ entry.2) ++ "\x7d")

/-- The entries of an object, as they are shown. -/
theorem exists_of_showEntries {form : Value → Except Cause String} {R : Value → String → Prop}
    {entries : List (String × Value)} {pairs : List String}
    (h : entries.mapM (fun entry => do return "\"" ++ entry.1 ++ "\": " ++ (← form entry.2)) =
      .ok pairs)
    (hR : ∀ entry ∈ entries, ∀ s, form entry.2 = .ok s → R entry.2 s) :
    ∃ texts, List.Forall₂ R (entries.map Prod.snd) texts ∧
      pairs = (entries.zip texts).map fun entry => "\"" ++ entry.1.1 ++ "\": " ++ entry.2 := by
  induction entries generalizing pairs with
  | nil =>
    cases h
    exact ⟨[], .nil, rfl⟩
  | cons entry rest ih =>
    rw [List.mapM_cons, Source.bind_eq_ok] at h
    obtain ⟨pair, hpair, h⟩ := h
    obtain ⟨others, hothers, h⟩ := Source.bind_eq_ok.mp h
    cases h
    obtain ⟨text, htext, hpair⟩ := Source.bind_eq_ok.mp hpair
    cases hpair
    obtain ⟨texts, htexts, rfl⟩ := ih hothers fun entry' hentry' =>
      hR entry' (List.mem_cons_of_mem _ hentry')
    exact ⟨text :: texts, .cons (hR entry List.mem_cons_self text htext) htexts, rfl⟩

theorem writtenOut_of_showNested {s : String} (hacyclic : h.Acyclic) (hheap : HeapKnown .clear h)
    (hbelow : h.Below above v) (hs : h.showNested above v = .ok s) : h.WrittenOut v s := by
  -- The number of objects that are not above gets smaller on the way down.
  induction hn : h.unvisited above using Nat.strong_induction_on generalizing above v s with
  | _ n ih =>
    cases v with
    | object a =>
      have habove := hbelow.not_mem hacyclic
      have ho : ObjectKnown .clear h.size (h.get a) := (hheap trivial).2 a habove.2 not_false
      have hlt : h.unvisited (a :: above) < n := hn ▸ h.unvisited_cons_lt habove.1 habove.2
      rw [Heap.showNested] at hs
      simp only [dif_pos habove] at hs
      by_cases harray : (h.get a).isArray = true
      · rw [if_pos harray] at hs
        obtain ⟨items, hitems, hs⟩ := Source.bind_eq_ok.mp hs
        obtain ⟨texts, htexts, hs⟩ := Source.bind_eq_ok.mp hs
        cases hs
        refine .array harray hitems (forall₂_of_mapM_eq_ok htexts fun item hitem text htext => ?_)
        have hbelow' := hbelow.property hheap (mem_references_of_elements ho hitems item hitem)
        exact ih _ hlt hbelow' htext rfl
      · rw [if_neg harray] at hs
        obtain ⟨pairs, hpairs, hs⟩ := Source.bind_eq_ok.mp hs
        cases hs
        obtain ⟨texts, htexts, rfl⟩ :=
          exists_of_showEntries (R := h.WrittenOut) hpairs fun entry hentry text htext => by
            have hbelow' := hbelow.property hheap (mem_references_of_plainEntries entry hentry)
            exact ih _ hlt hbelow' htext rfl
        exact .record (Bool.eq_false_iff.mpr harray) htexts
    | _ =>
      refine .plain (by simp) ?_
      rw [Heap.showInner, Heap.showNested]
      rw [Heap.showNested] at hs
      exact hs

/-! ### Documents -/

/-- The document of a value is found within one level more than there are objects that are not
above. -/
theorem ofValue_ne_stackOverflow {levels : Nat} (hacyclic : h.Acyclic) (hheap : HeapKnown .clear h)
    (hbelow : h.Below above v) (hlevels : h.unvisited above < levels) :
    Json.ofValue h levels v ≠ .error (.crash .stackOverflow) := by
  induction levels generalizing above v with
  | zero => exact absurd hlevels (Nat.not_lt_zero _)
  | succ levels ih =>
    intro hoverflow
    cases v with
    | object a =>
      -- The object is not above itself, so there is one more above what is inside it.
      have habove := hbelow.not_mem hacyclic
      have ho : ObjectKnown .clear h.size (h.get a) := (hheap trivial).2 a habove.2 not_false
      have hlt : h.unvisited (a :: above) < levels :=
        Nat.lt_of_lt_of_le (h.unvisited_cons_lt habove.1 habove.2) (Nat.le_of_lt_succ hlevels)
      rw [Json.ofValue] at hoverflow
      split at hoverflow
      · cases hitems : (h.get a).elements with
        | error cause =>
          rw [hitems, Object.eq_corruptedArray_of_elements hitems] at hoverflow
          cases hoverflow
        | ok items =>
          rw [hitems] at hoverflow
          obtain ⟨item, hitem, hoverflow⟩ := exists_of_mapM_eq_error (eq_error_of_bind hoverflow)
          have hbelow' := hbelow.property hheap (mem_references_of_elements ho hitems item hitem)
          exact ih hbelow' hlt hoverflow
      · obtain ⟨entry, hentry, hoverflow⟩ := exists_of_mapM_eq_error (eq_error_of_bind hoverflow)
        have hbelow' := hbelow.property hheap (mem_references_of_plainEntries entry hentry)
        exact ih hbelow' hlt (eq_error_of_bind hoverflow)
    | function | native | foreign =>
      unfold Json.ofValue at hoverflow
      simp only [Heap.display, Heap.showInner, Heap.showNested] at hoverflow
      cases hoverflow
    | _ =>
      rw [Json.ofValue] at hoverflow
      cases hoverflow

/-! ### Copying -/

/-- No object is visited twice. -/
theorem Heap.nodup_reachFrom {visited pending : List Address} (hvisited : visited.Nodup) :
    (h.reachFrom visited pending).Nodup := by
  fun_induction Heap.reachFrom h visited pending with
  | case1 visited => exact hvisited
  | case2 visited a rest hnew _ ih =>
    have ha : a ∉ visited := by simpa using hnew.1
    exact ih (List.nodup_cons.mpr ⟨ha, hvisited⟩)
  | case3 visited a rest _ ih => exact ih hvisited

/-- Copying a value makes no more objects than there are. -/
theorem Heap.size_copyValue_le (h : Heap) (v : Value) :
    (h.copyValue v).2.size ≤ h.size + h.size := by
  cases v with
  | object a =>
    have hnodup : (h.copied [.object a]).Nodup :=
      List.nodup_reverse.mpr (Heap.nodup_reachFrom List.nodup_nil)
    have hsub : h.copied [.object a] ⊆ List.range h.size := fun b hb =>
      List.mem_range.mpr (Heap.reaches_of_mem_reachable hb).2
    have hle := (List.subperm_of_subset hnodup hsub).length_le
    rw [List.length_range] at hle
    have hsize := Heap.size_copy h [.object a]
    exact hsize ▸ Nat.add_le_add_left hle _
  | _ => exact Nat.le_add_right _ _

/-! ### Integers that cannot be written -/

/-- Whether what is shown of a value, inside some objects, comes to an integer of too many digits:
everything in front of it is shown. -/
inductive Heap.MeetsUnwritable (h : Heap) : List Address → Value → Prop where
  | int {above : List Address} {n : Int} : ¬Number.isWritable n = true → MeetsUnwritable h above (.int n)
  | element {above : List Address} {a : Address} {before after : List Value} {v : Value} :
      a ∉ above → a < h.size → (h.get a).isArray = true →
      (h.get a).elements = .ok (before ++ v :: after) →
      (∀ w ∈ before, ∃ s, h.showNested (a :: above) w = .ok s) →
      MeetsUnwritable h (a :: above) v → MeetsUnwritable h above (.object a)
  | property {above : List Address} {a : Address} {before after : List (String × Value)}
      {key : String} {v : Value} :
      a ∉ above → a < h.size → (h.get a).isArray = false →
      (h.get a).plainEntries = before ++ (key, v) :: after →
      (∀ entry ∈ before, ∃ s, h.showNested (a :: above) entry.2 = .ok s) →
      MeetsUnwritable h (a :: above) v → MeetsUnwritable h above (.object a)

/-- The form of a property fails as the form of its value. -/
theorem showEntry_eq_error_iff {form : Except Cause String} {key : String} {cause : Cause} :
    (do return "\"" ++ key ++ "\": " ++ (← form)) = (.error cause : Except Cause String) ↔
      form = .error cause := by
  cases form with
  | ok s => exact iff_of_false (fun h => by cases h) fun h => by cases h
  | error cause' => exact Iff.rfl

theorem exists_showEntry_iff {form : Except Cause String} {key : String} :
    (∃ s : String, (do return "\"" ++ key ++ "\": " ++ (← form)) = (.ok s : Except Cause String)) ↔
      ∃ s, form = .ok s := by
  cases form with
  | ok s => exact iff_of_true ⟨_, rfl⟩ ⟨_, rfl⟩
  | error cause => exact iff_of_false (fun ⟨s, h⟩ => by cases h) fun ⟨s, h⟩ => by cases h

/-- An array that is not above fails to be shown as its elements, if it has them. -/
theorem showNested_array_eq_error_iff {a : Address} {cause : Cause} (habove : a ∉ above)
    (ha : a < h.size) (harray : (h.get a).isArray = true) :
    h.showNested above (.object a) = .error cause ↔ (h.get a).elements = .error cause ∨
      ∃ before v after, (h.get a).elements = .ok (before ++ v :: after) ∧
        (∀ w ∈ before, ∃ s, h.showNested (a :: above) w = .ok s) ∧
        h.showNested (a :: above) v = .error cause := by
  have hnew : above.contains a = false ∧ a < h.size := ⟨by simpa using habove, ha⟩
  rw [Heap.showNested]
  simp only [dif_pos hnew, harray, if_true]
  cases hitems : (h.get a).elements with
  | error cause' => simp [bind, Except.bind]
  | ok items =>
    have hforms : ((Except.ok items >>= fun items =>
        items.mapM (h.showNested (a :: above)) >>= fun texts =>
          pure ("[" ++ ", ".intercalate texts ++ "]")) = (.error cause : Except Cause String)) ↔
        items.mapM (h.showNested (a :: above)) = .error cause := by
      cases hmap : items.mapM (h.showNested (a :: above)) <;> simp [bind, Except.bind, hmap, pure,
        Except.pure]
    refine hforms.trans (mapM_eq_error_iff.trans ?_)
    simp [eq_comm]

/-- Any other object that is not above fails to be shown as its properties. -/
theorem showNested_record_eq_error_iff {a : Address} {cause : Cause} (habove : a ∉ above)
    (ha : a < h.size) (harray : (h.get a).isArray = false) :
    h.showNested above (.object a) = .error cause ↔
      ∃ before key v after, (h.get a).plainEntries = before ++ (key, v) :: after ∧
        (∀ entry ∈ before, ∃ s, h.showNested (a :: above) entry.2 = .ok s) ∧
        h.showNested (a :: above) v = .error cause := by
  have hnew : above.contains a = false ∧ a < h.size := ⟨by simpa using habove, ha⟩
  rw [Heap.showNested]
  simp only [dif_pos hnew, harray, Bool.false_eq_true, if_false]
  have hforms : ∀ r : Except Cause (List String),
      (r >>= fun pairs => pure ("\x7b" ++ ", ".intercalate pairs ++ "\x7d")) =
        (.error cause : Except Cause String) ↔ r = .error cause := by
    intro r
    cases r <;> simp [bind, Except.bind, pure, Except.pure]
  refine (hforms _).trans (mapM_eq_error_iff.trans ?_)
  simp only [showEntry_eq_error_iff, exists_showEntry_iff, Prod.exists]

/-- A machine gives up on showing a value exactly where this comes to an integer of too many
digits. -/
theorem showNested_givenUp_iff {c : Crash} :
    h.showNested above v = .error (.givenUp c) ↔ c = .unreadableText ∧ h.MeetsUnwritable above v := by
  -- The number of objects that are not above gets smaller on the way down.
  induction hn : h.unvisited above using Nat.strong_induction_on generalizing above v with
  | _ n ih =>
    cases v with
    | object a =>
      by_cases hnew : above.contains a = false ∧ a < h.size
      · have hlt : h.unvisited (a :: above) < n := hn ▸ h.unvisited_cons_lt hnew.1 hnew.2
        have habove : a ∉ above := by simpa using hnew.1
        have hbelow : ∀ w, h.showNested (a :: above) w = .error (.givenUp c) ↔
            c = .unreadableText ∧ h.MeetsUnwritable (a :: above) w := fun w => ih _ hlt rfl
        cases harray : (h.get a).isArray with
        | true =>
          rw [showNested_array_eq_error_iff habove hnew.2 harray]
          constructor
          · rintro (hitems | ⟨before, w, after, hitems, hbefore, hw⟩)
            · cases Object.eq_corruptedArray_of_elements hitems
            · obtain ⟨hc, hmeets⟩ := (hbelow w).mp hw
              exact ⟨hc, .element habove hnew.2 harray hitems hbefore hmeets⟩
          · rintro ⟨rfl, hmeets⟩
            cases hmeets with
            | element _ _ _ hitems hbefore hmeets =>
              exact .inr ⟨_, _, _, hitems, hbefore, (hbelow _).mpr ⟨rfl, hmeets⟩⟩
            | property _ _ hrecord => cases harray.symm.trans hrecord
        | false =>
          rw [showNested_record_eq_error_iff habove hnew.2 harray]
          constructor
          · rintro ⟨before, key, w, after, hentries, hbefore, hw⟩
            obtain ⟨hc, hmeets⟩ := (hbelow w).mp hw
            exact ⟨hc, .property habove hnew.2 harray hentries hbefore hmeets⟩
          · rintro ⟨rfl, hmeets⟩
            cases hmeets with
            | element _ _ hmarked => cases harray.symm.trans hmarked
            | property _ _ _ hentries hbefore hmeets =>
              exact ⟨_, _, _, _, hentries, hbefore, (hbelow _).mpr ⟨rfl, hmeets⟩⟩
      · -- Dots stand for the object.
        rw [Heap.showNested]
        simp only [dif_neg hnew]
        refine iff_of_false (by simp) ?_
        rintro ⟨-, hmeets⟩
        cases hmeets with
        | element habove ha | property habove ha => exact hnew ⟨by simpa using habove, ha⟩
    | int k =>
      rw [Heap.showNested, Number.writeInteger_givenUp_iff]
      refine and_congr_right fun _ => ⟨.int, fun hmeets => ?_⟩
      cases hmeets with
      | int hk => exact hk
    | _ =>
      rw [Heap.showNested]
      refine iff_of_false (by simp) ?_
      rintro ⟨-, hmeets⟩
      cases hmeets

theorem display_givenUp_iff {c : Crash} :
    h.display v = .error (.givenUp c) ↔ c = .unreadableText ∧ h.MeetsUnwritable [] v := by
  unfold Heap.display
  split
  · refine iff_of_false (by simp) ?_
    rintro ⟨-, hmeets⟩
    cases hmeets
  · exact showNested_givenUp_iff

/-- A value that is no object comes to an integer only if it is one. -/
theorem Heap.MeetsUnwritable.eq_int_of_isPrimitive (hmeets : h.MeetsUnwritable above v)
    (hv : v.IsPrimitive) : ∃ n, v = .int n ∧ ¬Number.isWritable n = true := by
  cases hmeets with
  | int hn => exact ⟨_, rfl, hn⟩
  | element | property => exact hv.elim

/-- Whether what is shown of some values, one behind the other, comes to an integer of too many
digits. -/
inductive Heap.MeetsUnwritableIn (h : Heap) : List Value → Prop where
  | here {v : Value} {rest : List Value} : h.MeetsUnwritable [] v → MeetsUnwritableIn h (v :: rest)
  | later {v : Value} {rest : List Value} {s : String} : h.display v = .ok s →
      MeetsUnwritableIn h rest → MeetsUnwritableIn h (v :: rest)

theorem mapM_display_givenUp_iff {vs : List Value} {c : Crash} :
    vs.mapM h.display = .error (.givenUp c) ↔ c = .unreadableText ∧ h.MeetsUnwritableIn vs := by
  induction vs with
  | nil => exact iff_of_false (fun hfails => by cases hfails) fun ⟨_, hmeets⟩ => by cases hmeets
  | cons v vs ih =>
    rw [List.mapM_cons]
    cases hform : h.display v with
    | error cause =>
      constructor
      · intro hfails
        cases hfails
        obtain ⟨hc, hmeets⟩ := display_givenUp_iff.mp hform
        exact ⟨hc, .here hmeets⟩
      · rintro ⟨rfl, hmeets⟩
        cases hmeets with
        | here hmeets =>
          rw [display_givenUp_iff.mpr ⟨rfl, hmeets⟩] at hform
          cases hform
          rfl
        | later hshown => cases hform.symm.trans hshown
    | ok s =>
      have hrest : (Except.ok s >>= fun text => vs.mapM h.display >>= fun texts =>
          pure (text :: texts)) = (.error (.givenUp c) : Except Cause (List String)) ↔
            vs.mapM h.display = .error (.givenUp c) := by
        rw [Source.ok_bind]
        cases vs.mapM h.display <;> simp [bind, Except.bind, pure, Except.pure]
      refine hrest.trans (ih.trans (and_congr_right fun _ => ⟨.later hform, fun hmeets => ?_⟩))
      cases hmeets with
      | here hmeets => cases (display_givenUp_iff.mpr ⟨rfl, hmeets⟩).symm.trans hform
      | later _ hmeets => exact hmeets

/-! ### Arrays with all their elements -/

/-- Whether all arrays have their elements. -/
def Heap.ArraysComplete (h : Heap) : Prop :=
  ∀ a, (h.get a).isArray = true → ∃ items, (h.get a).elements = .ok items

/-- Where all arrays have their elements, a value fails to be shown only because of an integer. -/
theorem eq_givenUp_of_showNested (hcomplete : h.ArraysComplete) {cause : Cause}
    (hfails : h.showNested above v = .error cause) : cause = .givenUp .unreadableText := by
  -- The induction is on the number of objects that are not above: each object is written out once
  -- on a path.
  induction hn : h.unvisited above using Nat.strong_induction_on generalizing above v with
  | _ n ih =>
    cases v with
    | object a =>
      by_cases hnew : above.contains a = false ∧ a < h.size
      · have hlt : h.unvisited (a :: above) < n := hn ▸ h.unvisited_cons_lt hnew.1 hnew.2
        have habove : a ∉ above := by simpa using hnew.1
        cases harray : (h.get a).isArray with
        | true =>
          obtain ⟨items, hitems⟩ := hcomplete a harray
          rcases (showNested_array_eq_error_iff habove hnew.2 harray).mp hfails with
            herror | ⟨before, w, after, -, -, hw⟩
          · cases hitems.symm.trans herror
          · exact ih _ hlt hw rfl
        | false =>
          obtain ⟨before, key, w, after, -, -, hw⟩ :=
            (showNested_record_eq_error_iff habove hnew.2 harray).mp hfails
          exact ih _ hlt hw rfl
      · rw [Heap.showNested] at hfails
        simp only [dif_neg hnew] at hfails
        cases hfails
    | int k =>
      rw [Heap.showNested] at hfails
      unfold Number.writeInteger at hfails
      split at hfails <;> cases hfails
      rfl
    | _ =>
      rw [Heap.showNested] at hfails
      cases hfails

theorem display_cases (hcomplete : h.ArraysComplete) (v : Value) :
    (∃ s, h.display v = .ok s) ∨ h.display v = .error (.givenUp .unreadableText) := by
  cases hform : h.display v with
  | ok s => exact .inl ⟨s, rfl⟩
  | error cause =>
    unfold Heap.display at hform
    split at hform
    · cases hform
    · rw [eq_givenUp_of_showNested hcomplete hform]
      exact .inr rfl

/-- Where all arrays have their elements, no document fails because of an array. -/
theorem ofValue_ne_corruptedArray (hcomplete : h.ArraysComplete) (levels : Nat) (v : Value)
    (line : Int) : Json.ofValue h levels v ≠ .error (.fault ⟨.corruptedArray, line⟩) := by
  induction levels generalizing v with
  | zero =>
    rw [Json.ofValue]
    simp
  | succ levels ih =>
    intro hcorrupted
    cases v with
    | object a =>
      rw [Json.ofValue] at hcorrupted
      split at hcorrupted
      · next harray =>
        obtain ⟨items, hitems⟩ := hcomplete a harray
        rw [hitems] at hcorrupted
        obtain ⟨item, -, hcorrupted⟩ := exists_of_mapM_eq_error (eq_error_of_bind hcorrupted)
        exact ih item hcorrupted
      · obtain ⟨entry, -, hcorrupted⟩ := exists_of_mapM_eq_error (eq_error_of_bind hcorrupted)
        exact ih entry.2 (eq_error_of_bind hcorrupted)
    | function | native | foreign =>
      unfold Json.ofValue at hcorrupted
      simp only [Heap.display, Heap.showInner, Heap.showNested] at hcorrupted
      cases hcorrupted
    | _ =>
      rw [Json.ofValue] at hcorrupted
      cases hcorrupted

end ModuLang
