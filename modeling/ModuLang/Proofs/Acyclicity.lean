import Mathlib
import ModuLang.Proofs.RunEffects
import ModuLang.Proofs.ValueWalks

/-!
# No value contains itself

An object that is made refers to objects that were there; what is stored in an object is a copy, and
a copy refers to copies alone. So no change of the heap closes a cycle: every way through references
comes to an end, at every point of every run.

Three things follow for whoever walks through a value. Showing it never meets an object on the way
down from itself, so everything is written out. Copying it makes no more objects than there are. And
its JSON document is found within one level more than there are objects.
-/

namespace ModuLang

open Eval

namespace Heap

/-- Whether every way through references comes to an end. -/
def Grounded (h : Heap) : Prop :=
  ∀ a, Acc (fun b a => h.RefersTo a b) a

theorem Grounded.acyclic {h : Heap} (hg : h.Grounded) : h.Acyclic := by
  have hwf : WellFounded (Relation.TransGen fun b a => h.RefersTo a b) := WellFounded.transGen ⟨hg⟩
  intro a
  induction a using hwf.induction with
  | _ a ih =>
    intro ha
    exact ih a (Relation.transGen_swap.mpr ha) ha

end Heap

/-! ### What every change keeps -/

section Grounded

variable {permits : Permission} {h h' : Heap} {a c : Address} {v : Value}

theorem Heap.acc_of_size_le (ha : h.size ≤ a) : Acc (fun b a => h.RefersTo a b) a :=
  ⟨a, fun _ hab => absurd (Heap.lt_of_refersTo hab) (Nat.not_lt.mpr ha)⟩

/-- Where nothing is grafted, the ways from the objects there were end as before. -/
theorem Extends.acc (hx : Extends h h' none) (hheap : HeapKnown .clear h) (ha : a < h.size)
    (hacc : Acc (fun b a => h.RefersTo a b) a) : Acc (fun b a => h'.RefersTo a b) a := by
  induction hacc with
  | intro a _ ih =>
    refine ⟨a, fun b hab => ?_⟩
    rcases hx.old a b ha hab with hab | ⟨hnone, -⟩
    · exact ih b hab (hheap.lt_of_reaches ha (.single hab))
    · cases hnone

theorem Heap.Grounded.alloc {o : Object} (hg : h.Grounded) (hheap : HeapKnown .clear h)
    (ho : ObjectKnown .clear h.size o) : (h.alloc o).2.Grounded := by
  have hx : Extends h (h.alloc o).2 none :=
    extends_of_get? (by simp) fun c => Heap.get?_alloc_of_lt o
  intro a
  rcases Nat.lt_trichotomy a h.size with ha | rfl | ha
  · exact hx.acc hheap ha (hg a)
  · -- The new object refers to objects that were there.
    refine ⟨_, fun b hb => ?_⟩
    unfold Heap.RefersTo at hb
    rw [Heap.get_alloc_self] at hb
    obtain ⟨entry, hentry, hvalue⟩ := Object.mem_references.mp hb
    have hknown := ho entry hentry trivial
    rw [hvalue] at hknown
    exact hx.acc hheap hknown.1 (hg b)
  · refine Heap.acc_of_size_le ?_
    rw [Heap.size_alloc]
    exact ha

/-- The ways from a copy are the copies of the ways from its original. -/
theorem Heap.acc_moved {vs : List Value} (hheap : HeapKnown .clear h) (hc : c ∈ h.copied vs)
    (hacc : Acc (fun b a => h.RefersTo a b) c) :
    Acc (fun b a => (h.copy vs).2.RefersTo a b) ((h.copy vs).1 c) := by
  induction hacc with
  | intro c _ ih =>
    refine ⟨_, fun b hb => ?_⟩
    obtain ⟨d, hcd, rfl⟩ := Heap.exists_of_refersTo_moved hc hb
    have hlt : c < h.size := (Heap.reaches_of_mem_reachable hc).2
    have hd : d < h.size := hheap.lt_of_reaches hlt (.single hcd)
    exact ih d hcd (Heap.reachable_closed hc hcd hd)

theorem Heap.Grounded.copy {vs : List Value} (hg : h.Grounded) (hheap : HeapKnown .clear h) :
    (h.copy vs).2.Grounded := by
  have hx : Extends h (h.copy vs).2 none := by
    refine extends_of_get? ?_ fun c => Heap.get?_copy_of_lt
    rw [Heap.size_copy]
    exact Nat.le_add_right _ _
  intro a
  rcases Nat.lt_or_ge a h.size with ha | ha
  · exact hx.acc hheap ha (hg a)
  · refine ⟨a, fun b hb => ?_⟩
    obtain ⟨c, hc, hget⟩ := Heap.exists_get_copy ha (Heap.lt_of_refersTo hb)
    unfold Heap.RefersTo at hb
    rw [hget] at hb
    obtain ⟨d, hcd, rfl⟩ := Object.exists_of_mem_references_rename hb
    have hlt : c < h.size := (Heap.reaches_of_mem_reachable hc).2
    have hd : d < h.size := hheap.lt_of_reaches hlt (.single hcd)
    exact Heap.acc_moved hheap (Heap.reachable_closed hc hcd hd) (hg d)

theorem Heap.Grounded.copyValue (hg : h.Grounded) (hheap : HeapKnown .clear h) (v : Value) :
    (h.copyValue v).2.Grounded := by
  cases v with
  | object a => exact hg.copy hheap
  | _ => exact hg

/-- Storing a copy closes no cycle, since no way leads back from the copy. -/
theorem Heap.Grounded.store {o : Object} (hg : h.Grounded) (hheap : HeapKnown .clear h)
    (ha : a < h.size) (hx : Extends h ((h.copyValue v).2.set a o) (some a)) :
    ((h.copyValue v).2.set a o).Grounded := by
  -- The ways from new objects stay with new objects, which are as they were copied.
  have hnew : ∀ c, h.size ≤ c → Acc (fun b c => ((h.copyValue v).2.set a o).RefersTo c b) c := by
    intro c hc
    induction hg.copyValue hheap v c with
    | intro c _ ih =>
      refine ⟨c, fun b hcb => ih b ?_ (hx.new a rfl c b hc hcb)⟩
      have hne : a ≠ c := fun heq => Nat.not_lt.mpr hc (heq ▸ ha)
      unfold Heap.RefersTo at hcb
      rw [Heap.get_eq_of_get? (Heap.get?_set_of_ne o hne)] at hcb
      exact hcb
  intro c
  rcases Nat.lt_or_ge c h.size with hc | hc
  · induction hg c with
    | intro c _ ih =>
      refine ⟨c, fun b hcb => ?_⟩
      rcases hx.old c b hc hcb with hcb | ⟨-, hb⟩
      · exact ih b hcb (hheap.lt_of_reaches hc (.single hcb))
      · exact hnew b hb
  · exact hnew c hc

/-- No change of the heap closes a cycle. -/
theorem Heap.Grounded.effect (hg : h.Grounded) (hheap : HeapKnown .clear h)
    (he : Effect permits h h') : h'.Grounded := by
  cases he with
  | make ho _ => exact hg.alloc hheap ho
  | copy _ => exact hg.copy hheap
  | @take a o ha hloses =>
    have hx := extends_take hheap ha hloses
    intro c
    rcases Nat.lt_or_ge c h.size with hc | hc
    · exact hx.acc hheap hc (hg c)
    · refine Heap.acc_of_size_le ?_
      rw [Heap.size_set]
      exact hc
  | store ha hv hstores => exact hg.store hheap ha (extends_store hheap ha hv hstores)

theorem Heap.Grounded.effects (hg : h.Grounded) (hheap : HeapKnown .clear h)
    (he : Effects permits h h') : h'.Grounded := by
  induction he with
  | refl => exact hg
  | tail hbefore hlast ih => exact ih.effect (Effects.heapKept hbefore hheap).known hlast

end Grounded

/-! ### The points of a run -/

/-- Whether all that can be met on a machine comes to an end when it is walked through. -/
structure FiniteValues (m : Machine) : Prop where
  bound : (knownEnv .clear).holds m.heap.size m.env
  held : HeapKnown .clear m.heap
  acyclic : m.heap.Acyclic
  shown : ∀ a s, a < m.heap.size → m.heap.display (.object a) = .ok s →
    m.heap.WrittenOut (.object a) s
  copied : ∀ v, (m.heap.copyValue v).2.size ≤ m.heap.size + m.heap.size
  encoded : ∀ v levels, Known .clear m.heap.size v → m.heap.size < levels →
    Json.ofValue m.heap levels v ≠ .error (.crash .stackOverflow)

theorem finiteValues_of_grounded {m : Machine} (hg : m.heap.Grounded)
    (hheap : HeapKnown .clear m.heap) (henv : (knownEnv .clear).holds m.heap.size m.env) :
    FiniteValues m where
  bound := henv
  held := hheap
  acyclic := hg.acyclic
  shown a s ha hs := by
    have hbelow : m.heap.Below [] (.object a) := .of_known fun _ => ⟨ha, not_false⟩
    exact writtenOut_of_showNested hg.acyclic hheap hbelow hs
  copied := m.heap.size_copyValue_le
  encoded v levels hv hlevels := by
    refine ofValue_ne_stackOverflow hg.acyclic hheap (.of_known hv) ?_
    have hle : m.heap.unvisited [] ≤ m.heap.size := by
      unfold Heap.unvisited
      exact Nat.le_trans (List.length_filter_le _ _) (Nat.le_of_eq List.length_range)
    exact Nat.lt_of_le_of_lt hle hlevels

theorem Heap.grounded_empty : Heap.Grounded {} :=
  fun _ => Heap.acc_of_size_le (Nat.zero_le _)

/-- At every point of a run that starts with the builtins alone, and where the node of the point
ends, no object can be reached from itself; so what is shown is written out, and copies and documents
come to an end. The value of the node is among those that this is said of. -/
theorem no_value_contains_itself [Host.Limits] {config : Config} {world : Host.World}
    {source : String} {levels : Nat} {p : Point}
    (hp : Evaluates config source (Session.new config world).machine levels p) :
    FiniteValues p.machine ∧ FiniteValues ((evaluate levels).answer p).2 ∧
      ∀ v, ((evaluate levels).answer p).1 = .ok v →
        Known .clear ((evaluate levels).answer p).2.heap.size v := by
  obtain ⟨hbefore, hafter⟩ := hp.heap_induction (runPermitted_any source) Heap.grounded_empty
    fun hheap hg he => Heap.Grounded.effect hg hheap he
  obtain ⟨-, hkept⟩ := complies_evaluate .clear levels p.config p.node p.machine hp.known.fit
    hp.known.heap hp.known.env
  refine ⟨finiteValues_of_grounded hbefore hp.known.heap hp.known.env,
    finiteValues_of_grounded hafter hkept.heap hkept.env, fun v hv => ?_⟩
  have hends := hkept.ends
  change EndsWell _ _ _ ((evaluate levels).answer p).1 at hends
  rw [hv] at hends
  exact hends

/-! ### An array that is pushed onto itself -/

/-- A program that pushes an array onto itself. -/
def selfPushProgram : String := "import \"array\"\nlet a = array.new()\narray.push(a, a)\nprint(a)"

/-- The statements behind the import, up to the last one. -/
def selfPush : List Node :=
  [.binding "a" (.methodCall (.identifier "array" 2) "new" [] 2) 2,
    .methodCall (.identifier "array" 3) "push" [.identifier "a" 3, .identifier "a" 3] 3]

theorem parse_selfPushProgram : Source.parse selfPushProgram =
    ⟨(.importing ⟨"\"array\"", 1⟩ none 1 :: selfPush) ++ [.call "print" [.identifier "a" 4] 4],
      none⟩ := by
  have htokens : Source.tokenize selfPushProgram =
      ([⟨.importWord, "import", 1⟩, ⟨.string, "\"array\"", 1⟩, ⟨.newline, "\n", 1⟩,
        ⟨.letWord, "let", 2⟩, ⟨.identifier, "a", 2⟩, ⟨.assign, "=", 2⟩, ⟨.identifier, "array", 2⟩,
        ⟨.dot, ".", 2⟩, ⟨.identifier, "new", 2⟩, ⟨.leftParen, "(", 2⟩, ⟨.rightParen, ")", 2⟩,
        ⟨.newline, "\n", 2⟩, ⟨.identifier, "array", 3⟩, ⟨.dot, ".", 3⟩, ⟨.identifier, "push", 3⟩,
        ⟨.leftParen, "(", 3⟩, ⟨.identifier, "a", 3⟩, ⟨.comma, ",", 3⟩, ⟨.identifier, "a", 3⟩,
        ⟨.rightParen, ")", 3⟩, ⟨.newline, "\n", 3⟩, ⟨.identifier, "print", 4⟩,
        ⟨.leftParen, "(", 4⟩, ⟨.identifier, "a", 4⟩, ⟨.rightParen, ")", 4⟩, ⟨.newline, "\n", 4⟩],
        none) := by
    decide +kernel
  unfold Source.parse
  rw [htokens]
  cbv

/-- The machine after the statements up to the last one. -/
def selfPushed : Machine :=
  ((runTopLevel (evaluate stackLimit) {} none 1 selfPush).outcome
    (importedPackage (Session.new {} {}).machine "array" arrayMembers)).2

theorem evaluates_selfPushed :
    Evaluates {} selfPushProgram (Session.new {} {}).machine stackLimit
      ⟨{}, .call "print" [.identifier "a" 4] 4, selfPushed⟩ := by
  refine evaluates_statement parse_selfPushProgram ?_
  have himport : (evaluate stackLimit).answer
      ⟨{}, .importing ⟨"\"array\"", 1⟩ none 1, (Session.new {} {}).machine⟩ =
        (.ok .null, importedPackage (Session.new {} {}).machine "array" arrayMembers) :=
    answer_importPackage 899 (by decide +kernel) (by decide +kernel) importable_array
  rw [outcome_runTopLevel_ok himport]
  have hends : ((runTopLevel (evaluate stackLimit) {} none 1 selfPush).outcome
      (importedPackage (Session.new {} {}).machine "array" arrayMembers)).1 = .ok () := by
    cbv
  exact Prod.ext hends rfl

/-- An array that is pushed onto itself holds a copy of what it was, and is shown with it. -/
theorem pushed_onto_itself :
    ∃ m, Evaluates {} selfPushProgram (Session.new {} {}).machine stackLimit
        ⟨{}, .call "print" [.identifier "a" 4] 4, m⟩ ∧
      FiniteValues m ∧ (m.env.get? "a").map m.heap.display = some (.ok "[[]]") := by
  refine ⟨selfPushed, evaluates_selfPushed, (no_value_contains_itself evaluates_selfPushed).1, ?_⟩
  cbv

end ModuLang
