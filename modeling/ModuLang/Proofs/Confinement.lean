import ModuLang.Machine
import ModuLang.Proofs.PlainNodes
import ModuLang.Proofs.Reachability

/-!
# What a step may see and change

A boundary hides some objects. A value is known behind the boundary if it is no hidden object and no
function whose body could hold one; a step keeps the boundary if, started from known values alone,
it gives a known value, leaves known values in the environment and the heap, and changes no hidden
object. The frames that were there stay as they are, but for the count of the innermost one.

A boundary need not be drawn. Then nothing is asked of values, and what is left is the discipline of
the frames, which every step keeps from every machine.

`Keeps` relates two steps: from where it is applied they have one outcome. With one step in both
places it says what that step does. With a step and the same step by means of another evaluator it
says that the step asks its evaluator only where the boundary is kept.
-/

namespace ModuLang

open Eval

variable {α β : Type}

/-! ### Outcomes -/

/-- How a step ends on a machine, and the machine afterwards. -/
def Eval.outcome (x : Eval α) (m : Machine) : Except Interrupt α × Machine :=
  x.run m

theorem Eval.outcome_bind (x : Eval α) (k : α → Eval β) (m : Machine) :
    (x >>= k).outcome m =
      match x.outcome m with
      | (.ok a, m') => (k a).outcome m'
      | (.error i, m') => (.error i, m') := by
  have h : (x >>= k).outcome m = (ExceptT.bindCont k (x.outcome m).1).run (x.outcome m).2 := rfl
  rw [h]
  obtain ⟨r, m'⟩ := x.outcome m
  cases r with
  | ok a => rfl
  | error i => rfl

theorem Eval.outcome_tryCatch (x : Eval α) (handler : Interrupt → Eval α) (m : Machine) :
    (tryCatch x handler).outcome m =
      match x.outcome m with
      | (.ok a, m') => (.ok a, m')
      | (.error i, m') => (handler i).outcome m' := by
  unfold outcome
  simp only [tryCatch, tryCatchThe, MonadExceptOf.tryCatch, ExceptT.tryCatch, ExceptT.run, ExceptT.mk,
    bind, StateT.bind]
  rcases x m with ⟨r, m'⟩
  cases r with
  | ok a => rfl
  | error i => rfl

theorem Eval.outcome_get_bind (k : Machine → Eval α) (m : Machine) :
    ((get : Eval Machine) >>= k).outcome m = (k m).outcome m :=
  rfl

theorem Eval.outcome_modify_bind (f : Machine → Machine) (k : Unit → Eval α) (m : Machine) :
    ((modify f : Eval Unit) >>= k).outcome m = (k ()).outcome (f m) :=
  rfl

theorem Eval.outcome_object_bind (a : Address) (k : Object → Eval α) (m : Machine) :
    (object a >>= k).outcome m = (k (m.heap.get a)).outcome m :=
  rfl

theorem Eval.outcome_display (v : Value) (m : Machine) :
    (display v).outcome m = (ofCause (m.heap.display v)).outcome m :=
  rfl

theorem Eval.outcome_env_bind (k : Environment → Eval α) (m : Machine) :
    (Eval.env >>= k).outcome m = (k m.env).outcome m :=
  rfl

theorem Eval.outcome_bind_eq_ok {x : Eval α} {k : α → Eval β} {m m' : Machine} {b : β}
    (h : (x >>= k).outcome m = (.ok b, m')) :
    ∃ a m₁, x.outcome m = (.ok a, m₁) ∧ (k a).outcome m₁ = (.ok b, m') := by
  rw [outcome_bind] at h
  revert h
  obtain ⟨r, m₁⟩ := x.outcome m
  intro h
  cases r with
  | error i => cases h
  | ok a => exact ⟨a, m₁, rfl, h⟩

/-- A result that the handler never ends with is the step's own. -/
theorem Eval.outcome_of_tryCatch_eq_ok {x : Eval α} {handler : Interrupt → Eval α} {m m' : Machine}
    {a : α} (h : (tryCatch x handler).outcome m = (.ok a, m'))
    (hhandler : ∀ i m₁, (handler i).outcome m₁ ≠ (.ok a, m')) : x.outcome m = (.ok a, m') := by
  rw [outcome_tryCatch] at h
  revert h
  obtain ⟨r, m₁⟩ := x.outcome m
  intro h
  cases r with
  | ok b => exact h
  | error i => exact absurd h (hhandler i m₁)

theorem Eval.outcome_inside (e : Environment) (x : Eval α) (m : Machine) :
    (inside e x).outcome m =
      ((x.outcome { m with env := e }).1, { (x.outcome { m with env := e }).2 with env := m.env }) :=
  rfl

/-- A step in a new frame is not taken if there is no room for the frame, which is gone afterwards. -/
theorem Eval.outcome_inFrame (config : Config) (name : String) (counted : Bool) (x : Eval α)
    (m : Machine) :
    (inFrame config name counted x).outcome m =
      if config.maxCallDepth ≤ m.frames.length then (fail .recursionTooDeep : Eval α).outcome m
      else
        let out := x.outcome { m with frames := ⟨name, counted, 0⟩ :: m.frames }
        (out.1, { out.2 with frames := out.2.frames.tail }) := by
  unfold inFrame
  rw [outcome_get_bind]
  by_cases h : config.maxCallDepth ≤ m.frames.length
  · rw [if_pos h, if_pos h]
  · rw [if_neg h, if_neg h]
    rfl

/-! ### Boundaries -/

/-- A boundary: whether anything is asked of values at all, and the objects behind it. -/
structure Boundary where
  drawn : Prop
  hidden : Address → Prop

/-- The boundary that asks nothing. -/
def Boundary.absent : Boundary := ⟨False, fun _ => False⟩

/-- The boundary that hides the objects below an address. -/
def Boundary.below (n : Nat) : Boundary := ⟨True, (· < n)⟩

/-- The boundary that hides no object. -/
def Boundary.clear : Boundary := ⟨True, fun _ => False⟩

/-- Whether a value may be met when there are that many objects. -/
def Known (R : Boundary) (size : Nat) (v : Value) : Prop :=
  R.drawn →
    match v with
    | .object a => a < size ∧ ¬R.hidden a
    | .function _ _ body => ∀ n ∈ body, n.Plain
    | _ => True

/-- Whether a node may be evaluated: it is plain, or it gives a known value at once. -/
def Fit (R : Boundary) (size : Nat) (n : Node) : Prop :=
  R.drawn → n.Plain ∨ ∃ v line, n = .literal v line ∧ Known R size v

/-- Whether all properties of an object may be met. -/
def ObjectKnown (R : Boundary) (size : Nat) (o : Object) : Prop :=
  ∀ entry ∈ o.properties.entries, Known R size entry.2

/-- Whether all objects but the hidden ones have properties that may be met; the hidden ones are
there. -/
def HeapKnown (R : Boundary) (h : Heap) : Prop :=
  R.drawn → (∀ a, R.hidden a → a < h.size) ∧
    ∀ a, a < h.size → ¬R.hidden a → ObjectKnown R h.size (h.get a)

/-- Whether an interrupt carries only what may be met. -/
def InterruptKnown (R : Boundary) (size : Nat) : Interrupt → Prop
  | .returned v => Known R size v
  | _ => True

/-- Whether frames are the same but for the count of the innermost one, which may have grown. -/
def FramesKept : List Frame → List Frame → Prop
  | [], after => after = []
  | frame :: below, after =>
    ∃ count, frame.statements ≤ count ∧ after = { frame with statements := count } :: below

theorem FramesKept.refl (frames : List Frame) : FramesKept frames frames := by
  cases frames with
  | nil => rfl
  | cons frame below => exact ⟨frame.statements, Nat.le_refl _, rfl⟩

theorem FramesKept.trans {f g k : List Frame} (hfg : FramesKept f g) (hgk : FramesKept g k) :
    FramesKept f k := by
  cases f with
  | nil =>
    obtain rfl : g = [] := hfg
    exact hgk
  | cons frame below =>
    obtain ⟨count, hle, rfl⟩ := hfg
    obtain ⟨count', hle', rfl⟩ := hgk
    exact ⟨count', Nat.le_trans hle hle', rfl⟩

theorem FramesKept.length_eq {f g : List Frame} (h : FramesKept f g) : g.length = f.length := by
  cases f with
  | nil =>
    obtain rfl : g = [] := h
    rfl
  | cons frame below =>
    obtain ⟨count, -, rfl⟩ := h
    rfl

/-- What a step may have done to a machine. -/
structure Grows (R : Boundary) (m m' : Machine) : Prop where
  size : m.heap.size ≤ m'.heap.size
  hidden : R.drawn → ∀ a, R.hidden a → m'.heap.get? a = m.heap.get? a
  frames : FramesKept m.frames m'.frames

theorem Grows.refl (R : Boundary) (m : Machine) : Grows R m m :=
  ⟨Nat.le_refl _, fun _ _ _ => rfl, .refl _⟩

theorem Grows.trans {R : Boundary} {m₁ m₂ m₃ : Machine} (h : Grows R m₁ m₂) (h' : Grows R m₂ m₃) :
    Grows R m₁ m₃ :=
  ⟨Nat.le_trans h.size h'.size,
    fun hdrawn a ha => (h'.hidden hdrawn a ha).trans (h.hidden hdrawn a ha),
    h.frames.trans h'.frames⟩

/-- What a step may have done to a heap. -/
structure HeapKept (R : Boundary) (h h' : Heap) : Prop where
  known : HeapKnown R h'
  size : h.size ≤ h'.size
  hidden : R.drawn → ∀ a, R.hidden a → h'.get? a = h.get? a

theorem HeapKept.refl {R : Boundary} {h : Heap} (hheap : HeapKnown R h) : HeapKept R h h :=
  ⟨hheap, Nat.le_refl _, fun _ _ _ => rfl⟩

theorem HeapKept.trans {R : Boundary} {h₁ h₂ h₃ : Heap} (h : HeapKept R h₁ h₂)
    (h' : HeapKept R h₂ h₃) : HeapKept R h₁ h₃ :=
  ⟨h'.known, Nat.le_trans h.size h'.size,
    fun hdrawn a ha => (h'.hidden hdrawn a ha).trans (h.hidden hdrawn a ha)⟩

/-- What is asked of an environment, which cannot be lost by making objects. -/
structure EnvRule where
  holds : Nat → Environment → Prop
  mono : ∀ {n n' e}, n ≤ n' → holds n e → holds n' e

section Known

variable {R : Boundary} {n n' : Nat}

theorem Known.mono {v : Value} (h : Known R n v) (hle : n ≤ n') : Known R n' v := by
  intro hdrawn
  have hv := h hdrawn
  cases v with
  | object a => exact ⟨Nat.lt_of_lt_of_le hv.1 hle, hv.2⟩
  | _ => exact hv

theorem known_of_isPrimitive {v : Value} (h : v.IsPrimitive) : Known R n v := by
  intro _
  cases v with
  | object a => exact absurd h (by simp [Value.IsPrimitive])
  | function name params body => exact absurd h (by simp [Value.IsPrimitive])
  | _ => trivial

theorem known_native (f : Native) : Known R n (.native f) :=
  fun _ => trivial

theorem Fit.mono {node : Node} (h : Fit R n node) (hle : n ≤ n') : Fit R n' node := by
  intro hdrawn
  rcases h hdrawn with h | ⟨v, line, rfl, hv⟩
  · exact .inl h
  · exact .inr ⟨v, line, rfl, hv.mono hle⟩

theorem ObjectKnown.mono {o : Object} (h : ObjectKnown R n o) (hle : n ≤ n') : ObjectKnown R n' o :=
  fun entry hentry => (h entry hentry).mono hle

end Known

/-- The environments whose values may all be met. -/
def knownEnv (R : Boundary) : EnvRule where
  holds n e := ∀ binding ∈ e.vars.entries, Known R n binding.2
  mono hle h binding hbinding := (h binding hbinding).mono hle

/-- The rule that the environment stays as it is. -/
def sameEnv (e : Environment) : EnvRule where
  holds _ e' := e' = e
  mono _ h := h

/-! ### Steps that keep a boundary -/

/-- What is asked of a result: of a value the given condition, and of an interrupt that what it
carries may be met. -/
def EndsWell (R : Boundary) (size : Nat) (P : Nat → α → Prop) : Except Interrupt α → Prop
  | .ok a => P size a
  | .error i => InterruptKnown R size i

/-- What is asked of an outcome of a step that began on the machine `m`. -/
structure Kept (R : Boundary) (E : EnvRule) (m : Machine) (P : Nat → α → Prop)
    (out : Except Interrupt α × Machine) : Prop where
  grows : Grows R m out.2
  heap : HeapKnown R out.2.heap
  env : E.holds out.2.heap.size out.2.env
  ends : EndsWell R out.2.heap.size P out.1

/-- Two steps have one outcome on a machine that keeps a boundary, and it keeps it. -/
def Keeps (R : Boundary) (E : EnvRule) (m : Machine) (x x' : Eval α) (P : Nat → α → Prop) : Prop :=
  HeapKnown R m.heap → E.holds m.heap.size m.env →
    x.outcome m = x'.outcome m ∧ Kept R E m P (x.outcome m)

section Rules

variable {R : Boundary} {E : EnvRule} {m : Machine} {P : Nat → α → Prop} {Q : Nat → β → Prop}

/-- A step that leaves the machine as it is. -/
theorem Keeps.of_outcome {x : Eval α} {r : Except Interrupt α} (hx : x.outcome m = (r, m))
    (hr : EndsWell R m.heap.size P r) : Keeps R E m x x P := by
  intro hheap henv
  rw [hx]
  exact ⟨rfl, .refl R m, hheap, henv, hr⟩

theorem keeps_pure {a : α} (ha : P m.heap.size a) : Keeps R E m (pure a) (pure a) P :=
  .of_outcome rfl ha

theorem keeps_throw {i : Interrupt} (hi : InterruptKnown R m.heap.size i) :
    Keeps R E m (throw i) (throw i) P :=
  .of_outcome rfl hi

theorem keeps_fail (cause : Cause) : Keeps R E m (fail cause) (fail cause) P :=
  keeps_throw trivial

theorem keeps_crash (c : Crash) : Keeps R E m (crash c) (crash c) P :=
  keeps_throw trivial

theorem keeps_ofExcept {x : Except Failure α} (hx : ∀ a, x = .ok a → P m.heap.size a) :
    Keeps R E m (ofExcept x) (ofExcept x) P := by
  cases x with
  | ok a => exact keeps_pure (hx a rfl)
  | error failure => exact keeps_throw trivial

theorem keeps_ofCause {x : Except Cause α} (hx : ∀ a, x = .ok a → P m.heap.size a) :
    Keeps R E m (ofCause x) (ofCause x) P := by
  cases x with
  | ok a => exact keeps_pure (hx a rfl)
  | error cause => exact keeps_throw trivial

/-- One step after another. -/
theorem Keeps.bind {x x' : Eval α} {k k' : α → Eval β} (hx : Keeps R E m x x' P)
    (hk : ∀ a m', Grows R m m' → P m'.heap.size a → Keeps R E m' (k a) (k' a) Q) :
    Keeps R E m (x >>= k) (x' >>= k') Q := by
  intro hheap henv
  obtain ⟨heq, hkept⟩ := hx hheap henv
  rw [outcome_bind, outcome_bind, ← heq]
  revert hkept
  obtain ⟨r, m'⟩ := x.outcome m
  intro hkept
  cases r with
  | error i => exact ⟨rfl, hkept.grows, hkept.heap, hkept.env, hkept.ends⟩
  | ok a =>
    obtain ⟨heq', hkept'⟩ := hk a m' hkept.grows hkept.ends hkept.heap hkept.env
    exact ⟨heq', hkept.grows.trans hkept'.grows, hkept'.heap, hkept'.env, hkept'.ends⟩

/-- A step whose interrupts are handled. -/
theorem Keeps.tryCatch {x x' : Eval α} {handler handler' : Interrupt → Eval α}
    (hx : Keeps R E m x x' P)
    (hh : ∀ i m', Grows R m m' → InterruptKnown R m'.heap.size i →
      Keeps R E m' (handler i) (handler' i) P) :
    Keeps R E m (tryCatch x handler) (tryCatch x' handler') P := by
  intro hheap henv
  obtain ⟨heq, hkept⟩ := hx hheap henv
  rw [outcome_tryCatch, outcome_tryCatch, ← heq]
  revert hkept
  obtain ⟨r, m'⟩ := x.outcome m
  intro hkept
  cases r with
  | ok a => exact ⟨rfl, hkept.grows, hkept.heap, hkept.env, hkept.ends⟩
  | error i =>
    obtain ⟨heq', hkept'⟩ := hh i m' hkept.grows hkept.ends hkept.heap hkept.env
    exact ⟨heq', hkept.grows.trans hkept'.grows, hkept'.heap, hkept'.env, hkept'.ends⟩

/-- A step that changes the environment alone. -/
theorem keeps_modifyEnv {f : Environment → Environment}
    (hf : ∀ e, E.holds m.heap.size e → E.holds m.heap.size (f e)) :
    Keeps R E m (modify fun m => { m with env := f m.env }) (modify fun m => { m with env := f m.env })
      fun _ _ => True := by
  intro hheap henv
  exact ⟨rfl, ⟨Nat.le_refl _, fun _ _ _ => rfl, .refl _⟩, hheap, hf _ henv, trivial⟩

/-- A step that changes the heap alone. -/
theorem keeps_modifyHeap {f : Heap → α × Heap}
    (hf : HeapKnown R m.heap →
      HeapKept R m.heap (f m.heap).2 ∧ P (f m.heap).2.size (f m.heap).1) :
    Keeps R E m (modifyGet fun m => ((f m.heap).1, { m with heap := (f m.heap).2 }))
      (modifyGet fun m => ((f m.heap).1, { m with heap := (f m.heap).2 })) P := by
  intro hheap henv
  obtain ⟨hkept, hP⟩ := hf hheap
  exact ⟨rfl, ⟨hkept.size, hkept.hidden, .refl _⟩, hkept.known, E.mono hkept.size henv, hP⟩

theorem keeps_env : Keeps R E m Eval.env Eval.env fun n e => E.holds n e := by
  intro hheap henv
  exact ⟨rfl, .refl R m, hheap, henv, henv⟩

theorem keeps_heap : Keeps R E m Eval.heap Eval.heap fun n h => h.size = n ∧ HeapKnown R h := by
  intro hheap henv
  exact ⟨rfl, .refl R m, hheap, henv, rfl, hheap⟩

theorem keeps_world : Keeps R E m Eval.world Eval.world fun _ _ => True :=
  .of_outcome rfl trivial

theorem keeps_display (v : Value) : Keeps R E m (display v) (display v) fun _ _ => True :=
  keeps_heap.bind fun _ _ _ _ => keeps_ofCause fun _ _ => trivial

end Rules

/-! ### Objects -/

section Objects

variable {R : Boundary} {E : EnvRule} {m : Machine} {h h' : Heap} {vs : List Value}

theorem Known.not_hidden {a : Address} {n : Nat} (hdrawn : R.drawn) (ha : Known R n (.object a)) :
    a < n ∧ ¬R.hidden a :=
  ha hdrawn

/-- The properties of an object that may be met may be met. -/
theorem HeapKnown.object {a : Address} (hheap : HeapKnown R h) (ha : Known R h.size (.object a)) :
    ObjectKnown R h.size (h.get a) := by
  intro entry hentry hdrawn
  have ha' := ha.not_hidden hdrawn
  exact (hheap hdrawn).2 a ha'.1 ha'.2 entry hentry hdrawn

/-- What is reached from an object that may be met may be met. -/
theorem HeapKnown.reaches {a b : Address} (hheap : HeapKnown R h) (ha : Known R h.size (.object a))
    (hab : h.Reaches a b) : Known R h.size (.object b) := by
  induction hab with
  | refl => exact ha
  | tail _ hbc ih =>
    obtain ⟨entry, hentry, hvalue⟩ := Object.mem_references.mp hbc
    rw [← hvalue]
    exact hheap.object ih entry hentry

/-- In a heap that refers to its own objects alone, nothing else is reached from these. -/
theorem HeapKnown.lt_of_reaches {a b : Address} (hheap : HeapKnown .clear h) (ha : a < h.size)
    (hab : h.Reaches a b) : b < h.size :=
  (hheap.reaches (fun _ => ⟨ha, not_false⟩) hab trivial).1

/-- New objects with known properties, behind objects that do not change. -/
theorem HeapKnown.extend (hheap : HeapKnown R h) (hsize : h.size ≤ h'.size)
    (hold : ∀ a, a < h.size → h'.get? a = h.get? a)
    (hnew : R.drawn → ∀ a, h.size ≤ a → a < h'.size → ObjectKnown R h'.size (h'.get a)) :
    HeapKept R h h' := by
  refine ⟨fun hdrawn => ?_, hsize, fun hdrawn a ha => hold a ((hheap hdrawn).1 a ha)⟩
  obtain ⟨hhidden, hobjects⟩ := hheap hdrawn
  refine ⟨fun a ha => Nat.lt_of_lt_of_le (hhidden a ha) hsize, fun a hlt ha => ?_⟩
  -- An object was there before, or it is new.
  rcases Nat.lt_or_ge a h.size with h | h
  · rw [Heap.get_eq_of_get? (hold a h)]
    exact (hobjects a h ha).mono hsize
  · exact hnew hdrawn a h hlt

/-- The next address may be met behind every boundary. -/
theorem HeapKnown.known_next (hheap : HeapKnown R h) : Known R (h.size + 1) (.object h.size) :=
  fun hdrawn => ⟨Nat.lt_succ_self _, fun ha => Nat.lt_irrefl _ ((hheap hdrawn).1 _ ha)⟩

theorem HeapKnown.alloc {o : Object} (hheap : HeapKnown R h) (ho : ObjectKnown R h.size o) :
    HeapKept R h (h.alloc o).2 := by
  refine hheap.extend (by simp) (fun a => Heap.get?_alloc_of_lt o) ?_
  intro _ a hle hlt
  rw [Heap.size_alloc] at hlt ⊢
  obtain rfl : a = h.size := Nat.le_antisymm (Nat.le_of_lt_succ hlt) hle
  rw [Heap.get_alloc_self]
  exact ho.mono (Nat.le_succ _)

theorem keeps_alloc {o : Object} (ho : ObjectKnown R m.heap.size o) :
    Keeps R E m (Eval.alloc o) (Eval.alloc o) (Known R) := by
  refine keeps_modifyHeap (f := fun h => (Value.object (h.alloc o).1, (h.alloc o).2)) fun hheap => ?_
  refine ⟨hheap.alloc ho, ?_⟩
  rw [Heap.size_alloc]
  exact hheap.known_next

theorem keeps_object {a : Address} (ha : Known R m.heap.size (.object a)) :
    Keeps R E m (Eval.object a) (Eval.object a) (ObjectKnown R) := by
  intro hheap henv
  exact ⟨rfl, .refl R m, hheap, henv, hheap.object ha⟩

theorem HeapKnown.set {a : Address} {o : Object} (hheap : HeapKnown R h)
    (ho : ObjectKnown R h.size o) : HeapKnown R (h.set a o) := by
  intro hdrawn
  obtain ⟨hhidden, hobjects⟩ := hheap hdrawn
  rw [Heap.size_set]
  refine ⟨hhidden, fun b hlt hb => ?_⟩
  -- Only the object that is set changes, and its new properties are known.
  by_cases hab : a = b
  · subst hab
    rw [Heap.get_set_self o hlt]
    exact ho
  · rw [Heap.get_eq_of_get? (Heap.get?_set_of_ne o hab)]
    exact hobjects b hlt hb

theorem keeps_setObject {a : Address} {o : Object} (ha : Known R m.heap.size (.object a))
    (ho : ObjectKnown R m.heap.size o) :
    Keeps R E m (setObject a o) (setObject a o) fun _ _ => True := by
  refine keeps_modifyHeap (f := fun h => ((), h.set a o)) fun hheap => ?_
  refine ⟨⟨hheap.set ho, by simp, fun hdrawn b hb => Heap.get?_set_of_ne o ?_⟩, trivial⟩
  rintro rfl
  exact (ha.not_hidden hdrawn).2 hb

/-! ### Copies -/

theorem Known.clear {v : Value} {n : Nat} (hv : Known R n v) (hdrawn : R.drawn) :
    Known .clear n v := by
  intro _
  have h := hv hdrawn
  cases v with
  | object a => exact ⟨h.1, not_false⟩
  | _ => exact h

theorem ObjectKnown.clear {o : Object} {n : Nat} (ho : ObjectKnown R n o) (hdrawn : R.drawn) :
    ObjectKnown .clear n o :=
  fun entry hentry => (ho entry hentry).clear hdrawn

/-- A value that is moved with the object that it stands for may be met behind every boundary that
hides only objects that were there before. -/
theorem known_rename {v : Value} (hhidden : R.drawn → ∀ a, R.hidden a → a < h.size)
    (hv : Known .clear h.size v) (hmem : ∀ a, v = .object a → a ∈ h.copied vs) :
    Known R (h.copy vs).2.size (v.rename (h.copy vs).1) := by
  intro hdrawn
  cases v with
  | object a =>
    obtain ⟨hle, hlt⟩ := Heap.moved_of_mem (hmem a rfl)
    exact ⟨hlt, fun ha => Nat.not_lt.mpr hle (hhidden hdrawn _ ha)⟩
  | function name params body => exact hv trivial
  | _ => trivial

/-- The copy of an object may be met, with all its properties, behind every boundary that hides only
objects that were there before. -/
theorem objectKnown_rename {b : Address} (hhidden : R.drawn → ∀ a, R.hidden a → a < h.size)
    (hb : b ∈ h.copied vs) (ho : ObjectKnown .clear h.size (h.get b)) :
    ObjectKnown R (h.copy vs).2.size ((h.get b).rename (h.copy vs).1) := by
  intro entry hentry
  obtain ⟨old, hold, rfl⟩ := List.mem_map.mp hentry
  refine known_rename hhidden (ho old hold) fun a ha => ?_
  -- What a copied object refers to is copied as well.
  have hlt : a < h.size := by
    have hknown := ho old hold trivial
    rw [ha] at hknown
    exact hknown.1
  exact Heap.reachable_closed hb (Object.mem_references.mpr ⟨old, hold, ha⟩) hlt

/-- The objects of a copy, all of whose originals have known properties, may be met behind every
boundary that hides only objects that were there before. -/
theorem HeapKnown.copy (hheap : HeapKnown R h)
    (hobjects : R.drawn → ∀ b ∈ h.copied vs, ObjectKnown .clear h.size (h.get b)) :
    HeapKept R h (h.copy vs).2 := by
  refine hheap.extend (by rw [Heap.size_copy]; exact Nat.le_add_right _ _)
    (fun a => Heap.get?_copy_of_lt) ?_
  intro hdrawn a hle hlt
  obtain ⟨b, hb, hget⟩ := Heap.exists_get_copy hle hlt
  rw [hget]
  exact objectKnown_rename (fun hdrawn => (hheap hdrawn).1) hb (hobjects hdrawn b hb)

/-- Everything that is reached from known values may be met. -/
theorem HeapKnown.copied (hheap : HeapKnown R h) (hvs : ∀ v ∈ vs, Known R h.size v)
    (hdrawn : R.drawn) : ∀ b ∈ h.copied vs, ObjectKnown .clear h.size (h.get b) := by
  intro b hb
  -- The search starts at known objects, and from these it gets to known objects alone.
  have hall := Heap.reachFrom_forall (P := fun a => a < h.size ∧ ¬R.hidden a) ?_
    (fun a ha => absurd ha List.not_mem_nil) ?_ b (List.mem_reverse.mp hb)
  · exact ((hheap hdrawn).2 b hall.2 hall.1.2).clear hdrawn
  · rintro a ⟨hlt, ha⟩ c hc
    obtain ⟨entry, hentry, hvalue⟩ := Object.mem_references.mp hc
    have hknown := (hheap hdrawn).2 a hlt ha entry hentry hdrawn
    rw [hvalue] at hknown
    exact hknown
  · intro a ha
    obtain ⟨v, hv, haddress⟩ := List.mem_filterMap.mp ha
    have hknown := hvs v hv hdrawn
    rw [Value.address?_eq_some.mp haddress] at hknown
    exact hknown

theorem Known.mem_copied {v : Value} {a : Address} (hv : Known .clear h.size v) (hmem : v ∈ vs)
    (ha : v = .object a) : a ∈ h.copied vs := by
  subst ha
  exact Heap.mem_reachable_of_root (List.mem_filterMap.mpr ⟨_, hmem, rfl⟩) (hv trivial).1

theorem HeapKnown.copyValue {v : Value} (hheap : HeapKnown R h) (hv : Known R h.size v) :
    HeapKept R h (h.copyValue v).2 ∧ Known R (h.copyValue v).2.size (h.copyValue v).1 := by
  cases v with
  | object a =>
    have hvs : ∀ w ∈ [Value.object a], Known R h.size w := fun w hw => by
      rw [List.mem_singleton.mp hw]
      exact hv
    refine ⟨hheap.copy (hheap.copied hvs), fun hdrawn => ?_⟩
    exact known_rename (fun hdrawn => (hheap hdrawn).1) (hv.clear hdrawn)
      (fun b => (hv.clear hdrawn).mem_copied (List.mem_singleton.mpr rfl)) hdrawn
  | _ => exact ⟨.refl hheap, hv⟩

theorem keeps_copyValue {v : Value} (hv : Known R m.heap.size v) :
    Keeps R E m (Eval.copyValue v) (Eval.copyValue v) (Known R) :=
  keeps_modifyHeap (f := fun h => h.copyValue v) fun hheap => hheap.copyValue hv

/-- The values of a clone may be met behind every boundary that hides only objects that were there
before. -/
theorem knownEnv_clone {e : Environment} (hhidden : R.drawn → ∀ a, R.hidden a → a < h.size)
    (he : R.drawn → (knownEnv .clear).holds h.size e) :
    (knownEnv R).holds (e.clone h).2.size (e.clone h).1 := by
  intro binding hbinding hdrawn
  obtain ⟨old, hold, rfl⟩ := List.mem_map.mp hbinding
  have hv := he hdrawn old hold
  exact known_rename hhidden hv
    (fun a => hv.mem_copied (List.mem_map.mpr ⟨old, hold, rfl⟩)) hdrawn

theorem keeps_clone {e : Environment} (he : (knownEnv R).holds m.heap.size e) :
    Keeps R E m (Eval.clone e) (Eval.clone e) (knownEnv R).holds := by
  refine keeps_modifyHeap (f := fun h => e.clone h) fun hheap => ?_
  have hvs : ∀ v ∈ e.vars.entries.map Prod.snd, Known R m.heap.size v := by
    intro v hv
    obtain ⟨binding, hbinding, rfl⟩ := List.mem_map.mp hv
    exact he binding hbinding
  refine ⟨hheap.copy (hheap.copied hvs), ?_⟩
  exact knownEnv_clone (fun hdrawn => (hheap hdrawn).1) fun hdrawn binding hbinding =>
    (he binding hbinding).clear hdrawn

/-- The boundary that hides all objects that are there asks nothing of them. -/
theorem heapKnown_below (h : Heap) : HeapKnown (.below h.size) h :=
  fun _ => ⟨fun _ ha => ha, fun _ hlt ha => absurd hlt ha⟩

/-- A clone stands on this side of the boundary that hides all objects there were. -/
theorem keeps_clone_below {e : Environment}
    (hobjects : ∀ b ∈ m.heap.copied (e.vars.entries.map Prod.snd),
      ObjectKnown .clear m.heap.size (m.heap.get b))
    (he : (knownEnv .clear).holds m.heap.size e) :
    Keeps (.below m.heap.size) E m (Eval.clone e) (Eval.clone e)
      (knownEnv (.below m.heap.size)).holds := by
  refine keeps_modifyHeap (f := fun h => e.clone h) fun hheap => ?_
  exact ⟨hheap.copy fun _ => hobjects, knownEnv_clone (fun _ _ ha => ha) fun _ => he⟩

end Objects

/-! ### Environments and frames -/

section Frames

variable {R : Boundary} {E E' : EnvRule} {m : Machine} {P : Nat → α → Prop}

/-- A step in another environment: the one outside is not touched, whatever is known of it. -/
theorem keeps_inside {e : Environment} {x x' : Eval α} (he : E'.holds m.heap.size e)
    (hx : Keeps R E' { m with env := e } x x' P) : Keeps R E m (inside e x) (inside e x') P := by
  intro hheap henv
  obtain ⟨heq, hkept⟩ := hx hheap he
  rw [outcome_inside, outcome_inside, heq]
  rw [heq] at hkept
  exact ⟨rfl, ⟨hkept.grows.size, hkept.grows.hidden, hkept.grows.frames⟩, hkept.heap,
    E.mono hkept.grows.size henv, hkept.ends⟩

/-- A step in a new frame, which is gone afterwards. -/
theorem keeps_inFrame {config : Config} {name : String} {counted : Bool} {x x' : Eval α}
    (hx : Keeps R E { m with frames := ⟨name, counted, 0⟩ :: m.frames } x x' P) :
    Keeps R E m (inFrame config name counted x) (inFrame config name counted x') P := by
  intro hheap henv
  rw [outcome_inFrame, outcome_inFrame]
  by_cases hlimit : config.maxCallDepth ≤ m.frames.length
  · rw [if_pos hlimit, if_pos hlimit]
    exact keeps_fail _ hheap henv
  · obtain ⟨heq, hkept⟩ := hx hheap henv
    rw [if_neg hlimit, if_neg hlimit, heq]
    rw [heq] at hkept
    obtain ⟨count, -, hframes⟩ := hkept.grows.frames
    refine ⟨rfl, ⟨hkept.grows.size, hkept.grows.hidden, ?_⟩, hkept.heap, hkept.env, hkept.ends⟩
    simp only [hframes, List.tail_cons]
    exact .refl _

/-- Counting a statement touches the innermost frame alone. -/
theorem keeps_countStatement (config : Config) (statement : Node) :
    Keeps R E m (countStatement config statement) (countStatement config statement)
      fun _ _ => True := by
  intro hheap henv
  refine ⟨rfl, ?_⟩
  unfold countStatement
  rw [outcome_get_bind]
  cases hframes : m.frames with
  | nil => exact ⟨.refl R m, hheap, henv, trivial⟩
  | cons frame below =>
    simp only
    split
    · have hgrows : Grows R m { m with
          frames := { frame with statements := frame.statements + 1 } :: below } :=
        ⟨Nat.le_refl _, fun _ _ _ => rfl, hframes ▸ ⟨_, Nat.le_succ _, rfl⟩⟩
      rw [outcome_modify_bind]
      split
      · exact ⟨hgrows, hheap, henv, trivial⟩
      · exact ⟨hgrows, hheap, henv, trivial⟩
    · exact ⟨.refl R m, hheap, henv, trivial⟩

theorem keeps_atLine {x x' : Eval α} (line : Int) (hx : Keeps R E m x x' P) :
    Keeps R E m (atLine line x) (atLine line x') P := by
  refine hx.tryCatch fun i m' _ hi => ?_
  cases i with
  | failed failure =>
    cases failure with
    | fault f => exact keeps_throw trivial
    | crash c => exact keeps_throw trivial
  | returned v => exact keeps_throw hi
  | exited => exact keeps_throw trivial

/-- What is asked of a step whose `return` is caught. -/
def ReturnKnown (R : Boundary) (P : Nat → α → Prop) (n : Nat) : Except Value α → Prop
  | .ok a => P n a
  | .error v => Known R n v

theorem keeps_catchReturn {x x' : Eval α} (hx : Keeps R E m x x' P) :
    Keeps R E m (catchReturn x) (catchReturn x') (ReturnKnown R P) := by
  refine Keeps.tryCatch (hx.bind fun a m' _ ha => keeps_pure ha) fun i m' _ hi => ?_
  cases i with
  | failed failure => exact keeps_throw trivial
  | returned v => exact keeps_pure hi
  | exited => exact keeps_throw trivial

end Frames

end ModuLang
