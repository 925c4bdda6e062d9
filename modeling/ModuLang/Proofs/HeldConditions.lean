import ModuLang.Proofs.BoundNames
import ModuLang.Proofs.HostLimits
import ModuLang.Proofs.JsonText

/-!
# Conditions on what a program holds

A program holds the values of its bindings and the values in its objects. It gets new ones from its
literals, from operators, from native functions, from what it imports and from the lengths of the arrays
that it makes; everything else is bound, stored, copied, passed on and returned as it is. So a condition
on values that holds of all new ones holds of all values that the program ever has, in every environment
and every object, and in the files that it imports as well. The same is true of the names that it binds.

`Condition` lists what is asked of the new values, but for what depends on the machine: what a native
function makes, the number of arguments that a call collects, the names that a node binds and the text
of a file that it imports. `Condition.Suits` asks the rest of a node on a machine. `Condition.Stays` says
of a step that it keeps the condition, and there is one lemma for every construct of the language.
`Condition.meets_of_suits` is about the points of a run, and `Condition.meets_of_evaluates` about those
where names and texts do not matter.
-/

namespace ModuLang

open Eval Library

variable {α β : Type}

/-- A condition on the values that a program holds and on the names that it binds, with the nodes and
configurations that it runs under, and whether it may be exited. -/
structure Condition where
  value : Value → Prop
  name : String → Prop
  node : Node → Prop
  config : Config → Prop
  exits : Prop
  /-- Of the primitive values only integers can fail, and only those out of range. -/
  computable : Computable value
  object : ∀ a, value (.object a)
  /-- The method of objects that are made of documents. -/
  method : value (.native (.json .set))
  function : ∀ name params body, value (.function name params body) ↔ ∀ n ∈ body, node n
  literal : ∀ v line, node (.literal v line) → value v
  child : ∀ n c, node n → c ∈ n.children → node c
  withScript : ∀ c p, config c → config (c.withScript p)
  importable : ∀ c package members, config c → importable? c package = some members →
    ∀ member ∈ members, name member.1 ∧ value member.2

namespace Condition

variable {C : Condition} {m : Machine}

/-- Whether a node may be evaluated: the receiver of a method stands in a literal. -/
def Fits (C : Condition) (n : Node) : Prop :=
  C.node n ∨ ∃ a line, n = .literal (.object a) line

/-- Whether a step may be interrupted in a way. -/
def Interrupts (C : Condition) : Interrupt → Prop
  | .failed _ => True
  | .returned v => C.value v
  | .exited => C.exits

/-- Whether a name may be bound to a value. -/
def Binds (C : Condition) (x : String) (v : Value) : Prop :=
  C.name x ∧ C.value v

/-- Whether all names and values that a machine holds satisfy the condition. -/
structure Holds (C : Condition) (m : Machine) : Prop where
  env : m.env.AllBindings C.Binds
  heap : m.heap.All C.value

/-- What is asked of a result: of a value the given condition, and of an interrupt that it is
allowed. -/
def Ends (C : Condition) (P : α → Prop) : Except Interrupt α → Prop
  | .ok a => P a
  | .error i => C.Interrupts i

/-- Whether a step keeps the condition on a machine, and ends as asked. -/
def Stays (C : Condition) (m : Machine) (x : Eval α) (P : α → Prop) : Prop :=
  C.Holds m → C.Holds (x.outcome m).2 ∧ C.Ends P (x.outcome m).1

theorem rename (C : Condition) (f : Address → Address) (v : Value) (hv : C.value v) :
    C.value (v.rename f) := by
  cases v with
  | object a => exact C.object _
  | _ => exact hv

/-- The nodes inside a node that may be evaluated and is no literal. -/
theorem Fits.node {n : Node} (h : C.Fits n) (hne : ∀ v line, n ≠ .literal v line) : C.node n := by
  rcases h with h | ⟨a, line, rfl⟩
  · exact h
  · exact absurd rfl (hne _ line)

theorem Fits.child {n c : Node} (h : C.Fits n) (hne : ∀ v line, n ≠ .literal v line)
    (hc : c ∈ n.children) : C.Fits c :=
  .inl (C.child n c (h.node hne) hc)

/-! ### Rules -/

section Rules

variable {P : α → Prop} {Q : β → Prop} {x : Eval α}

theorem stays_pure {a : α} (ha : P a) : C.Stays m (pure a) P :=
  fun hm => ⟨hm, ha⟩

theorem stays_throw {i : Interrupt} (hi : C.Interrupts i) : C.Stays m (throw i) P :=
  fun hm => ⟨hm, hi⟩

theorem stays_fail (cause : Cause) : C.Stays m (fail cause) P :=
  stays_throw trivial

theorem stays_crash (c : Crash) : C.Stays m (crash c) P :=
  stays_throw trivial

theorem stays_ofExcept {r : Except Failure α} (hr : ∀ a, r = .ok a → P a) :
    C.Stays m (ofExcept r) P := by
  cases r with
  | ok a => exact stays_pure (hr a rfl)
  | error failure => exact stays_throw trivial

theorem stays_ofCause {r : Except Cause α} (hr : ∀ a, r = .ok a → P a) :
    C.Stays m (ofCause r) P := by
  cases r with
  | ok a => exact stays_pure (hr a rfl)
  | error cause => exact stays_throw trivial

/-- One step after another: the second one begins where the first one ends. -/
theorem Stays.bind {k : α → Eval β} (hx : C.Stays m x P)
    (hk : ∀ a m', x.outcome m = (.ok a, m') → P a → C.Stays m' (k a) Q) :
    C.Stays m (x >>= k) Q := by
  intro hm
  have hout := hx hm
  rw [outcome_bind]
  cases hends : x.outcome m with
  | mk r m' =>
    rw [hends] at hout
    cases r with
    | ok a => exact hk a m' hends hout.2 hout.1
    | error i => exact hout

theorem Stays.tryCatch {handler : Interrupt → Eval α} (hx : C.Stays m x P)
    (hhandler : ∀ i m', C.Interrupts i → C.Stays m' (handler i) P) :
    C.Stays m (tryCatch x handler) P := by
  intro hm
  have hout := hx hm
  rw [outcome_tryCatch]
  revert hout
  obtain ⟨r, m'⟩ := x.outcome m
  intro hout
  cases r with
  | ok a => exact hout
  | error i => exact hhandler i m' hout.2 hout.1

theorem Stays.congr {y : Eval α} (hx : C.Stays m x P) (h : y.outcome m = x.outcome m) :
    C.Stays m y P := by
  intro hm
  rw [h]
  exact hx hm

theorem Stays.weaken {P' : α → Prop} (hx : C.Stays m x P)
    (h : ∀ a m', x.outcome m = (.ok a, m') → P a → P' a) : C.Stays m x P' := by
  intro hm
  obtain ⟨hout, hends⟩ := hx hm
  refine ⟨hout, ?_⟩
  revert hends
  cases hresult : x.outcome m with
  | mk r m' =>
    intro hends
    cases r with
    | ok a => exact h a m' hresult hends
    | error i => exact hends

theorem stays_env : C.Stays m Eval.env (·.AllBindings C.Binds) :=
  fun hm => ⟨hm, hm.env⟩

theorem stays_heap : C.Stays m Eval.heap fun _ => True :=
  fun hm => ⟨hm, trivial⟩

theorem stays_object (a : Address) : C.Stays m (Eval.object a) (·.All C.value) :=
  fun hm => ⟨hm, hm.heap a⟩

theorem stays_display (v : Value) : C.Stays m (display v) fun _ => True :=
  stays_heap.bind fun _ _ _ _ => stays_ofCause fun _ _ => trivial

theorem stays_define {name : String} {v : Value} (hname : C.name name) (hv : C.value v) :
    C.Stays m (define name v) fun _ => True :=
  fun hm => ⟨⟨hm.env.define ⟨hname, hv⟩, hm.heap⟩, trivial⟩

theorem stays_alloc {o : Object} (ho : o.All C.value) : C.Stays m (alloc o) C.value :=
  fun hm => ⟨⟨hm.env, hm.heap.alloc ho⟩, C.object _⟩

theorem stays_setObject {a : Address} {o : Object} (ho : o.All C.value) :
    C.Stays m (setObject a o) fun _ => True :=
  fun hm => ⟨⟨hm.env, hm.heap.set ho⟩, trivial⟩

theorem stays_copyValue {v : Value} (hv : C.value v) : C.Stays m (copyValue v) C.value := by
  intro hm
  have hcopy := hm.heap.copyValue C.rename hv
  exact ⟨⟨hm.env, hcopy.2⟩, hcopy.1⟩

theorem stays_clone {e : Environment} (he : e.AllBindings C.Binds) :
    C.Stays m (clone e) (·.AllBindings C.Binds) := by
  intro hm
  have hclone := hm.heap.clone C.rename he
  exact ⟨⟨hm.env, hclone.2⟩, hclone.1⟩

theorem Stays.inside {e : Environment} (he : e.AllBindings C.Binds)
    (hx : C.Stays { m with env := e } x P) : C.Stays m (Eval.inside e x) P := by
  intro hm
  obtain ⟨hout, hends⟩ := hx ⟨he, hm.heap⟩
  exact ⟨⟨hm.env, hout.heap⟩, hends⟩

theorem Stays.inFrame (config : Config) (name : String) (counted : Bool)
    (hx : ∀ m, C.Stays m x P) : C.Stays m (Eval.inFrame config name counted x) P := by
  intro hm
  unfold Eval.inFrame
  rw [outcome_get_bind]
  simp only
  split
  · exact stays_fail _ hm
  · obtain ⟨hout, hends⟩ := hx { m with frames := ⟨name, counted, 0⟩ :: m.frames } ⟨hm.env, hm.heap⟩
    exact ⟨⟨hout.env, hout.heap⟩, hends⟩

theorem stays_countStatement (config : Config) (statement : Node) :
    C.Stays m (countStatement config statement) fun _ => True := by
  intro hm
  unfold countStatement
  rw [outcome_get_bind]
  split
  · exact ⟨hm, trivial⟩
  · split
    · rw [outcome_modify_bind]
      split
      · exact stays_fail _ ⟨hm.env, hm.heap⟩
      · exact ⟨⟨hm.env, hm.heap⟩, trivial⟩
    · exact ⟨hm, trivial⟩

theorem Stays.atLine (hx : C.Stays m x P) (line : Int) : C.Stays m (Eval.atLine line x) P := by
  refine hx.tryCatch fun i m' hi => ?_
  split
  · exact stays_throw trivial
  · exact stays_throw hi

theorem Stays.overflowAt (hx : C.Stays m x P) (line : Int) :
    C.Stays m (ModuLang.overflowAt line x) P := by
  refine hx.tryCatch fun i m' hi => ?_
  split
  · exact stays_throw trivial
  · exact stays_throw hi

theorem Stays.blameFile (hx : C.Stays m x P) (p : Host.Path) :
    C.Stays m (ModuLang.blameFile p x) P := by
  refine hx.tryCatch fun i m' hi => ?_
  split
  · split
    · exact stays_throw trivial
    · exact stays_fail _
  · exact stays_throw hi

/-- What is asked of a step whose `return` is caught. -/
def Returns (C : Condition) (P : α → Prop) : Except Value α → Prop
  | .ok a => P a
  | .error v => C.value v

theorem Stays.catchReturn (hx : C.Stays m x P) : C.Stays m (Eval.catchReturn x) (C.Returns P) := by
  have hcaught : C.Stays m (x >>= fun a => pure (.ok a) : Eval (Except Value α)) (C.Returns P) :=
    hx.bind fun a m' _ ha => stays_pure ha
  refine hcaught.tryCatch fun i m' hi => ?_
  split
  · exact stays_pure hi
  · exact stays_throw hi

theorem stays_null : C.Stays m (pure Value.null) C.value :=
  stays_pure C.computable.null

theorem stays_str (s : String) : C.Stays m (pure (Value.str s)) C.value :=
  stays_pure (C.computable.str s)

end Rules

end Condition

/-- The arguments of a call. -/
def Node.arguments : Node → List Node
  | .call _ args _ | .methodCall _ _ args _ => args
  | _ => []

/-- What can be said of a native function that is applied: it did not refuse to be called, and it gets
the values of the arguments, and its receiver besides if it is a method. -/
theorem Applies.accepted {ev : Evaluator} {config : Config} {m m' : Machine} {node : Node}
    {f : Native} {vs : List Value} (h : Applies ev config m node f vs m') :
    f.refusal? = none ∧ vs.length ≤ node.arguments.length + 1 := by
  have harguments : ∀ {args : List Node} {m : Machine},
      (nativeArguments ev config f args).outcome m = (.ok vs, m') →
        f.refusal? = none ∧ vs.length = args.length := by
    intro args m hout
    obtain ⟨_, m₁, -, hout⟩ := outcome_bind_eq_ok hout
    cases hrefusal : f.refusal? with
    | none =>
      rw [hrefusal] at hout
      exact ⟨rfl, length_evaluateAll hout⟩
    | some cause =>
      rw [hrefusal] at hout
      cases hout
  -- A method gets one value more, its receiver.
  cases h with
  | named _ hout =>
    obtain ⟨hrefusal, hlength⟩ := harguments hout
    exact ⟨hrefusal, hlength ▸ Nat.le_succ _⟩
  | @property object callee _ args line a _ m₁ _ _ hout =>
    obtain ⟨hrefusal, hlength⟩ := harguments hout
    refine ⟨hrefusal, ?_⟩
    unfold receiverFirst at hlength
    split at hlength
    · exact hlength ▸ Nat.le_refl _
    · exact hlength ▸ Nat.le_succ _

/-! ### What native functions make -/

/-- The integers in the value of a document: those of the document, and the lengths of its arrays. The
method takes the place of a member named `set`. -/
inductive Json.Numbers : Json → Int → Prop where
  | int {n : Int} : Numbers (.int n) n
  | length {items : List Json} : Numbers (.array items) items.length
  | item {items : List Json} {j : Json} {n : Int} : j ∈ items → Numbers j n →
      Numbers (.array items) n
  | member {members : List (String × Json)} {name : String} {j : Json} {n : Int} :
      (name, j) ∈ members → (name = "set" → ∀ k, j ≠ .int k) → Numbers j n →
      Numbers (.object members) n

/-- The integers that the application of a native function makes on a machine without a check. All
other integers that a native function gives or stores are in range, or they are among its arguments. -/
inductive Native.Makes [Host.Limits] (m : Machine) : Native → List Value → Int → Prop where
  | int {v : Value} {n : Int} : toInt v = .ok (.int n) → Makes m (.builtin .int) [v] n
  | now {vs : List Value} : Makes m (.time .now) vs m.world.clock
  | push {a : Address} {item : Value} {n : Int} :
      ((m.heap.copyValue item).2.get a).length = .ok n →
      Makes m (.array .push) [.object a, item] (n + 1)
  | pop {a : Address} {n : Int} : (m.heap.get a).length = .ok n → 1 ≤ n →
      Makes m (.array .pop) [.object a] (n - 1)
  | shift {a : Address} {first : Value} {rest : List Value} :
      (m.heap.get a).elements = .ok (first :: rest) → Makes m (.array .shift) [.object a] rest.length
  | unshift {a : Address} {item : Value} {items : List Value} :
      ((m.heap.copyValue item).2.get a).elements = .ok items →
      Makes m (.array .unshift) [.object a, item] (items.length + 1)
  | parse {text : String} {j : Json} {n : Int} : Json.parse text = .ok j → ¬j.IsScalar →
      j.Numbers n → Makes m (.json .parse) [.str text] n

namespace Condition

variable {C : Condition} {m : Machine}

section Natives

/-- A step that touches the world alone keeps the condition, unless it ends a run that may not be
exited. -/
theorem stays_of_worldly {x : Eval Value} (hx : Worldly x C.value)
    (hexit : Raises (fun i => i = .exited → C.exits) m x) : C.Stays m x C.value := by
  intro hm
  obtain ⟨⟨w, hmachine⟩, hends⟩ := hx m
  cases hout : x.outcome m with
  | mk r m' =>
    rw [hout] at hmachine hends
    obtain rfl : m' = { m with world := w } := hmachine
    refine ⟨⟨hm.env, hm.heap⟩, ?_⟩
    cases r with
    | ok v => exact hends
    | error i =>
      cases i with
      | failed failure => trivial
      | returned v => exact absurd rfl (hends v)
      | exited => exact hexit _ _ hout rfl

theorem stays_arrayAddress (function : String) (v : Value) :
    C.Stays m (arrayAddress function v) fun _ => True := by
  unfold arrayAddress
  split
  · exact stays_pure trivial
  · exact stays_fail _

theorem stays_arrayAt (array index : Value) : C.Stays m (arrayAt array index) C.value := by
  unfold arrayAt
  split
  · refine (stays_ofCause (P := fun _ => True) fun _ _ => trivial).bind fun key m' _ _ => ?_
    refine (stays_object _).bind fun o m'' _ ho => ?_
    split
    · next value hvalue => exact stays_pure (ho.get? hvalue)
    · exact stays_fail _
  · exact stays_fail _

/-- Adding an element keeps the condition if the operation on the array does. -/
theorem stays_arrayAdd (function : String) {operation : Object → Value → Except Cause Object}
    {array item : Value} (hitem : C.value item)
    (hoperation : ∀ a v o', array = .object a → C.value v →
      ((m.heap.copyValue item).2.get a).All C.value →
      operation ((m.heap.copyValue item).2.get a) v = .ok o' → o'.All C.value) :
    C.Stays m (arrayAdd function operation array item) C.value := by
  refine (stays_arrayAddress function array).bind fun a m₁ haddr _ => ?_
  obtain ⟨rfl, rfl⟩ := outcome_arrayAddress haddr
  -- The item is copied before the array is read, so the array is the one of the heap with the copy.
  refine (stays_copyValue hitem).bind fun copy m₂ hcopied hcopy => ?_
  cases hcopied
  refine (stays_object a).bind fun o m₃ hobject ho => ?_
  cases hobject
  refine (stays_ofCause fun o' ho' => hoperation a _ o' rfl hcopy ho ho').bind fun o' m₄ _ ho' => ?_
  exact (stays_setObject ho').bind fun _ _ _ _ => stays_null

/-- Taking an element keeps the condition if the operation on the array does. -/
theorem stays_arrayTake (function : String) {operation : Object → Except Cause (Value × Object)}
    {array : Value}
    (hoperation : ∀ a v o', array = .object a → (m.heap.get a).All C.value →
      operation (m.heap.get a) = .ok (v, o') → C.value v ∧ o'.All C.value) :
    C.Stays m (arrayTake function operation array) C.value := by
  refine (stays_arrayAddress function array).bind fun a m₁ haddr _ => ?_
  obtain ⟨rfl, rfl⟩ := outcome_arrayAddress haddr
  refine (stays_object a).bind fun o m₂ hobject ho => ?_
  cases hobject
  refine (stays_ofCause (P := fun taken => C.value taken.1 ∧ taken.2.All C.value)
    fun taken htaken => hoperation a _ _ rfl ho htaken).bind fun taken m₃ _ htaken => ?_
  exact (stays_setObject htaken.2).bind fun _ _ _ _ => stays_pure htaken.1

theorem stays_applyArray [Host.Limits] (f : ArrayFunction) {vs : List Value}
    (hvs : ∀ v ∈ vs, C.value v) (hmakes : ∀ n, Native.Makes m (.array f) vs n → C.value (.int n)) :
    C.Stays m (applyArray f vs) C.value := by
  unfold applyArray
  split
  · exact stays_alloc (Object.all_ofElements (C.computable.number 0 rfl) fun v hv =>
      absurd hv List.not_mem_nil)
  · exact stays_arrayAt _ _
  · refine stays_arrayAdd _ (hvs _ (by simp)) fun a v o' harray hv ho h => ?_
    subst harray
    exact ho.push hv (fun n hn => hmakes _ (.push hn)) h
  · refine stays_arrayTake _ fun a v o' harray ho h => ?_
    subst harray
    exact ho.pop (fun n hn hpos => hmakes _ (.pop hn hpos)) h
  · refine stays_arrayTake _ fun a v o' harray ho h => ?_
    subst harray
    exact ho.shift (fun first rest hrest => hmakes _ (.shift hrest)) h
  · refine stays_arrayAdd _ (hvs _ (by simp)) fun a v o' harray hv ho h => ?_
    subst harray
    exact ho.unshift hv (fun items hitems => hmakes _ (.unshift hitems)) h
  · exact stays_null

theorem stays_jsonSet (receiver key : Value) {value : Value} (hvalue : C.value value) :
    C.Stays m (jsonSet receiver key value) C.value := by
  unfold jsonSet
  split
  · refine (stays_object _).bind fun o m₁ _ _ => ?_
    split
    · exact stays_fail _
    · refine (stays_copyValue hvalue).bind fun copy m₂ _ hcopy => ?_
      refine (stays_object _).bind fun o m₃ _ ho => ?_
      exact (stays_setObject (ho.set hcopy)).bind fun _ _ _ _ => stays_pure (C.object _)
  · exact stays_fail _
  · exact stays_fail _

theorem stays_jsonStringify [Host.Limits] (v : Value) : C.Stays m (jsonStringify v) C.value := by
  unfold jsonStringify
  split
  · refine stays_heap.bind fun h m₁ _ _ => ?_
    refine (stays_ofExcept (P := fun _ => True) fun _ _ => trivial).bind fun _ _ _ _ => ?_
    refine (stays_ofCause (P := fun _ => True) fun _ _ => trivial).bind fun _ _ _ _ => ?_
    exact stays_str _
  · exact stays_fail _

mutual

/-- The value of a document satisfies the condition if its numbers do: all else that it holds are other
primitive values, objects and the method that sets a member. -/
theorem all_build {h : Heap} (hh : h.All C.value) (j : Json)
    (hnumbers : ∀ n, j.Numbers n → C.value (.int n)) :
    C.value (j.build h).1 ∧ (j.build h).2.All C.value := by
  cases j with
  | int n =>
    rw [Json.build]
    exact ⟨hnumbers n .int, hh⟩
  | null | bool b | float x | str s =>
    rw [Json.build]
    exact ⟨C.computable.other _ trivial (by simp), hh⟩
  | array items =>
    obtain ⟨hlength, hitems, hheap⟩ := all_buildItems hh items fun n j hj hn =>
      hnumbers n (.item hj hn)
    rw [Json.build]
    refine ⟨C.object _, hheap.alloc (Object.all_ofElements ?_ hitems)⟩
    rw [hlength]
    exact hnumbers _ .length
  | object members =>
    obtain ⟨hmembers, hheap⟩ := all_buildMembers hh members fun n name j hj hset hn =>
      hnumbers n (.member hj hset hn)
    rw [Json.build]
    exact ⟨C.object _, hheap.alloc (Object.all_record C.method hmembers)⟩

theorem all_buildItems {h : Heap} (hh : h.All C.value) (items : List Json)
    (hnumbers : ∀ n, ∀ j ∈ items, j.Numbers n → C.value (.int n)) :
    (Json.buildItems h items).1.length = items.length ∧
      (∀ v ∈ (Json.buildItems h items).1, C.value v) ∧ (Json.buildItems h items).2.All C.value := by
  cases items with
  | nil =>
    rw [Json.buildItems]
    exact ⟨rfl, fun v hv => absurd hv List.not_mem_nil, hh⟩
  | cons item rest =>
    obtain ⟨hvalue, hfirst⟩ := all_build hh item fun n hn => hnumbers n item List.mem_cons_self hn
    obtain ⟨hlength, hvalues, hrest⟩ := all_buildItems hfirst rest fun n j hj hn =>
      hnumbers n j (List.mem_cons_of_mem _ hj) hn
    rw [Json.buildItems]
    refine ⟨congrArg (· + 1) hlength, fun v hv => ?_, hrest⟩
    rcases List.mem_cons.mp hv with rfl | hv
    · exact hvalue
    · exact hvalues v hv

theorem all_buildMembers {h : Heap} (hh : h.All C.value) (members : List (String × Json))
    (hnumbers : ∀ n name j, (name, j) ∈ members → (name = "set" → ∀ k, j ≠ .int k) → j.Numbers n →
      C.value (.int n)) :
    (∀ member ∈ (Json.buildMembers h members).1, member.1 ≠ "set" → C.value member.2) ∧
      (Json.buildMembers h members).2.All C.value := by
  cases members with
  | nil =>
    rw [Json.buildMembers]
    exact ⟨fun v hv => absurd hv List.not_mem_nil, hh⟩
  | cons member rest =>
    obtain ⟨name, item⟩ := member
    have hfirst : (name ≠ "set" → C.value (item.build h).1) ∧ (item.build h).2.All C.value := by
      by_cases hreplaced : name = "set" ∧ ∃ k, item = .int k
      · -- An integer that the method replaces is never held.
        obtain ⟨hname, k, rfl⟩ := hreplaced
        rw [Json.build]
        exact ⟨fun hne => absurd hname hne, hh⟩
      · have hset : name = "set" → ∀ k, item ≠ .int k := fun hname k hk =>
          hreplaced ⟨hname, k, hk⟩
        obtain ⟨hvalue, hheap⟩ := all_build hh item fun n hn =>
          hnumbers n name item List.mem_cons_self hset hn
        exact ⟨fun _ => hvalue, hheap⟩
    obtain ⟨hvalues, hrest⟩ := all_buildMembers hfirst.2 rest fun n name j hj hset hn =>
      hnumbers n name j (List.mem_cons_of_mem _ hj) hset hn
    rw [Json.buildMembers]
    refine ⟨fun v hv hne => ?_, hrest⟩
    rcases List.mem_cons.mp hv with rfl | hv
    · exact hfirst.1 hne
    · exact hvalues v hv hne

end

variable [Host.Limits]

theorem stays_jsonParse (v : Value)
    (hmakes : ∀ n, Native.Makes m (.json .parse) [v] n → C.value (.int n)) :
    C.Stays m (jsonParse v) C.value := by
  unfold jsonParse
  split
  · next text =>
    refine (stays_ofExcept (P := fun j => Json.parse text = .ok j) fun j hj => hj).bind
      fun j m₁ hread hj => ?_
    -- Reading a text leaves the machine alone, so the numbers are made on the one at hand.
    have hsame : m₁ = m := by
      rw [hj] at hread
      cases hread
      rfl
    subst hsame
    have hbuild : ¬j.IsScalar → C.Holds m₁ →
        C.Holds { m₁ with heap := (j.build m₁.heap).2 } ∧ C.value (j.build m₁.heap).1 := by
      intro hroot hm
      obtain ⟨hvalue, hheap⟩ := all_build hm.heap j fun n hn => hmakes n (.parse hj hroot hn)
      exact ⟨⟨hm.env, hheap⟩, hvalue⟩
    split
    · exact hbuild not_false
    · exact hbuild not_false
    · exact stays_fail _
  · exact stays_fail _

theorem stays_applyJson (f : JsonFunction) {vs : List Value} (hvs : ∀ v ∈ vs, C.value v)
    (hmakes : ∀ n, Native.Makes m (.json f) vs n → C.value (.int n)) :
    C.Stays m (applyJson f vs) C.value := by
  unfold applyJson
  split
  · exact stays_alloc (Object.all_record C.method fun member hmember => absurd hmember List.not_mem_nil)
  · exact stays_jsonStringify _
  · exact stays_jsonParse _ hmakes
  · exact stays_jsonSet _ _ (hvs _ (by simp))
  · exact stays_null

/-- A native function keeps the condition if all integers that it makes satisfy it. -/
theorem stays_native (f : Native) {vs : List Value} (hvs : ∀ v ∈ vs, C.value v)
    (hmakes : ∀ n, f.Makes m vs n → C.value (.int n))
    (hexit : ∀ onServer, f = .builtin (.exit onServer) → C.exits) :
    C.Stays m (f.apply vs) C.value := by
  have hraises : Raises (fun i => i = .exited → C.exits) m (f.apply vs) := by
    refine (raises_native f vs).mono fun i hi => ?_
    rintro rfl
    obtain ⟨onServer, hf⟩ := hi
    exact hexit onServer hf
  -- Functions but for those of documents and arrays touch the world alone.
  by_cases hf : f.IsWorldly
  · by_cases hnow : f = .time .now
    · subst hnow
      exact fun hm => ⟨hm, hmakes _ .now⟩
    · have hworldly : Worldly (f.apply vs) C.value := by
        refine worldly_native_of C.computable hf (fun n hn => hvs _ hn) ?_ fun h => absurd h hnow
        rintro rfl v n rfl hv
        exact hmakes n (.int hv)
      exact stays_of_worldly hworldly hraises
  · cases f with
    | json f => exact stays_applyJson f hvs hmakes
    | array f => exact stays_applyArray f hvs hmakes
    | _ => exact absurd trivial hf

end Natives

/-! ### The constructs of the language -/

/-- Whether an evaluator keeps the condition at the nodes that may be evaluated. -/
def Keeping (C : Condition) (ev : Evaluator) : Prop :=
  ∀ config node m, C.config config → C.Fits node → C.Stays m (ev config node) C.value

/-- Whether the native functions that a node applies on a machine keep the condition. -/
def NativesStay [Host.Limits] (C : Condition) (ev : Evaluator) (config : Config) (m : Machine)
    (node : Node) : Prop :=
  ∀ f vs m', Applies ev config m node f vs m' → C.value (.native f) → (∀ v ∈ vs, C.value v) →
    C.Stays m' (f.apply vs) C.value

/-- Whether as many arguments as there are in a call, or fewer, can be collected. -/
def Collects (C : Condition) (args : List Node) : Prop :=
  ∀ n : Nat, n ≤ args.length → C.value (.int n)

/-- What the condition asks of a node on a machine, besides that it may be evaluated. -/
structure Suits [Host.Limits] (C : Condition) (ev : Evaluator) (config : Config) (m : Machine)
    (node : Node) :
    Prop where
  collects : C.Collects node.arguments
  natives : C.NativesStay ev config m node
  names : ∀ x, BindsName ev config m node x → C.name x
  files : ∀ path text, ReadsFile config m node path text →
    ∀ n ∈ (Source.parse text).statements, C.node n

section Constructs

variable {ev : Evaluator} {config : Config} (hev : C.Keeping ev) (hconfig : C.config config)

theorem stays_checkArity (name : String) (params : List String) (count : Nat) :
    C.Stays m (checkArity name params count) fun _ => True := by
  unfold checkArity
  split
  · exact stays_pure trivial
  · exact stays_fail _

/-- The environment of a body has the names of the caller's environment, and the parameters. -/
theorem stays_bindArguments {callEnv : Environment} (params : List String) {values : List Value}
    (hcall : callEnv.AllBindings C.Binds) (hvalues : ∀ v ∈ values, C.value v)
    (hcollects : ∀ n : Nat, n ≤ values.length → C.value (.int n)) :
    C.Stays m (bindArguments callEnv params values)
      (·.AllBindings fun x v => (C.name x ∨ x ∈ params) ∧ C.value v) := by
  have hbound : ∀ {names : List String}, (∀ x ∈ names, x ∈ params) →
      (bindParameters callEnv names values).AllBindings fun x v =>
        (C.name x ∨ x ∈ params) ∧ C.value v := by
    intro names hnames
    refine Environment.AllBindings.bindParameters names
      (fun binding hbinding => (hcall binding hbinding).imp_left .inl) fun x hx v hv => ?_
    rcases hv with rfl | hv
    · exact ⟨.inr (hnames x hx), C.computable.null⟩
    · exact ⟨.inr (hnames x hx), hvalues v hv⟩
  unfold bindArguments
  split
  · next hvariadic =>
    have hrestName : restParameter ∈ params :=
      List.mem_of_getLast? (by simpa [isVariadic] using hvariadic)
    have hlength : (values.drop params.dropLast.length).length ≤ values.length := by
      rw [List.length_drop]
      omega
    have hrest : (Object.ofElements (values.drop params.dropLast.length)).All C.value :=
      Object.all_ofElements (hcollects _ hlength) fun v hv => hvalues v (List.mem_of_mem_drop hv)
    refine (stays_alloc hrest).bind fun rest m' _ hrest => stays_pure ?_
    exact (hbound fun x hx => List.mem_of_mem_dropLast hx).define ⟨.inr hrestName, hrest⟩
  · exact stays_pure (hbound fun x hx => hx)

theorem stays_addressOf (v : Value) : C.Stays m (addressOf v) fun _ => True := by
  unfold addressOf
  split
  · exact stays_pure trivial
  · exact (stays_display _).bind fun _ _ _ _ => stays_fail _

theorem stays_bindImport {asName : Option String} {target : String} {members : List (String × Value)}
    (hname : asName ≠ some "*" → C.name (chosenName asName target))
    (hmembers : ∀ member ∈ members, C.Binds member.1 member.2) :
    C.Stays m (bindImport asName (importedName target) members) fun _ => True := by
  unfold bindImport
  split
  · exact fun hm => ⟨⟨hm.env.update hmembers, hm.heap⟩, trivial⟩
  · next hstar =>
    have hproperties := Object.all_ofList fun member hmember => (hmembers member hmember).2
    refine (stays_alloc hproperties).bind fun _ _ _ hvalue => stays_define (hname ?_) hvalue
    exact fun heq => hstar (beq_iff_eq.mpr heq)

include hev hconfig

theorem stays_evaluateAll {nodes : List Node} (hnodes : ∀ node ∈ nodes, C.Fits node) :
    C.Stays m (evaluateAll ev config nodes) fun vs =>
      (∀ v ∈ vs, C.value v) ∧ vs.length = nodes.length := by
  induction nodes generalizing m with
  | nil => exact stays_pure ⟨fun v hv => absurd hv List.not_mem_nil, rfl⟩
  | cons node rest ih =>
    refine (hev config node m hconfig (hnodes node List.mem_cons_self)).bind fun value m₁ _ hvalue => ?_
    refine (ih fun node hnode => hnodes node (List.mem_cons_of_mem _ hnode)).bind
      fun values m₂ _ hvalues => stays_pure ⟨fun v hv => ?_, congrArg (· + 1) hvalues.2⟩
    rcases List.mem_cons.mp hv with rfl | hv
    · exact hvalue
    · exact hvalues.1 v hv

theorem stays_evaluateProperties {properties : List (String × Node)}
    (hproperties : ∀ p ∈ properties, C.Fits p.2) :
    C.Stays m (evaluateProperties ev config properties) fun entries =>
      ∀ entry ∈ entries, C.value entry.2 := by
  induction properties generalizing m with
  | nil => exact stays_pure fun entry hentry => absurd hentry List.not_mem_nil
  | cons property rest ih =>
    have hfirst := hev config property.2 m hconfig (hproperties property List.mem_cons_self)
    refine hfirst.bind fun value m₁ _ hvalue => (stays_copyValue hvalue).bind fun copy m₂ _ hcopy => ?_
    refine (ih fun p hp => hproperties p (List.mem_cons_of_mem _ hp)).bind
      fun entries m₃ _ hentries => stays_pure fun entry hentry => ?_
    rcases List.mem_cons.mp hentry with rfl | hentry
    · exact hcopy
    · exact hentries entry hentry

theorem stays_runBlock {nodes : List Node} (hnodes : ∀ node ∈ nodes, C.node node) :
    C.Stays m (runBlock ev config nodes) fun _ => True := by
  induction nodes generalizing m with
  | nil => exact stays_pure trivial
  | cons statement rest ih =>
    refine (stays_countStatement config statement).bind fun _ m₁ _ _ => ?_
    refine (hev config statement m₁ hconfig (.inl (hnodes statement List.mem_cons_self))).bind
      fun _ m₂ _ _ => ?_
    exact ih fun node hnode => hnodes node (List.mem_cons_of_mem _ hnode)

theorem stays_runBody (passesOver : Bool) {nodes : List Node} (hnodes : ∀ node ∈ nodes, C.node node) :
    C.Stays m (runBody ev config passesOver nodes) C.value := by
  induction nodes generalizing m with
  | nil => exact stays_null
  | cons statement rest ih =>
    have hrest : ∀ m, C.Stays m (runBody ev config passesOver rest) C.value := fun m =>
      ih fun node hnode => hnodes node (List.mem_cons_of_mem _ hnode)
    refine (stays_countStatement config statement).bind fun _ m₁ _ _ => ?_
    have hfirst := hev config statement m₁ hconfig (.inl (hnodes statement List.mem_cons_self))
    refine hfirst.catchReturn.bind fun result m₂ _ hresult => ?_
    cases result with
    | ok _ => exact hrest m₂
    | error value =>
      -- What is returned is the value of the body, unless the body goes on behind a return.
      cases passesOver with
      | true => exact hrest m₂
      | false => exact stays_pure hresult

theorem stays_runStatements (failure : Option Failure) {nodes : List Node}
    (hnodes : ∀ node ∈ nodes, C.node node) :
    C.Stays m (runStatements ev config failure nodes) fun _ => True := by
  induction nodes generalizing m with
  | nil =>
    cases failure with
    | none => exact stays_pure trivial
    | some failure => exact stays_throw trivial
  | cons statement rest ih =>
    refine (hev config statement m hconfig (.inl (hnodes statement List.mem_cons_self))).bind
      fun _ m₁ _ _ => ?_
    exact ih fun node hnode => hnodes node (List.mem_cons_of_mem _ hnode)

theorem stays_runTopLevel (failure : Option Failure) (line : Int) {nodes : List Node}
    (hnodes : ∀ node ∈ nodes, C.node node) :
    C.Stays m (runTopLevel ev config failure line nodes) fun _ => True := by
  induction nodes generalizing m line with
  | nil =>
    cases failure with
    | none => exact stays_pure trivial
    | some failure => exact Stays.overflowAt (stays_throw (i := .failed failure) trivial) line
  | cons statement rest ih =>
    have hfirst := hev config statement m hconfig (.inl (hnodes statement List.mem_cons_self))
    refine (hfirst.overflowAt _).bind fun _ m₁ _ _ => ?_
    exact ih _ fun node hnode => hnodes node (List.mem_cons_of_mem _ hnode)

/-- A call gets to the start of its body in an environment that satisfies the condition, if the
parameters that it binds do. -/
theorem stays_enterCall {name : String} {params : List String} {args : List Node}
    (hargs : ∀ arg ∈ args, C.Fits arg) (hcollects : C.Collects args)
    (hparams : ∀ bound start, (enterCall ev config name params args).outcome m = (.ok bound, start) →
      ∀ x ∈ params, C.name x) :
    C.Stays m (enterCall ev config name params args) fun bound => bound.2.AllBindings C.Binds := by
  have hbound : C.Stays m (enterCall ev config name params args) fun bound =>
      bound.2.AllBindings fun x v => (C.name x ∨ x ∈ params) ∧ C.value v := by
    refine (stays_checkArity _ _ _).bind fun _ m₁ _ _ => stays_env.bind fun e m₂ _ he => ?_
    refine (stays_clone he).bind fun callEnv m₃ _ hcall => ?_
    -- The arguments are evaluated in a clone of the environment in which they are then bound.
    have hvalues : C.Stays m₃ (argumentValues ev config callEnv args) fun vs =>
        (∀ v ∈ vs, C.value v) ∧ vs.length = args.length :=
      (stays_clone hcall).bind fun argEnv m₄ _ hargEnv =>
        (stays_evaluateAll hev hconfig hargs).inside hargEnv
    refine hvalues.bind fun values m₅ _ hvalues => ?_
    refine (stays_bindArguments params hcall hvalues.1 fun n hn => ?_).bind fun bodyEnv m₆ _ hbody =>
      stays_pure hbody
    exact hcollects n (hvalues.2 ▸ hn)
  refine hbound.weaken fun bound start hstart hbindings binding hbinding => ?_
  obtain ⟨hname, hvalue⟩ := hbindings binding hbinding
  exact ⟨hname.elim id (hparams bound start hstart _), hvalue⟩

theorem stays_callFunction (passesOver : Bool) {name : String} {params : List String}
    {body args : List Node} (hbody : ∀ node ∈ body, C.node node) (hargs : ∀ arg ∈ args, C.Fits arg)
    (hcollects : C.Collects args)
    (hparams : ∀ bound start, (enterCall ev config name params args).outcome m = (.ok bound, start) →
      ∀ x ∈ params, C.name x) :
    C.Stays m (callFunction ev config passesOver name params body args) C.value := by
  rw [callFunction_eq_enterCall]
  refine (stays_enterCall hev hconfig hargs hcollects hparams).bind fun bound m₁ _ hbound => ?_
  refine Stays.inside hbound (Stays.inFrame config name true fun m => ?_)
  exact stays_runBody hev hconfig passesOver hbody

theorem stays_callNative [Host.Limits] (f : Native) {args : List Node}
    (hargs : ∀ arg ∈ args, C.Fits arg)
    (happly : ∀ vs m', (nativeArguments ev config f args).outcome m = (.ok vs, m') →
      (∀ v ∈ vs, C.value v) → C.Stays m' (f.apply vs) C.value) :
    C.Stays m (callNative ev config f args) C.value := by
  have harguments : C.Stays m (nativeArguments ev config f args) fun vs => ∀ v ∈ vs, C.value v := by
    refine (stays_checkArity _ _ _).bind fun _ m₁ _ _ => ?_
    cases f.refusal? with
    | some cause => exact stays_fail _
    | none =>
      intro hm
      have hall := stays_evaluateAll hev hconfig hargs hm
      refine ⟨hall.1, ?_⟩
      revert hall
      obtain ⟨r, m'⟩ := (evaluateAll ev config args).outcome m₁
      intro hall
      cases r with
      | ok vs => exact hall.2.1
      | error i => exact hall.2
  intro hm
  rw [outcome_callNative]
  exact harguments.bind happly hm

theorem stays_callNamed [Host.Limits] (name : String) {args : List Node} {line : Int}
    (hargs : ∀ arg ∈ args, C.Fits arg) (hsuits : C.Suits ev config m (.call name args line)) :
    C.Stays m (callNamed ev config name args) C.value := by
  unfold callNamed
  refine stays_env.bind fun e m₁ henv he => ?_
  cases henv
  split
  · exact stays_fail _
  · next fname params body hname =>
    have hbody := (C.function fname params body).mp (he.get? hname).2
    exact stays_callFunction hev hconfig _ hbody hargs hsuits.collects fun bound start hstart x hx =>
      hsuits.names x (.parameter (.named hname) hstart hx)
  · next f hname =>
    refine stays_callNative hev hconfig f hargs fun vs m' hout hvs => ?_
    exact hsuits.natives f vs m' (.named hname hout) (he.get? hname).2 hvs
  · exact stays_fail _

theorem stays_resolveObject {node : Node} (hnode : C.Fits node) :
    C.Stays m (resolveObject ev config node) fun _ => True := by
  unfold resolveObject
  split
  · refine stays_env.bind fun e m₁ _ _ => ?_
    split
    · exact stays_addressOf _
    · exact stays_fail _
  · exact (hev config _ m hconfig hnode).bind fun v m₁ _ _ => stays_addressOf v

theorem stays_memberOf {node : Node} (name : String) (hnode : C.Fits node) :
    C.Stays m (memberOf ev config node name) fun member => C.value member.2 := by
  refine (stays_resolveObject hev hconfig hnode).bind fun a m₁ _ _ => ?_
  refine (stays_object a).bind fun o m₂ _ ho => ?_
  split
  · next hvalue => exact stays_pure (ho.get? hvalue)
  · exact stays_fail _

variable [Host.Limits]

theorem stays_callMember {node : Node} (name : String) {args : List Node} (line : Int)
    (hnode : C.Fits node) (hargs : ∀ arg ∈ args, C.Fits arg)
    (hsuits : C.Suits ev config m (.methodCall node name args line)) :
    C.Stays m (callMember ev config node name args line) C.value := by
  refine (stays_memberOf hev hconfig name hnode).bind fun member m₁ hmember hvalue => ?_
  obtain ⟨a, member⟩ := member
  cases member with
  | native f =>
    have hcall : C.Stays m₁ (callNative ev config f (receiverFirst m₁.heap a name args line))
        C.value := by
      refine stays_callNative hev hconfig f (fun arg harg => ?_) fun vs m' hout hvs =>
        hsuits.natives f vs m' (.property hmember hout) hvalue hvs
      unfold receiverFirst at harg
      split at harg
      · -- A method gets its receiver as a literal in front of the arguments.
        rcases List.mem_cons.mp harg with rfl | harg
        · exact .inr ⟨a, line, rfl⟩
        · exact hargs arg harg
      · exact hargs arg harg
    exact hcall
  | function fname params body =>
    have hbody := (C.function fname params body).mp hvalue
    exact stays_callFunction hev hconfig _ hbody hargs hsuits.collects fun bound start hstart x hx =>
      hsuits.names x (.parameter (.property hmember) hstart hx)
  | _ => exact stays_fail _

/-- An imported file is a program of its own, in a configuration for that file. -/
theorem stays_loadFile {target : String}
    (hfiles : ∀ path text, NamesFile config m.world target path text →
      ∀ n ∈ (Source.parse text).statements, C.node n) :
    C.Stays m (loadFile ev config target) fun members =>
      ∀ member ∈ members, C.Binds member.1 member.2 := by
  rcases namesFile_or_refused config m.world target with ⟨path, text, hnames⟩ | ⟨failure, hrefused⟩
  · have hclone : C.Stays m (env >>= fun e => clone e >>= fun moduleEnv => inside moduleEnv do
        runModule ev (config.withScript path) path text
        return (← env).boundSinceCreation) fun members =>
          ∀ member ∈ members, C.Binds member.1 member.2 := by
      refine stays_env.bind fun e m₁ _ he => (stays_clone he).bind fun moduleEnv m₂ _ hmodule => ?_
      refine Stays.inside hmodule (Stays.bind (P := fun _ => True) ?_ fun _ m₃ _ _ =>
        stays_env.bind fun e m₄ _ he => stays_pure he.boundSinceCreation)
      refine (Stays.inFrame (P := fun _ => True) _ _ _ fun m => ?_).blameFile path
      exact stays_runStatements hev (C.withScript config path hconfig) _ (hfiles path text hnames)
    exact hclone.congr (hnames.outcome_loadFile ev)
  · exact (stays_throw (i := .failed failure) trivial).congr (hrefused.outcome_loadFile ev)

theorem stays_importTarget {target : Quotation} {asName : Option String} {line : Int}
    (hsuits : C.Suits ev config m (.importing target asName line)) :
    C.Stays m (importTarget ev config target asName) fun _ => True := by
  rw [importTarget_eq]
  refine Stays.bind (P := fun members => ∀ member ∈ members, C.Binds member.1 member.2) ?_
    fun members m₁ hout hmembers => ?_
  · unfold importedMembers
    split
    · next hextension =>
      exact stays_loadFile hev hconfig fun path text hnames =>
        hsuits.files path text (.importing hextension hnames)
    · split
      · exact stays_fail _
      · next hmembers => exact stays_pure (C.importable _ _ _ hconfig hmembers)
  · exact stays_bindImport (fun hstar => hsuits.names _ (.importing hout hstar)) hmembers

theorem stays_evaluateBinding {name : String} {node : Node} {line : Int} (hnode : C.Fits node)
    (hsuits : C.Suits ev config m (.binding name node line)) :
    C.Stays m (evaluateBinding ev config name node) fun _ => True := by
  rw [evaluateBinding_eq]
  split
  · exact stays_fail _
  · next hreserved =>
    refine Stays.bind (P := C.value) ?_ fun v m₁ hout hv =>
      stays_define (hsuits.names name (.binding (Bool.eq_false_iff.mpr hreserved) hout)) hv
    unfold boundValue
    split
    · refine stays_env.bind fun e m₁ _ he => ?_
      refine (stays_ofCause (P := C.value) fun v hv => ?_).bind fun v m₂ _ hv => stays_copyValue hv
      unfold Environment.require at hv
      split at hv
      · next hname =>
        cases hv
        exact (he.get? hname).2
      · cases hv
    · exact (hev config _ m hconfig hnode).bind fun v m₁ _ hv => stays_copyValue hv

/-- A node that suits the condition keeps it if the evaluator for the nodes inside it does. -/
theorem stays_evaluateNode {node : Node} (hnode : C.Fits node)
    (hsuits : C.Suits ev config m node) :
    C.Stays m (evaluateNode ev config node) C.value := by
  cases node with
  | literal value line =>
    -- A literal that no text has is the receiver of a method.
    refine stays_pure ?_
    rcases hnode with hnode | ⟨a, line, heq⟩
    · exact C.literal value line hnode
    · cases heq
      exact C.object a
  | text quotation => exact stays_str _
  | identifier name line =>
    refine stays_env.bind fun e m₁ _ he => stays_pure ?_
    have hall : e.All C.value := fun binding hbinding => (he binding hbinding).2
    exact hall.lookup C.computable.null name
  | record properties line =>
    refine (stays_evaluateProperties hev hconfig fun p hp => ?_).bind fun _ m₁ _ hentries =>
      stays_alloc (Object.all_ofList hentries)
    exact hnode.child (by simp) (List.mem_map_of_mem hp)
  | binary op left right line =>
    have hleft := hev config left m hconfig (hnode.child (by simp) (by simp [Node.children]))
    refine hleft.bind fun l m₁ _ hl => ?_
    have hright := hev config right m₁ hconfig (hnode.child (by simp) (by simp [Node.children]))
    refine hright.bind fun r m₂ _ _ => stays_heap.bind fun h m₃ _ _ => ?_
    exact stays_ofExcept (gives_operator C.computable op h hl r)
  | isPresent value line =>
    have hvalue := hev config value m hconfig (hnode.child (by simp) (by simp [Node.children]))
    exact hvalue.bind fun _ m₁ _ _ => stays_pure (C.computable.bool _)
  | call name args line =>
    exact stays_callNamed hev hconfig name (fun arg harg => hnode.child (by simp) harg) hsuits
  | property object name line =>
    have hobject : C.Fits object := hnode.child (by simp) (by simp [Node.children])
    exact (stays_memberOf hev hconfig name hobject).bind fun _ m₁ _ hmember => stays_pure hmember
  | methodCall object name args line =>
    have hobject : C.Fits object := hnode.child (by simp) (by simp [Node.children])
    exact stays_callMember hev hconfig name line hobject
      (fun arg harg => hnode.child (by simp) (List.mem_cons_of_mem _ harg)) hsuits
  | binding name value line =>
    have hvalue : C.Fits value := hnode.child (by simp) (by simp [Node.children])
    exact (stays_evaluateBinding hev hconfig hvalue hsuits).bind fun _ m₁ _ _ => stays_null
  | importing target asName line =>
    exact (stays_importTarget hev hconfig hsuits).bind fun _ m₁ _ _ => stays_null
  | definition name params body line =>
    have hbody : C.value (.function name params body) := (C.function name params body).mpr fun n hn =>
      C.child _ n (hnode.node (by simp)) hn
    exact (stays_define (hsuits.names name .definition) hbody).bind fun _ m₁ _ _ => stays_null
  | conditional condition body line =>
    have hcondition := hev config condition m hconfig (hnode.child (by simp) (by simp [Node.children]))
    have hbody : ∀ n ∈ body, C.node n := fun n hn =>
      C.child _ n (hnode.node (by simp)) (List.mem_cons_of_mem _ hn)
    refine hcondition.bind fun value m₁ _ _ => ?_
    split
    · exact (stays_runBlock hev hconfig hbody).bind fun _ m₂ _ _ => stays_null
    · exact stays_null
    · exact stays_fail _
  | returning value line =>
    cases value with
    | none => exact stays_throw (i := .returned .null) C.computable.null
    | some value =>
      have hvalue := hev config value m hconfig (hnode.child (by simp) (by simp [Node.children]))
      exact hvalue.bind fun v m₁ _ hv => stays_throw (i := .returned v) hv
  | unknown => exact stays_fail _

end Constructs

/-! ### The points of a run -/

/-- Whether a point is one at which the condition is kept. -/
structure Meets (C : Condition) (p : Point) : Prop where
  config : C.config p.config
  fits : C.Fits p.node
  holds : C.Holds p.machine

/-- Whether an answer keeps the condition. -/
def Answers (C : Condition) (out : Outcome Value) : Prop :=
  C.Holds out.2 ∧ C.Ends C.value out.1

theorem Suits.stopAt [Host.Limits] {ev : Evaluator} {config : Config} {node : Node}
    (h : C.Suits ev config m node) (B : Point → Prop) (leave : Point → Machine) :
    C.Suits (ev.stopAt B .exited leave) config m node where
  collects := h.collects
  natives f vs m' happlies := h.natives f vs m' (happlies.of_stopAt Interrupt.uncaught_exited)
  names x hx := h.names x (hx.of_stopAt Interrupt.uncaught_exited)
  files := h.files

open Classical in
/-- A step keeps the condition and asks only where it is kept, if the answers that it gets keep it, and
the step does with every evaluator that exits at some points. -/
theorem holds_of_sequential {F : Evaluator → Eval α} (hF : Sequential F) {ev : Evaluator}
    {P : α → Prop} (hexits : C.exits) {bad : Value} (hbad : ¬C.value bad)
    (hanswers : ∀ q, Asks F ev m q → C.Meets q → C.Answers (ev.answer q))
    (hkeeps : ∀ B leave, C.Keeping (ev.stopAt B .exited leave) →
      C.Holds ((F (ev.stopAt B .exited leave)).outcome m).2 ∧
        C.Ends P ((F (ev.stopAt B .exited leave)).outcome m).1) :
    (C.Holds ((F ev).outcome m).2 ∧ C.Ends P ((F ev).outcome m).1) ∧
      ∀ q, Asks F ev m q → C.Meets q := by
  -- The evaluator exits where its answer would not keep the condition. Where the point itself does
  -- not, it leaves a heap with a value that fails, so the step cannot get there.
  let B : Point → Prop := fun q => C.Meets q → ¬C.Answers (ev.answer q)
  let badHeap : Heap := (Heap.alloc {} { properties := Table.ofList [("", bad)] }).2
  let leave : Point → Machine := fun q => if C.Meets q then q.machine else { heap := badHeap }
  have hkeeping : C.Keeping (ev.stopAt B .exited leave) := by
    intro config node m' hconfig hfits hm'
    have hmeets : C.Meets ⟨config, node, m'⟩ := ⟨hconfig, hfits, hm'⟩
    change C.Answers ((ev.stopAt B .exited leave).answer ⟨config, node, m'⟩)
    by_cases hB : B ⟨config, node, m'⟩
    · have hleft : leave ⟨config, node, m'⟩ = m' := if_pos hmeets
      rw [ev.answer_stopAt_of_mem hB, hleft]
      exact ⟨hm', hexits⟩
    · rw [ev.answer_stopAt_of_not_mem hB]
      exact Classical.not_not.mp fun hnot => hB fun _ => hnot
  have hends := hkeeps B leave hkeeping
  rcases hF.stop_cases ev m B Interrupt.uncaught_exited leave with
    ⟨hsame, hnever⟩ | ⟨q, hq, hask, m', hstops, hheap⟩
  · rw [hsame] at hends
    refine ⟨hends, fun q hask => Classical.byContradiction fun hnot => ?_⟩
    exact hnever q (fun hmeets => absurd hmeets hnot) hask
  · exfalso
    by_cases hmeets : C.Meets q
    · exact hq hmeets (hanswers q hask hmeets)
    · have hleft : (leave q).heap = badHeap := congrArg Machine.heap (if_neg hmeets)
      rw [hstops] at hends
      have hall : badHeap.All C.value := hleft ▸ hheap ▸ hends.1.heap
      exact hbad (hall 0 ("", bad) List.mem_cons_self)

/-- What is asked of a run: its statements may be evaluated, and its nodes suit the condition where it
is kept so far. -/
structure RunSuits [Host.Limits] (C : Condition) (config : Config) (source : String) (m : Machine) :
    Prop where
  statements : ∀ n ∈ (Source.parse source).statements, C.node n
  points : ∀ levels p, Evaluates config source m (levels + 1) p → C.Meets p →
    C.Suits (evaluate levels) p.config p.machine p.node

/-- Whether the condition allows all names, and all that is read from texts. -/
class Open [Host.Limits] (C : Condition) : Prop where
  name : ∀ x, C.name x
  parsed : ∀ source, ∀ n ∈ (Source.parse source).statements, C.node n

variable [Host.Limits]

/-- What is asked of a run where names and texts do not matter: at its points the native functions keep
the condition, and so do the numbers of arguments. -/
def RunStays (C : Condition) (config : Config) (source : String) (m : Machine) : Prop :=
  ∀ levels p, Evaluates config source m (levels + 1) p → C.Meets p →
    C.Collects p.node.arguments ∧ C.NativesStay (evaluate levels) p.config p.machine p.node

theorem Suits.of_open [C.Open] {ev : Evaluator} {config : Config} {node : Node}
    (hcollects : C.Collects node.arguments) (hnatives : C.NativesStay ev config m node) :
    C.Suits ev config m node where
  collects := hcollects
  natives := hnatives
  names x _ := Open.name x
  files _ text _ := Open.parsed text

theorem RunStays.runSuits [C.Open] {config : Config} {source : String}
    (h : C.RunStays config source m) : C.RunSuits config source m where
  statements := Open.parsed source
  points levels p hp hmeets := .of_open (h levels p hp hmeets).1 (h levels p hp hmeets).2

section Runs

variable {config : Config} {source : String} {levels : Nat} {p : Point}
  (hexits : C.exits) {bad : Value} (hbad : ¬C.value bad)

include hexits hbad

section Suits

variable (hrun : C.RunSuits config source m)

include hrun

/-- A point of the run keeps the condition with the points inside it, if their answers do. -/
theorem meets_inner (hp : Evaluates config source m (levels + 1) p) (hmeets : C.Meets p)
    (hinner : ∀ q, Evaluates config source m levels q → C.Meets q →
      C.Answers ((evaluate levels).answer q)) :
    C.Answers ((evaluateNode (evaluate levels) p.config p.node).outcome p.machine) ∧
      ∀ q, Asks (fun ev => evaluateNode ev p.config p.node) (evaluate levels) p.machine q →
        C.Meets q := by
  refine holds_of_sequential (sequential_evaluateNode p.config p.node) hexits hbad
    (fun q hask => hinner q (.inner hp hask)) fun B leave hkeeping => ?_
  exact stays_evaluateNode hkeeping hmeets.config hmeets.fits
    ((hrun.points levels p hp hmeets).stopAt B leave) hmeets.holds

theorem answers_of_meets (hp : Evaluates config source m levels p) (hmeets : C.Meets p) :
    C.Answers ((evaluate levels).answer p) := by
  induction levels generalizing p with
  | zero => exact ⟨hmeets.holds, trivial⟩ -- No level is left, and evaluation fails at once.
  | succ levels ih =>
    have hnode := (meets_inner hexits hbad hrun hp hmeets fun q hq => ih hq).1
    have hstays : C.Stays p.machine (evaluateNode (evaluate levels) p.config p.node) C.value :=
      fun _ => hnode
    exact hstays.atLine p.node.line hmeets.holds

/-- A run keeps the condition, and its statements begin where the condition is kept. -/
theorem holds_of_suits (hconfig : C.config config) (hstart : C.Holds m) :
    C.Holds ((runProgram config source).outcome m).2 ∧
      ∀ q, Asks (runBy config source) (evaluate stackLimit) m q → C.Meets q := by
  have hends := holds_of_sequential (P := fun _ => True) (sequential_runTopLevel config _ 0 _) hexits
    hbad (fun q hask hmeets => answers_of_meets hexits hbad hrun (.statement hask) hmeets)
    fun B leave hkeeping => stays_runTopLevel hkeeping hconfig _ 0 hrun.statements hstart
  exact ⟨hends.1.1, hends.2⟩

/-- Every point of a run keeps the condition, from where it starts to where its node ends. -/
theorem meets_of_suits (hconfig : C.config config) (hstart : C.Holds m)
    (hp : Evaluates config source m levels p) :
    C.Meets p ∧ C.Answers ((evaluate levels).answer p) := by
  suffices hmeets : C.Meets p from ⟨hmeets, answers_of_meets hexits hbad hrun hp hmeets⟩
  induction hp with
  | @statement q hask => exact (holds_of_suits hexits hbad hrun hconfig hstart).2 q hask
  | inner hp hask ih =>
    exact (meets_inner hexits hbad hrun hp ih fun q hq hmeets =>
      answers_of_meets hexits hbad hrun hq hmeets).2 _ hask

end Suits

theorem meets_of_evaluates [C.Open] (hrun : C.RunStays config source m) (hconfig : C.config config)
    (hstart : C.Holds m) (hp : Evaluates config source m levels p) :
    C.Meets p ∧ C.Answers ((evaluate levels).answer p) :=
  meets_of_suits hexits hbad hrun.runSuits hconfig hstart hp

end Runs

end Condition

/-! ### Conditions on names and on the nodes of functions -/

/-- Whether all nodes of a body have a property, if the value is a function. -/
def Value.BodyAll (N : Node → Prop) : Value → Prop
  | .function _ _ body => ∀ n ∈ body, N n
  | _ => True

theorem Value.bodyAll_of_isPrimitive {N : Node → Prop} {v : Value} (hv : v.IsPrimitive) :
    v.BodyAll N := by
  cases v with
  | function => exact hv.elim
  | _ => trivial

namespace Condition

variable {N : Node → Prop} {X : String → Prop} (hplain : ∀ n, N n → n.Plain)
  (hchild : ∀ n c, N n → c ∈ n.children → N c)
  (hpackage : ∀ config package members, importable? config package = some members →
    ∀ member ∈ members, X member.1)

/-- The condition that all names have a property, and that all functions have bodies of nodes with
one. -/
def ofNodes : Condition where
  value := Value.BodyAll N
  name := X
  node := N
  config _ := True
  exits := True
  computable := ⟨fun _ hv _ => Value.bodyAll_of_isPrimitive hv, fun _ _ => trivial⟩
  object _ := trivial
  method := trivial
  function _ _ _ := Iff.rfl
  literal _ _ h := Value.bodyAll_of_isPrimitive (hplain _ h).primitive
  child := hchild
  withScript _ _ h := h
  importable c package members _ h member hmember := by
    refine ⟨hpackage c package members h member hmember, ?_⟩
    rcases importable_cases h member hmember with ⟨f, hf⟩ | ⟨x, hx⟩
    · rw [hf]
      trivial
    · rw [hx]
      trivial

/-- Native functions make no functions, so a node suits the condition if its names and the file that
it imports do. -/
theorem suits_ofNodes [Host.Limits] {ev : Evaluator} {config : Config} {m : Machine} {node : Node}
    (hnames : ∀ x, BindsName ev config m node x → X x)
    (hfiles : ∀ path text, ReadsFile config m node path text →
      ∀ n ∈ (Source.parse text).statements, N n) :
    (ofNodes hplain hchild hpackage).Suits ev config m node where
  collects _ _ := trivial
  natives f _ _ _ _ hvs := stays_native f hvs (fun _ _ => trivial) fun _ _ => trivial
  names := hnames
  files := hfiles

/-- A function whose body has an object in it, which no text has. -/
theorem exists_not_ofNodes : ∃ v, ¬(ofNodes hplain hchild hpackage).value v := by
  refine ⟨.function "" [] [.literal (.object 0) 0], fun h => ?_⟩
  exact (hplain _ (h _ List.mem_cons_self)).primitive

theorem ofNodes_newSession (config : Config) (world : Host.World)
    (hbuiltins : ∀ builtin ∈ builtins config, X builtin.1) :
    (ofNodes hplain hchild hpackage).Holds (Session.new config world).machine := by
  refine ⟨Environment.allBindings_empty.update fun binding hbinding => ?_, Heap.all_empty⟩
  refine ⟨hbuiltins binding hbinding, ?_⟩
  obtain ⟨f, -, rfl⟩ := List.mem_map.mp hbinding
  exact trivial

end Condition

end ModuLang
