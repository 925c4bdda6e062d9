import Mathlib
import ModuLang.Proofs.EvaluationConfinement

/-!
# Calls are isolated

A call of a function of the program leaves the environment and every object that can be reached from
it as they were, however it ends, and what it returns shares no object with them.

A call works on a clone. The boundary that hides all objects there were before the call is therefore
kept from the clone on, and this says both: what is hidden is not changed, and what is returned does
not lead behind the boundary.
-/

namespace ModuLang

open Eval

variable {ev : Evaluator} {config : Config} {m : Machine} {n : Nat}

/-- Whether a value is well formed when there are that many objects: an object is there, and a
function has only primitive literals in its body. -/
def Value.WellFormed (size : Nat) : Value → Prop
  | .object a => a < size
  | .function _ _ body => ∀ statement ∈ body, statement.Plain
  | _ => True

namespace Machine

/-- Whether an object can be reached from the environment. -/
def EnvReaches (m : Machine) (a : Address) : Prop :=
  ∃ binding ∈ m.env.vars.entries, ∃ root, binding.2 = .object root ∧ m.heap.Reaches root a

/-- Whether all values that can be met from the environment are well formed. -/
structure WellFormed (m : Machine) : Prop where
  bindings : ∀ binding ∈ m.env.vars.entries, binding.2.WellFormed m.heap.size
  objects : ∀ a, m.EnvReaches a → ∀ entry ∈ (m.heap.get a).properties.entries,
    entry.2.WellFormed m.heap.size

/-- Whether a node is a call of a function of the program: of one that a name is bound to, or of one
that is a property of the object that a name is bound to. -/
def IsUserCall (m : Machine) : Node → Prop
  | .call name _ _ => ∃ fname params body, m.env.get? name = some (.function fname params body)
  | .methodCall (.identifier object _) name _ _ =>
    ∃ a fname params body, m.env.get? object = some (.object a) ∧
      (m.heap.get a).get? name = some (.function fname params body)
  | _ => False

end Machine

theorem Value.WellFormed.known {v : Value} (h : v.WellFormed n) : Known .clear n v := by
  intro _
  cases v with
  | object a => exact ⟨h, not_false⟩
  | function name params body => exact h
  | _ => trivial

/-! ### The boundary below a call -/

theorem Keeps.congr {α : Type} {R : Boundary} {E : EnvRule} {P : Nat → α → Prop} {x y : Eval α}
    (h : y.outcome m = x.outcome m) (hx : Keeps R E m x x P) : Keeps R E m y y P := by
  intro hheap henv
  rw [h]
  exact hx hheap henv

theorem Machine.WellFormed.knownEnv (hm : m.WellFormed) :
    (ModuLang.knownEnv .clear).holds m.heap.size m.env :=
  fun binding hbinding => (hm.bindings binding hbinding).known

/-- The objects that a clone copies can be reached from the environment. -/
theorem Machine.WellFormed.copied (hm : m.WellFormed) :
    ∀ b ∈ m.heap.copied (m.env.vars.entries.map Prod.snd),
      ObjectKnown .clear m.heap.size (m.heap.get b) := by
  intro b hb entry hentry
  obtain ⟨⟨root, hroot, hreaches⟩, -⟩ := Heap.reaches_of_mem_reachable hb
  obtain ⟨v, hv, haddress⟩ := List.mem_filterMap.mp hroot
  obtain ⟨binding, hbinding, rfl⟩ := List.mem_map.mp hv
  have hobject : binding.2 = .object root := Value.address?_eq_some.mp haddress
  exact (hm.objects b ⟨binding, hbinding, root, hobject, hreaches⟩ entry hentry).known

/-- A call of a function keeps the boundary that hides all objects there were. -/
theorem keeps_callFunction_below {E : EnvRule} {passesOver : Bool} {name : String}
    {params : List String} {body args : List Node} (hm : m.WellFormed)
    (hev : Complies (.below m.heap.size) ev ev) (hbody : ∀ s ∈ body, s.Plain)
    (hargs : ∀ a ∈ args, a.Plain) :
    Keeps (.below m.heap.size) E m (callFunction ev config passesOver name params body args)
      (callFunction ev config passesOver name params body args) (Known (.below m.heap.size)) := by
  rw [callFunction_eq, checkArity]
  -- The environment of the caller is read only to be cloned, and everything else happens inside.
  split
  · have hclone : Keeps (.below m.heap.size) E m
        (clone m.env >>= callInside ev config passesOver name params body args)
        (clone m.env >>= callInside ev config passesOver name params body args)
        (Known (.below m.heap.size)) :=
      (keeps_clone_below hm.copied hm.knownEnv).bind fun callEnv m₁ _ hcall =>
        keeps_callInside hev params hcall (fun _ => hbody) (fun _ => hargs)
    refine hclone.congr ?_
    rw [pure_bind, outcome_env_bind]
  · refine (keeps_fail (.wrongArity name params.length args.length)).congr ?_
    rw [outcome_bind]
    rfl

/-- A call of a function by its name or as a property of a named object is made on the machine
itself. -/
theorem Machine.IsUserCall.calls {node : Node} (hcall : m.IsUserCall node) (ev : Evaluator)
    (config : Config) (hplain : node.Plain) (hm : m.WellFormed) :
    ∃ call, Calls ev config m node call m ∧ (∀ s ∈ call.body, s.Plain) ∧
      ∀ a ∈ call.args, a.Plain := by
  unfold Machine.IsUserCall at hcall
  split at hcall
  · next name args line =>
    obtain ⟨fname, params, body, hname⟩ := hcall
    refine ⟨⟨false, fname, params, body, args⟩, .named hname, ?_, fun a ha => hplain.children ha⟩
    exact hm.bindings _ (Table.mem_of_get? hname)
  · next object oline name args line =>
    obtain ⟨a, fname, params, body, hobject, hmember⟩ := hcall
    have hroot : m.EnvReaches a := ⟨_, Table.mem_of_get? hobject, a, rfl, .refl⟩
    -- A bare name is looked up, so nothing is evaluated before the call.
    have hresolved : (resolveObject ev config (.identifier object oline)).outcome m =
        (.ok a, m) := by
      unfold resolveObject
      rw [outcome_env_bind, hobject]
      rfl
    have hfound : (memberOf ev config (.identifier object oline) name).outcome m =
        (.ok (a, .function fname params body), m) := by
      unfold memberOf
      rw [outcome_bind, hresolved]
      simp only
      rw [outcome_object_bind, hmember]
      rfl
    refine ⟨⟨!config.returnFromMethods, fname, params, body, args⟩, .property hfound, ?_,
      fun a ha => hplain.children (List.mem_cons_of_mem _ ha)⟩
    exact hm.objects a hroot _ (Table.mem_of_get? hmember)
  · exact hcall.elim

/-- A call of a function of the program keeps the environment, and the boundary that hides all
objects there were. -/
theorem keeps_evaluate_below [Host.Limits] {node : Node} (levels : Nat) (config : Config)
    (hcall : m.IsUserCall node) (hplain : node.Plain) (hm : m.WellFormed) :
    Keeps (.below m.heap.size) (sameEnv m.env) m (evaluate levels config node)
      (evaluate levels config node) (Known (.below m.heap.size)) := by
  cases levels with
  | zero => exact keeps_crash _
  | succ levels =>
    refine keeps_atLine _ ?_
    obtain ⟨call, hcalls, hbody, hargs⟩ := hcall.calls (evaluate levels) config hplain hm
    refine Keeps.congr hcalls.outcome_eq ?_
    exact keeps_callFunction_below hm (complies_evaluate _ levels) hbody hargs

/-! ### What is behind the boundary -/

/-- What can be reached from a well-formed environment is there. -/
theorem Machine.WellFormed.lt_size {a : Address} (hm : m.WellFormed) (ha : m.EnvReaches a) :
    a < m.heap.size := by
  obtain ⟨binding, hbinding, root, hroot, hreaches⟩ := ha
  -- It is held by a binding, or by an object that can be reached.
  rcases Relation.ReflTransGen.cases_tail hreaches with rfl | ⟨c, hrc, hca⟩
  · have hvalue := hm.bindings binding hbinding
    rw [hroot] at hvalue
    exact hvalue
  · obtain ⟨entry, hentry, heq⟩ := Object.mem_references.mp hca
    have hvalue := hm.objects c ⟨binding, hbinding, root, hroot, hrc⟩ entry hentry
    rw [heq] at hvalue
    exact hvalue

/-- The same objects are reached from an environment that stays as it is with all its objects. -/
theorem Machine.envReaches_iff {m' : Machine} {a : Address} (henv : m'.env = m.env)
    (heq : ∀ c, m.EnvReaches c → m'.heap.get? c = m.heap.get? c) :
    m'.EnvReaches a ↔ m.EnvReaches a := by
  unfold EnvReaches
  rw [henv]
  refine exists_congr fun binding => and_congr_right fun hbinding => ?_
  refine exists_congr fun root => and_congr_right fun hroot => ?_
  exact Heap.reaches_iff fun c hc => heq c ⟨binding, hbinding, root, hroot, hc⟩

/-- However a call of a function of the program ends, the environment is the same as before, with
its names, their order and their values. The objects that can be reached from it are the same as
before, and so are their properties, their marks and their methods. An object that the call returns
reaches none of them. -/
theorem call_isolated [Host.Limits] {node : Node} (levels : Nat) (config : Config)
    (hcall : m.IsUserCall node) (hplain : node.Plain) (hm : m.WellFormed) :
    ∃ result m', (evaluate levels config node).outcome m = (result, m') ∧
      m'.env = m.env ∧
      (∀ a, m'.EnvReaches a ↔ m.EnvReaches a) ∧
      (∀ a, m.EnvReaches a → m'.heap.get? a = m.heap.get? a) ∧
      ∀ b, result = .ok (.object b) → ∀ a, m'.heap.Reaches b a → ¬m'.EnvReaches a := by
  obtain ⟨-, hkept⟩ :=
    keeps_evaluate_below levels config hcall hplain hm (heapKnown_below m.heap) rfl
  revert hkept
  obtain ⟨result, m'⟩ := (evaluate levels config node).outcome m
  intro hkept
  have henv : m'.env = m.env := hkept.env
  have hobjects : ∀ a, m.EnvReaches a → m'.heap.get? a = m.heap.get? a := fun a ha =>
    hkept.grows.hidden trivial a (hm.lt_size ha)
  have hreaches : ∀ a, m'.EnvReaches a ↔ m.EnvReaches a := fun a =>
    Machine.envReaches_iff henv hobjects
  refine ⟨result, m', rfl, henv, hreaches, hobjects, ?_⟩
  intro b hresult a hba ha
  -- What is returned stands on this side of the boundary, and the environment behind it.
  have hb : Known (.below m.heap.size) m'.heap.size (.object b) := by
    have hends := hkept.ends
    rw [hresult] at hends
    exact hends
  have hvisible : ¬a < m.heap.size := (hkept.heap.reaches hb hba trivial).2
  exact hvisible (hm.lt_size ((hreaches a).mp ha))

/-- A machine with an object `x` and a function `f` that returns its argument. -/
def echoMachine : Machine where
  env := .ofList [("x", .object 0),
    ("f", .function "f" ["a"] [.returning (some (.identifier "a" 1)) 1])]
  heap := ⟨#[{}]⟩

theorem echoMachine_wellFormed : echoMachine.WellFormed where
  bindings := by
    intro binding hbinding
    rcases List.mem_cons.mp hbinding with rfl | hbinding
    · exact Nat.zero_lt_one
    · rw [List.mem_singleton.mp hbinding]
      intro statement hstatement
      rw [List.mem_singleton.mp hstatement]
      refine Node.plain_of_children (by simp) fun c hc => ?_
      rw [List.mem_singleton.mp hc]
      exact Node.plain_of_children (by simp) fun c hc => absurd hc List.not_mem_nil
  objects := by
    intro a _ entry hentry
    have hempty : echoMachine.heap.get a = {} := by
      rcases a with _ | a <;> rfl
    rw [hempty] at hentry
    exact absurd hentry List.not_mem_nil

/-- The call `f(x)` returns a copy of the object `x`, which the environment does not lead to. -/
theorem echo_isolated :
    ∃ m', (evaluate 9 {} (.call "f" [.identifier "x" 2] 2)).outcome echoMachine =
        (.ok (.object 2), m') ∧
      m'.env = echoMachine.env ∧ m'.EnvReaches 0 ∧ m'.heap.get? 0 = some {} ∧
      ¬m'.EnvReaches 2 := by
  have hcall : echoMachine.IsUserCall (.call "f" [.identifier "x" 2] 2) := ⟨_, _, _, rfl⟩
  have hplain : Node.Plain (.call "f" [.identifier "x" 2] 2) := by
    refine Node.plain_of_children (by simp) fun c hc => ?_
    rw [List.mem_singleton.mp hc]
    exact Node.plain_of_children (by simp) fun c hc => absurd hc List.not_mem_nil
  have hx : echoMachine.EnvReaches 0 := ⟨("x", .object 0), List.mem_cons_self, 0, rfl, .refl⟩
  obtain ⟨result, m', heq, henv, hreaches, hobjects, hreturned⟩ :=
    call_isolated 9 {} hcall hplain echoMachine_wellFormed
  have hrun : ((evaluate 9 {} (.call "f" [.identifier "x" 2] 2)).outcome echoMachine).1 =
      .ok (.object 2) := by
    cbv
  have hvalue : result = .ok (.object 2) := by
    rw [heq] at hrun
    exact hrun
  subst hvalue
  exact ⟨m', heq, henv, (hreaches 0).mpr hx, hobjects 0 hx, hreturned 2 rfl 2 .refl⟩

end ModuLang
