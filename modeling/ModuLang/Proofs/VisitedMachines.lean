import ModuLang.Proofs.HeldConditions

/-!
# The machines that a run gets to

The points of a run are where its nodes begin. A run also gets to the machine where a node ends, and
to two kinds of machines that need not be those of a point: the one where the body of a call starts,
which has an environment of its own even if there is nothing in the body, and the one where an
imported file starts. `Visits` has them all, so what is true of all environments and objects of a
run is stated over it.

`Condition.holds_of_visits` says that a condition that suits a run holds on all of these machines.
What is new is the start of a body: the arguments of a call are asked for by its node, so their
answers keep the condition, and the environment of the body is made of them.
-/

namespace ModuLang

open Eval Host

variable {ev : Evaluator} {config : Config} {m m' : Machine} {source : String} {levels : Nat}
  {p : Point}

section

variable [Host.Limits]

/-- The machines that a run gets to: where it starts, where a node begins and where it ends, and
where the body of a call or an imported file starts. -/
inductive Visits (config : Config) (source : String) (m : Machine) : Machine → Prop where
  | start : Visits config source m m
  | before {levels : Nat} {p : Point} : Evaluates config source m levels p →
      Visits config source m p.machine
  | after {levels : Nat} {p : Point} : Evaluates config source m levels p →
      Visits config source m ((evaluate levels).answer p).2
  | body {levels : Nat} {p : Point} {call : UserCall} {callee start : Machine} {values : List Value}
      {body : Environment} : Evaluates config source m (levels + 1) p →
      Calls (evaluate levels) p.config p.machine p.node call callee →
      (enterCall (evaluate levels) p.config call.name call.params call.args).outcome callee =
        (.ok (values, body), start) →
      Visits config source m { start with env := body }
  | file {levels : Nat} {p : Point} {path : Path} {text : String} :
      Evaluates config source m (levels + 1) p → ReadsFile p.config p.machine p.node path text →
      Visits config source m (moduleStart p.machine path)

/-- Calls a property of an object that was found. -/
def callProperty (ev : Evaluator) (config : Config) (name : String) (args : List Node) (line : Int)
    (found : Address × Value) : Eval Value :=
  match found.2 with
  | .native f => do
    let isMethod := (← object found.1).methods.contains name
    callNative ev config f (if isMethod then .literal (.object found.1) line :: args else args)
  | .function fname params body =>
    callFunction ev config (!config.returnFromMethods) fname params body args
  | _ => fail (.notAFunction name)

theorem callMember_eq (ev : Evaluator) (config : Config) (node : Node) (name : String)
    (args : List Node) (line : Int) :
    callMember ev config node name args line =
      memberOf ev config node name >>= callProperty ev config name args line :=
  rfl

theorem sequential_callProperty (config : Config) (name : String) (args : List Node) (line : Int)
    (found : Address × Value) :
    Sequential fun ev => callProperty ev config name args line found := by
  obtain ⟨a, value⟩ := found
  cases value with
  | native f => exact (sequential_const _).bind fun o => sequential_callNative config f _
  | function => exact sequential_callFunction config _ _ _ _ _
  | _ => exact sequential_const _

/-- A node that makes a call asks where the call does. -/
theorem Calls.asks_of_callFunction {node : Node} {call : UserCall} {callee : Machine} {q : Point}
    (hcall : Calls ev config m node call callee)
    (h : Asks (fun ev => callFunction ev config call.passesOver call.name call.params call.body
      call.args) ev callee q) :
    Asks (fun ev => evaluateNode ev config node) ev m q := by
  cases hcall with
  | named hname => exact h.congr fun ev' => Calls.outcome_eq (.named hname)
  | property hmember =>
    exact Asks.bind_right (sequential_memberOf config _ _) (sequential_callProperty config _ _ _)
      hmember h

end

/-- Runs the body of a call in its own environment, in a new frame. -/
def callBody (ev : Evaluator) (config : Config) (call : UserCall) (bodyEnv : Environment) :
    Eval Value :=
  inside bodyEnv (inFrame config call.name true (runBody ev config call.passesOver call.body))

theorem sequential_callBody (config : Config) (call : UserCall) (bodyEnv : Environment) :
    Sequential fun ev => callBody ev config call bodyEnv :=
  ((sequential_runBody config _ _).inFrame config _ true).inside bodyEnv

variable [Host.Limits]

/-- A node that makes a call asks where the call does before its body starts. -/
theorem Calls.asks {node : Node} {call : UserCall} {callee : Machine} {q : Point}
    (hcall : Calls ev config m node call callee)
    (h : Asks (fun ev => enterCall ev config call.name call.params call.args) ev callee q) :
    Asks (fun ev => evaluateNode ev config node) ev m q := by
  refine hcall.asks_of_callFunction ?_
  simp only [callFunction_eq_enterCall]
  exact h.bind_left (sequential_enterCall config _ _ _) fun bound =>
    sequential_callBody config call bound.2

/-- A node that makes a call asks where the body of the call does. -/
theorem Calls.asks_of_callBody {node : Node} {call : UserCall} {callee start : Machine}
    {values : List Value} {body : Environment} {q : Point}
    (hcall : Calls ev config m node call callee)
    (hstart : (enterCall ev config call.name call.params call.args).outcome callee =
      (.ok (values, body), start))
    (h : Asks (fun ev => callBody ev config call body) ev start q) :
    Asks (fun ev => evaluateNode ev config node) ev m q := by
  refine hcall.asks_of_callFunction ?_
  simp only [callFunction_eq_enterCall]
  exact Asks.bind_right (sequential_enterCall config _ _ _)
    (fun bound => sequential_callBody config call bound.2) hstart h

namespace Condition

variable {C : Condition}

section Runs

variable (hexits : C.exits) {bad : Value} (hbad : ¬C.value bad) (hrun : C.RunSuits config source m)

include hexits hbad hrun

/-- Where a node of the run has found a property to call, the condition holds, also of what it
found. -/
theorem holds_member {pconfig : Config} {object : Node} {name : String} {args : List Node}
    {line : Int} {machine found : Machine} {a : Address} {v : Value}
    (hp : Evaluates config source m (levels + 1)
      ⟨pconfig, .methodCall object name args line, machine⟩)
    (hmeets : C.Meets ⟨pconfig, .methodCall object name args line, machine⟩)
    (hmember : (memberOf (evaluate levels) pconfig object name).outcome machine =
      (.ok (a, v), found)) :
    C.Holds found ∧ C.value v := by
  have hobject : C.Fits object := hmeets.fits.child (by simp) (by simp [Node.children])
  -- What the node asks for to find the property it asks for itself, so the answers are known.
  have hasks : ∀ q, Asks (fun ev => memberOf ev pconfig object name) (evaluate levels) machine q →
      Asks (fun ev => evaluateNode ev pconfig (.methodCall object name args line))
        (evaluate levels) machine q := fun q hask =>
    hask.bind_left (sequential_memberOf pconfig _ _) (sequential_callProperty pconfig name args line)
  have hfound := (holds_of_sequential (P := fun found => C.value found.2)
    (sequential_memberOf pconfig object name) hexits hbad
    (fun q hask hq => answers_of_meets hexits hbad hrun (.inner hp (hasks q hask)) hq)
    fun B leave hkeeping => stays_memberOf hkeeping hmeets.config name hobject hmeets.holds).1
  rw [hmember] at hfound
  exact hfound

/-- Where a node of the run has found the function that it calls, the condition holds. -/
theorem holds_callee {call : UserCall} {callee : Machine}
    (hp : Evaluates config source m (levels + 1) p) (hmeets : C.Meets p)
    (hcall : Calls (evaluate levels) p.config p.machine p.node call callee) : C.Holds callee := by
  obtain ⟨pconfig, node, machine⟩ := p
  cases hcall with
  | named hname => exact hmeets.holds
  | property hmember => exact (holds_member hexits hbad hrun hp hmeets hmember).1

/-- Where the body of a call starts, the condition holds. -/
theorem holds_body {call : UserCall} {callee start : Machine} {values : List Value}
    {body : Environment} (hp : Evaluates config source m (levels + 1) p) (hmeets : C.Meets p)
    (hcall : Calls (evaluate levels) p.config p.machine p.node call callee)
    (hstart : (enterCall (evaluate levels) p.config call.name call.params call.args).outcome callee =
      (.ok (values, body), start)) : C.Holds { start with env := body } := by
  have hsuits := hrun.points levels p hp hmeets
  have hcallee := holds_callee hexits hbad hrun hp hmeets hcall
  -- The arguments of the call are nodes inside the node that makes it.
  have hargs : (∀ arg ∈ call.args, C.Fits arg) ∧ C.Collects call.args := by
    obtain ⟨pconfig, node, machine⟩ := p
    cases hcall with
    | named hname => exact ⟨fun arg harg => hmeets.fits.child (by simp) harg, hsuits.collects⟩
    | property hmember =>
      exact ⟨fun arg harg => hmeets.fits.child (by simp) (List.mem_cons_of_mem _ harg),
        hsuits.collects⟩
  have hbound := (holds_of_sequential (P := fun bound => bound.2.AllBindings C.Binds)
    (sequential_enterCall p.config call.name call.params call.args) hexits hbad
    (fun q hask hq => answers_of_meets hexits hbad hrun (.inner hp (hcall.asks hask)) hq)
    fun B leave hkeeping => ?_).1
  · rw [hstart] at hbound
    exact ⟨hbound.2, hbound.1.heap⟩
  · exact stays_enterCall hkeeping hmeets.config hargs.1 hargs.2
      (fun _ _ _ x hx => hsuits.names x (.parameter hcall hstart hx)) hcallee

/-- A condition that suits a run holds on all machines that the run gets to. -/
theorem holds_of_visits (hconfig : C.config config) (hstart : C.Holds m)
    (h : Visits config source m m') : C.Holds m' := by
  have hpoint : ∀ {levels p}, Evaluates config source m levels p →
      C.Meets p ∧ C.Answers ((evaluate levels).answer p) := fun hp =>
    meets_of_suits hexits hbad hrun hconfig hstart hp
  cases h with
  | start => exact hstart
  | before hp => exact (hpoint hp).1.holds
  | after hp => exact (hpoint hp).2.1
  | body hp hcall hstart => exact holds_body hexits hbad hrun hp (hpoint hp).1 hcall hstart
  | file hp _ =>
    -- A file starts with a clone of the environment at hand.
    have hholds := (hpoint hp).1.holds
    obtain ⟨henv, hheap⟩ := hholds.heap.clone C.rename hholds.env
    exact ⟨henv, hheap⟩

end Runs

end Condition

end ModuLang
