import ModuLang.Proofs.ServerAnswers
import ModuLang.Proofs.VisitedMachines

/-!
# Programs on the server are confined

A program on the server never has a function of the package `file` in its hands: not in an
environment, not in an object, and not as the value of a node. So it cannot apply one, and the same
is true of `input` and `exit`, which it has, but which refuse to be called there. A call of one of
them is an error that leaves everything as it was when the function was found; nothing is read or
printed, and the run is not ended.

All of this is the condition on what is served, along the whole run: in the functions that the
program defines, and in files that it imports, which run under a configuration that is for the
server as well.
-/

namespace ModuLang

open Eval Host

variable {ev : Evaluator} {config : Config} {m m' : Machine}

/-- Whether a native function reaches what the server keeps from programs: files, the standard
input, and the end of the run. -/
def Native.ReachesHost : Native → Prop
  | .file _ | .builtin (.input _) | .builtin (.exit _) => True
  | _ => False

/-- Whether a value is a function of the package `file`. -/
def Value.IsFileFunction (v : Value) : Prop :=
  ∃ f, v = .native (.file f)

/-- Whether a machine holds no function of the package `file`. -/
structure Machine.HoldsNoFiles (m : Machine) : Prop where
  env : m.env.All fun v => ¬v.IsFileFunction
  heap : m.heap.All fun v => ¬v.IsFileFunction

/-- The native function that a node calls, and the machine where it is found. -/
inductive CallsNative (ev : Evaluator) (config : Config) (m : Machine) :
    Node → Native → Machine → Prop where
  | named {callee : String} {f : Native} {args : List Node} {line : Int} :
      m.env.get? callee = some (.native f) → CallsNative ev config m (.call callee args line) f m
  | property {object : Node} {callee : String} {f : Native} {args : List Node} {line : Int}
      {a : Address} {m' : Machine} :
      (memberOf ev config object callee).outcome m = (.ok (a, .native f), m') →
      CallsNative ev config m (.methodCall object callee args line) f m'

/-- A native function that is applied is called. -/
theorem Applies.callsNative {node : Node} {f : Native} {vs : List Value}
    (h : Applies ev config m node f vs m') : ∃ found, CallsNative ev config m node f found := by
  cases h with
  | named hname _ => exact ⟨m, .named hname⟩
  | property hmember _ => exact ⟨_, .property hmember⟩

/-- A function that refuses to be called fails where it is found, whatever its arguments. -/
theorem CallsNative.outcome_refused [Host.Limits] {node : Node} {f : Native} {cause : Cause}
    (h : CallsNative ev config m node f m') (hrefusal : f.refusal? = some cause) :
    ∃ cause', (evaluateNode ev config node).outcome m =
      (.error (.failed (.fault ⟨cause', 0⟩)), m') := by
  have hcall : ∀ args m, ∃ cause',
      (callNative ev config f args).outcome m = (.error (.failed (.fault ⟨cause', 0⟩)), m) := by
    intro args m
    -- The number of arguments is checked first, and the arguments would be evaluated last.
    unfold callNative checkArity
    rw [hrefusal]
    split
    · exact ⟨cause, rfl⟩
    · exact ⟨_, rfl⟩
  cases h with
  | @named callee _ args line hname =>
    obtain ⟨cause', hout⟩ := hcall args m
    refine ⟨cause', ?_⟩
    change (callNamed ev config callee args).outcome m = _
    rw [callNamed, outcome_env_bind, hname]
    exact hout
  | @property object callee _ args line a _ hmember =>
    obtain ⟨cause', hout⟩ := hcall (receiverFirst m'.heap a callee args line) m'
    refine ⟨cause', ?_⟩
    change (callMember ev config object callee args line).outcome m = _
    rw [callMember_eq, outcome_bind, hmember]
    exact hout

/-- Whether a run is confined. -/
structure RunConfined [Host.Limits] (config : Config) (source : String) (m : Machine) : Prop where
  /-- No machine that it gets to holds a function of the package `file`. -/
  holds : ∀ m', Visits config source m m' → m'.HoldsNoFiles
  /-- No node has one as its value. -/
  values : ∀ levels p v, Evaluates config source m levels p →
    ((evaluate levels).answer p).1 = .ok v → ¬v.IsFileFunction
  /-- No function is applied that reaches files, the standard input or the end of the run. -/
  applied : ∀ levels p f vs m', Evaluates config source m (levels + 1) p →
    Applies (evaluate levels) p.config p.machine p.node f vs m' → ¬f.ReachesHost
  /-- A call of one is an error, and the machine is left as it was when the function was found. -/
  refused : ∀ levels p f m', Evaluates config source m (levels + 1) p →
    CallsNative (evaluate levels) p.config p.machine p.node f m' → f.ReachesHost →
      ∃ fault, (evaluate (levels + 1)).answer p = (.error (.failed (.fault fault)), m')
  /-- No node ends the run. -/
  exits : ∀ levels p, Evaluates config source m levels p →
    ((evaluate levels).answer p).1 ≠ .error .exited

/-! ### What is served along a run -/

/-- The condition on what a program on the server holds, whatever ends its run. -/
def Condition.servedThroughout : Condition :=
  { Condition.served with exits := True }

instance [Host.Limits] : Condition.servedThroughout.Open where
  name _ := trivial
  parsed := Source.parse_plain

theorem not_served_file : ¬Condition.servedThroughout.value (.native (.file .read)) :=
  not_false

theorem Value.Served.not_isFileFunction {v : Value} (h : v.Served) : ¬v.IsFileFunction := by
  rintro ⟨f, rfl⟩
  exact h

/-- What is served and would reach what the server keeps from programs refuses to be called. -/
theorem Native.Served.refusal {f : Native} (h : f.Served) (hreaches : f.ReachesHost) :
    ∃ cause, f.refusal? = some cause := by
  cases f with
  | file => exact h.elim
  | builtin f =>
    cases f with
    | input onServer =>
      cases onServer with
      | false => exact h.elim
      | true => exact ⟨_, rfl⟩
    | exit onServer =>
      cases onServer with
      | false => exact h.elim
      | true => exact ⟨_, rfl⟩
    | _ => exact hreaches.elim
  | _ => exact hreaches.elim

section Runs

variable {world : World} {source : String} {levels : Nat} {p : Point}
  (hserver : config.onServer = true)

theorem served_runSuits [Host.Limits] (source : String) (m : Machine) :
    Condition.servedThroughout.RunSuits config source m :=
  Condition.RunStays.runSuits fun _ _ _ _ =>
    ⟨fun _ _ => trivial, fun f _ _ _ _ hvs =>
      Condition.stays_native f hvs (fun _ _ => trivial) fun _ _ => trivial⟩

theorem servedThroughout_newSession (hserver : config.onServer = true) (world : World) :
    Condition.servedThroughout.Holds (Session.new config world).machine :=
  ⟨(served_newSession hserver world).env, (served_newSession hserver world).heap⟩

include hserver

variable [Host.Limits]

theorem served_point (hp : Evaluates config source (Session.new config world).machine levels p) :
    Condition.servedThroughout.Meets p ∧
      Condition.servedThroughout.Answers ((evaluate levels).answer p) :=
  Condition.meets_of_suits trivial not_served_file (served_runSuits source _) hserver
    (servedThroughout_newSession hserver world) hp

/-- A native function that a node of the run calls is served. -/
theorem served_callsNative {f : Native}
    (hp : Evaluates config source (Session.new config world).machine (levels + 1) p)
    (h : CallsNative (evaluate levels) p.config p.machine p.node f m') : f.Served := by
  have hmeets := (served_point hserver hp).1
  obtain ⟨pconfig, node, machine⟩ := p
  cases h with
  | named hname => exact (hmeets.holds.env.get? hname).2
  | property hmember =>
    exact (Condition.holds_member trivial not_served_file (served_runSuits source _) hp hmeets
      hmember).2

/-- A run on the server is confined. -/
theorem runConfined_of_onServer (world : World) (source : String) :
    RunConfined config source (Session.new config world).machine where
  holds m' hvisits := by
    have hholds := Condition.holds_of_visits trivial not_served_file (served_runSuits source _)
      hserver (servedThroughout_newSession hserver world) hvisits
    exact ⟨fun binding hbinding => (hholds.env binding hbinding).2.not_isFileFunction,
      fun a entry hentry => Value.Served.not_isFileFunction (hholds.heap a entry hentry)⟩
  values levels p v hp hv := by
    have hends := (served_point hserver hp).2.2
    rw [hv] at hends
    exact Value.Served.not_isFileFunction hends
  applied levels p f vs m' hp happlies := by
    obtain ⟨found, hcalls⟩ := happlies.callsNative
    intro hreaches
    obtain ⟨cause, hrefusal⟩ := (served_callsNative hserver hp hcalls).refusal hreaches
    -- What is applied has not refused to be called.
    rw [happlies.accepted.1] at hrefusal
    cases hrefusal
  refused levels p f m' hp hcalls hreaches := by
    obtain ⟨cause, hrefusal⟩ := (served_callsNative hserver hp hcalls).refusal hreaches
    obtain ⟨cause', hout⟩ := hcalls.outcome_refused hrefusal
    exact ⟨_, outcome_atLine_fault p.node.line hout⟩
  exits levels p hp hexited := by
    -- Nothing catches the end of a run, so it would leave the program.
    obtain ⟨m', hout⟩ := hp.passesOn Interrupt.uncaught_exited (Prod.ext hexited rfl)
    exact runProgram_ne_exited hserver world source (congrArg Prod.fst hout)

end Runs

/-- A program that is sent to the server is confined, and the request never ends the server. -/
theorem server_confines_programs [Host.Limits] (w : World) (code : String) :
    RunConfined Server.requestConfig code (Server.requestStart w) ∧
      (Server.evaluateRequest w code).1 ≠ .error .exited := by
  refine ⟨runConfined_of_onServer rfl _ code, ?_⟩
  rcases Server.answers_or_crashes w code with ⟨text, hanswers⟩ | ⟨c, m', -, hcrash⟩
  · rw [Server.evaluateRequest_eq_ok_iff.mpr hanswers]
    simp
  · rw [Server.evaluateRequest_of_crash hcrash]
    simp

end ModuLang
