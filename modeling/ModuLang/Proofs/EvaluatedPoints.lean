import ModuLang.Proofs.EvaluationConfinement

/-!
# The points of a run

A run evaluates the statements of its program, each on the machine that the ones before it leave,
and inside a statement it evaluates further nodes on further machines. Which ones these are depends
on the run. But a step gets its evaluator as an argument, so the step itself says what it asks it:
a step asks its evaluator at a point if another answer there can change the outcome.

In a run that starts with the builtins alone every point is known: its node has no object in it but
the receiver of a method, and all objects that the environment holds, and all that these hold, are
there. A step that would ask at any other point could not tell two evaluators apart there, because
it keeps the boundary that hides nothing.
-/

namespace ModuLang

open Eval

variable {α : Type} {ev : Evaluator} {config : Config} {m : Machine}

/-- What is evaluated, and on which machine. -/
structure Point where
  config : Config
  node : Node
  machine : Machine

/-- The answer of an evaluator at a point. -/
def Evaluator.answer (ev : Evaluator) (p : Point) : Except Interrupt Value × Machine :=
  (ev p.config p.node).outcome p.machine

/-- Whether a step asks its evaluator at a point: another answer there can change the outcome. -/
def Asks (F : Evaluator → Eval α) (ev : Evaluator) (m : Machine) (p : Point) : Prop :=
  ∃ ev' : Evaluator, (∀ q, q ≠ p → ev'.answer q = ev.answer q) ∧ (F ev').outcome m ≠ (F ev).outcome m

/-- Runs the statements of a program by means of an evaluator. -/
def runBy [Host.Limits] (config : Config) (source : String) (ev : Evaluator) : Eval Unit :=
  runTopLevel ev config (Source.parse source).failure 0 (Source.parse source).statements

theorem runProgram_eq_runBy [Host.Limits] (config : Config) (source : String) :
    runProgram config source = runBy config source (evaluate stackLimit) :=
  rfl

/-- The points that the run of a program gets to, with the levels that are left there. -/
inductive Evaluates [Host.Limits] (config : Config) (source : String) (m : Machine) :
    Nat → Point → Prop where
  | statement {p : Point} : Asks (runBy config source) (evaluate stackLimit) m p →
      Evaluates config source m stackLimit p
  | inner {levels : Nat} {p q : Point} : Evaluates config source m (levels + 1) p →
      Asks (fun ev => evaluateNode ev p.config p.node) (evaluate levels) p.machine q →
      Evaluates config source m levels q

/-! ### Where a step asks -/

/-- A step whose outcome does not depend on its evaluator asks nowhere. -/
theorem not_asks_of_outcome {F : Evaluator → Eval α} {p : Point}
    (h : ∀ ev', (F ev').outcome m = (F ev).outcome m) : ¬Asks F ev m p := by
  rintro ⟨ev', -, hdiffers⟩
  exact hdiffers (h ev')

/-- Evaluating a node asks for it. -/
theorem Asks.eq_of_ask {node : Node} {p : Point} (h : Asks (fun ev => ev config node) ev m p) :
    p = ⟨config, node, m⟩ := by
  obtain ⟨ev', hagree, hdiffers⟩ := h
  refine Classical.byContradiction fun hne => hdiffers ?_
  exact hagree ⟨config, node, m⟩ fun heq => hne heq.symm

/-- A step whose interrupts are handled asks where it would. -/
theorem Asks.of_tryCatch {F : Evaluator → Eval α} {handler : Interrupt → Eval α} {p : Point}
    (h : Asks (fun ev => tryCatch (F ev) handler) ev m p) : Asks F ev m p := by
  obtain ⟨ev', hagree, hdiffers⟩ := h
  refine ⟨ev', hagree, fun hsame => hdiffers ?_⟩
  simp only [outcome_tryCatch, hsame]

/-- One step after another asks where the first one does, or where the second one does behind it. -/
theorem Asks.bind_cases {β : Type} {F : Evaluator → Eval α} {K : α → Evaluator → Eval β} {p : Point}
    (h : Asks (fun ev => F ev >>= fun a => K a ev) ev m p) :
    Asks F ev m p ∨ ∃ a m', (F ev).outcome m = (.ok a, m') ∧ Asks (K a) ev m' p := by
  obtain ⟨ev', hagree, hdiffers⟩ := h
  by_cases hfirst : (F ev').outcome m = (F ev).outcome m
  · -- The first step ends in the same way, so it is the second one that differs.
    refine .inr ?_
    simp only [outcome_bind, hfirst] at hdiffers
    cases hout : (F ev).outcome m with
    | mk r m' =>
      rw [hout] at hdiffers
      cases r with
      | error i => exact absurd rfl hdiffers
      | ok a => exact ⟨a, m', rfl, ev', hagree, hdiffers⟩
  · exact .inl ⟨ev', hagree, hfirst⟩

/-- A step that goes on without its evaluator asks where it begins. -/
theorem Asks.of_bind {β : Type} {F : Evaluator → Eval α} {k : α → Eval β} {p : Point}
    (h : Asks (fun ev => F ev >>= k) ev m p) : Asks F ev m p := by
  rcases h.bind_cases with hfirst | ⟨_, _, -, hrest⟩
  · exact hfirst
  · exact absurd hrest (not_asks_of_outcome fun _ => rfl)

/-- A binding asks for its value and for nothing else. -/
theorem Asks.of_binding {name : String} {value : Node} {line : Int} {p : Point}
    (h : Asks (fun ev => evaluateNode ev config (.binding name value line)) ev m p) :
    p = ⟨config, value, m⟩ := by
  have hbinding : Asks (fun ev => evaluateBinding ev config name value) ev m p := h.of_bind
  unfold evaluateBinding at hbinding
  cases hreserved : isReservedName name with
  | true =>
    rw [hreserved] at hbinding
    exact absurd hbinding (not_asks_of_outcome fun _ => rfl)
  | false =>
    rw [hreserved] at hbinding
    cases value with
    | identifier source line => exact absurd hbinding (not_asks_of_outcome fun _ => rfl)
    | _ => exact hbinding.of_bind.eq_of_ask

/-! ### Known points -/

/-- Whether everything that can be met from a point is there. -/
structure Point.Known (p : Point) : Prop where
  fit : Fit .clear p.machine.heap.size p.node
  heap : HeapKnown .clear p.machine.heap
  env : (knownEnv .clear).holds p.machine.heap.size p.machine.env

/-- A step that keeps the boundary asks only at known points. -/
theorem Asks.known {F : Evaluator → Eval α} {P : Nat → α → Prop} {p : Point}
    (hF : ∀ ev', Complies .clear ev ev' → Keeps .clear (knownEnv .clear) m (F ev) (F ev') P)
    (hev : Complies .clear ev ev) (hheap : HeapKnown .clear m.heap)
    (henv : (knownEnv .clear).holds m.heap.size m.env) (h : Asks F ev m p) : p.Known := by
  obtain ⟨ev', hagree, hdiffers⟩ := h
  refine Classical.byContradiction fun hunknown => ?_
  -- The two evaluators agree at all known points, so the step cannot tell them apart.
  have hcomplies : Complies .clear ev ev' := by
    intro config node m' hfit hheap' henv'
    have hne : (⟨config, node, m'⟩ : Point) ≠ p := by
      rintro rfl
      exact hunknown ⟨hfit, hheap', henv'⟩
    obtain ⟨-, hkept⟩ := hev config node m' hfit hheap' henv'
    exact ⟨(hagree _ hne).symm, hkept⟩
  obtain ⟨hsame, -⟩ := hF ev' hcomplies hheap henv
  exact hdiffers hsame.symm

theorem heapKnown_empty (R : Boundary) (h : ∀ a, ¬R.hidden a) : HeapKnown R {} :=
  fun _ => ⟨fun a ha => absurd ha (h a), fun a ha => absurd ha (Nat.not_lt_zero a)⟩

theorem knownEnv_initialEnvironment (R : Boundary) (config : Config) (n : Nat) :
    (knownEnv R).holds n (initialEnvironment config) := by
  have hempty : (knownEnv R).holds n {} := fun binding hbinding => absurd hbinding List.not_mem_nil
  refine knownEnv_update hempty fun binding hbinding => ?_
  obtain ⟨f, -, rfl⟩ := List.mem_map.mp hbinding
  exact known_native _

/-- Every point of a run that starts with the builtins alone is known. -/
theorem Evaluates.known [Host.Limits] {world : Host.World} {source : String} {levels : Nat}
    {p : Point}
    (h : Evaluates config source (Session.new config world).machine levels p) : p.Known := by
  induction h with
  | statement hasks =>
    refine hasks.known (P := fun _ _ => True) (fun ev' hev' => ?_) (complies_evaluate _ _) ?_ ?_
    · exact keeps_runTopLevel hev' _ fun _ => Source.parse_plain source
    · exact heapKnown_empty _ fun _ => not_false
    · exact knownEnv_initialEnvironment _ config _
  | inner _ hasks ih =>
    refine hasks.known (P := Known .clear) (fun ev' hev' => ?_) (complies_evaluate _ _) ih.heap ih.env
    exact keeps_evaluateNode hev' ih.fit

/-! ### The statements of a run -/

open Classical in
/-- An evaluator that answers with an interrupt at one point. -/
noncomputable def Evaluator.interruptAt (ev : Evaluator) (p : Point) (i : Interrupt) : Evaluator :=
  fun config node => ExceptT.mk fun m =>
    if (⟨config, node, m⟩ : Point) = p then (.error i, m) else (ev config node).outcome m

theorem Evaluator.answer_interruptAt_self (ev : Evaluator) (p : Point) (i : Interrupt) :
    (ev.interruptAt p i).answer p = (.error i, p.machine) :=
  if_pos rfl

theorem Evaluator.answer_interruptAt_of_ne (ev : Evaluator) {p q : Point} (h : q ≠ p)
    (i : Interrupt) : (ev.interruptAt p i).answer q = ev.answer q :=
  if_neg h

variable {failure : Option Failure} {line : Int} {statement : Node} {rest : List Node}

/-- A statement that ends well is followed by the rest. -/
theorem outcome_runTopLevel_ok {v : Value} {m' : Machine}
    (h : ev.answer ⟨config, statement, m⟩ = (.ok v, m')) :
    (runTopLevel ev config failure line (statement :: rest)).outcome m =
      (runTopLevel ev config failure statement.line rest).outcome m' := by
  change (ev config statement).outcome m = _ at h
  rw [runTopLevel, outcome_bind, overflowAt, outcome_tryCatch, h]

/-- A statement that is interrupted ends the run. -/
theorem outcome_runTopLevel_error {i : Interrupt} {m' : Machine}
    (h : ev.answer ⟨config, statement, m⟩ = (.error i, m'))
    (hi : i ≠ .failed (.crash .stackOverflow)) :
    (runTopLevel ev config failure line (statement :: rest)).outcome m = (.error i, m') := by
  change (ev config statement).outcome m = _ at h
  rw [runTopLevel, outcome_bind, overflowAt, outcome_tryCatch, h]
  simp only
  rfl

/-- A run asks for its first statement. -/
theorem asks_first :
    Asks (fun ev => runTopLevel ev config failure line (statement :: rest)) ev m
      ⟨config, statement, m⟩ := by
  have hends : ∀ i, i ≠ .failed (.crash .stackOverflow) →
      (runTopLevel (ev.interruptAt ⟨config, statement, m⟩ i) config failure line
        (statement :: rest)).outcome m = (.error i, m) := fun i hi =>
    outcome_runTopLevel_error (ev.answer_interruptAt_self _ i) hi
  -- Two interrupts give two outcomes, so one of them is not what there was before.
  by_cases hexited : (runTopLevel ev config failure line (statement :: rest)).outcome m =
      (.error .exited, m)
  · refine ⟨ev.interruptAt _ (.returned .null), fun q hq => ev.answer_interruptAt_of_ne hq _, ?_⟩
    rw [hends _ (by simp), hexited]
    simp
  · refine ⟨ev.interruptAt _ .exited, fun q hq => ev.answer_interruptAt_of_ne hq _, ?_⟩
    rw [hends _ (by simp)]
    exact fun heq => hexited heq.symm

/-- A run asks for what it asks for behind its first statement. -/
theorem Asks.later {p : Point} {v : Value} {m' : Machine}
    (h : Asks (fun ev => runTopLevel ev config failure statement.line rest) ev m' p)
    (hfirst : ev.answer ⟨config, statement, m⟩ = (.ok v, m')) (hne : ⟨config, statement, m⟩ ≠ p) :
    Asks (fun ev => runTopLevel ev config failure line (statement :: rest)) ev m p := by
  obtain ⟨ev', hagree, hdiffers⟩ := h
  refine ⟨ev', hagree, ?_⟩
  have hfirst' : ev'.answer ⟨config, statement, m⟩ = (.ok v, m') := (hagree _ hne).trans hfirst
  simp only
  rw [outcome_runTopLevel_ok hfirst, outcome_runTopLevel_ok hfirst']
  exact hdiffers

theorem outcome_of_overflowAt_ok {x : Eval α} {a : α} {m' : Machine}
    (h : (overflowAt line x).outcome m = (.ok a, m')) : x.outcome m = (.ok a, m') := by
  refine outcome_of_tryCatch_eq_ok h fun i m₁ hi => ?_
  split at hi <;> cases hi

/-- In a run that ends well every statement does. -/
theorem answer_of_runTopLevel_ok {m' : Machine}
    (h : (runTopLevel ev config failure line (statement :: rest)).outcome m = (.ok (), m')) :
    ∃ v m₁, ev.answer ⟨config, statement, m⟩ = (.ok v, m₁) ∧
      (runTopLevel ev config failure statement.line rest).outcome m₁ = (.ok (), m') := by
  rw [runTopLevel] at h
  obtain ⟨v, m₁, hfirst, hrest⟩ := outcome_bind_eq_ok h
  exact ⟨v, m₁, outcome_of_overflowAt_ok hfirst, hrest⟩

/-- A run asks for its first statement, or it asks behind it. -/
theorem Asks.runTopLevel_cases {p : Point}
    (h : Asks (fun ev => runTopLevel ev config failure line (statement :: rest)) ev m p) :
    p = ⟨config, statement, m⟩ ∨ ∃ v m', ev.answer ⟨config, statement, m⟩ = (.ok v, m') ∧
      Asks (fun ev => runTopLevel ev config failure statement.line rest) ev m' p := by
  rcases h.bind_cases with hfirst | ⟨v, m', hout, hrest⟩
  · exact .inl hfirst.of_tryCatch.eq_of_ask
  · exact .inr ⟨v, m', outcome_of_overflowAt_ok hout, hrest⟩

/-- A run asks for every statement that it gets to: if the ones before it end well, then it is
evaluated on the machine that they leave. -/
theorem asks_statement {before : List Node} {m' : Machine}
    (h : (runTopLevel ev config none line before).outcome m = (.ok (), m')) :
    Asks (fun ev => runTopLevel ev config failure line (before ++ statement :: rest)) ev m
      ⟨config, statement, m'⟩ := by
  induction before generalizing m line with
  | nil =>
    cases h
    exact asks_first
  | cons first before ih =>
    obtain ⟨v, m₁, hfirst, hbefore⟩ := answer_of_runTopLevel_ok h
    by_cases hsame : (⟨config, first, m⟩ : Point) = ⟨config, statement, m'⟩
    · rw [← hsame]
      exact asks_first
    · exact (ih hbefore).later hfirst hsame

theorem evaluates_statement {source : String} {before : List Node} {m' : Machine}
    (hparse : Source.parse source = ⟨before ++ statement :: rest, failure⟩)
    (h : (runTopLevel (evaluate stackLimit) config none 0 before).outcome m = (.ok (), m')) :
    Evaluates config source m stackLimit ⟨config, statement, m'⟩ := by
  refine .statement ?_
  unfold runBy
  rw [hparse]
  exact asks_statement h

/-- The machine after the import of a package under its own name. -/
def importedPackage (m : Machine) (name : String) (members : List (String × Value)) : Machine :=
  { m with
    heap := (m.heap.alloc { properties := Table.ofList members }).2
    env := m.env.define name (.object m.heap.size) }

/-- A package is imported under its own name as one object. -/
theorem outcome_importPackage (ev : Evaluator) {target : Quotation} {name : String}
    {members : List (String × Value)} (hname : Source.unquote target.raw = name)
    (hpackage : name.endsWith sourceExtension = false)
    (hmembers : importable? config name = some members) :
    (evaluateNode ev config (.importing target none line)).outcome m =
      (.ok .null, importedPackage m name members) := by
  change (importTarget ev config target none >>= fun _ => pure Value.null).outcome m = _
  unfold importTarget
  simp only [hname, hpackage, hmembers]
  rfl

theorem answer_importPackage {target : Quotation} {name : String} {members : List (String × Value)}
    (levels : Nat) (hname : Source.unquote target.raw = name)
    (hpackage : name.endsWith sourceExtension = false)
    (hmembers : importable? config name = some members) :
    (evaluate (levels + 1)).answer ⟨config, .importing target none line, m⟩ =
      (.ok .null, importedPackage m name members) := by
  change (atLine line _).outcome m = _
  rw [atLine, outcome_tryCatch, outcome_importPackage _ hname hpackage hmembers]

/-- The members of the package `array`. -/
def arrayMembers : List (String × Value) :=
  byName ([ArrayFunction.new, .at, .push, .pop, .shift, .unshift].map Native.array)

theorem importable_array : importable? {} "array" = some arrayMembers := by
  cbv

/-- The members of the package `json`. -/
def jsonMembers : List (String × Value) :=
  byName ([JsonFunction.new, .stringify, .parse].map Native.json)

theorem importable_json : importable? {} "json" = some jsonMembers := by
  cbv

/-- The machine that the first statements of a program leave, in a world with nothing in it. -/
def machineAfter (before : List Node) : Machine :=
  ((runTopLevel (evaluate stackLimit) {} none 0 before).outcome (Session.new {} {}).machine).2

end ModuLang
