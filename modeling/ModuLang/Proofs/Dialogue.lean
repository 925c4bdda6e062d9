import Mathlib.Tactic.Choose
import ModuLang.Proofs.EvaluatedPoints

/-!
# Steps as dialogues

A step that gets its evaluator as an argument can do nothing with it but ask: it is done, or it asks
at a point and goes on with the answer. A `Dialogue` is the tree of all these questions, and every
construct of the language has one. So the points that a step asks at come one after the other, and
an evaluator that exits at some of them ends the step at the first of these, with the heap of that
point.

`Sequential.stop_cases` says this, and it is the way from what all evaluators do to what a run does
at its points: to learn about a point, stop the run there. `Asks.passesOn` is about the other
interrupts that nothing handles: where one is the answer at a point, the step ends with it.
-/

namespace ModuLang

open Eval Library

variable {α β : Type}

/-- Whether an interrupt ends a run wherever it is raised: nothing handles the exit of the program, or a
crash that is no stack overflow. -/
def Interrupt.Uncaught : Interrupt → Prop
  | .exited => True
  | .failed (.crash c) => c ≠ .stackOverflow
  | _ => False

theorem Interrupt.uncaught_exited : Interrupt.exited.Uncaught :=
  trivial

/-- How a step ends: a value or an interrupt, and the machine afterwards. -/
abbrev Outcome (α : Type) := Except Interrupt α × Machine

/-- A step as it talks with an evaluator. -/
inductive Dialogue (α : Type) where
  | done (out : Outcome α)
  | ask (p : Point) (next : Outcome Value → Dialogue α)

namespace Dialogue

/-- How a dialogue ends with an evaluator. -/
def outcome (ev : Evaluator) : Dialogue α → Outcome α
  | .done out => out
  | .ask p next => (next (ev.answer p)).outcome ev

/-- A dialogue that goes on where another one is done. -/
def andThen (k : Outcome α → Dialogue β) : Dialogue α → Dialogue β
  | .done out => k out
  | .ask p next => .ask p fun answer => (next answer).andThen k

/-- Whether a dialogue ends with an interrupt on a machine, whoever is asked: what is left of the
machine is its heap and its world. -/
def EndsWith (d : Dialogue α) (i : Interrupt) (m : Machine) : Prop :=
  ∃ m', m'.heap = m.heap ∧ m'.world = m.world ∧ ∀ ev, d.outcome ev = (.error i, m')

/-- Whether an uncaught interrupt ends a dialogue wherever it is the answer. -/
def PassesOn : Dialogue α → Prop
  | .done _ => True
  | .ask _ next =>
    (∀ i m, i.Uncaught → (next (.error i, m)).EndsWith i m) ∧ ∀ answer, (next answer).PassesOn

theorem outcome_andThen (k : Outcome α → Dialogue β) (ev : Evaluator) (d : Dialogue α) :
    (d.andThen k).outcome ev = (k (d.outcome ev)).outcome ev := by
  induction d with
  | done out => rfl
  | ask p next ih => exact ih (ev.answer p)

theorem passesOn_andThen {k : Outcome α → Dialogue β} {d : Dialogue α} (hd : d.PassesOn)
    (hk : ∀ out, (k out).PassesOn)
    (huncaught : ∀ i m, i.Uncaught → (k (.error i, m)).EndsWith i m) :
    (d.andThen k).PassesOn := by
  induction d with
  | done out => exact hk out
  | ask p next ih =>
    refine ⟨fun i m hi => ?_, fun answer => ih answer (hd.2 answer)⟩
    -- The first part ends with the interrupt, and so does what goes on from there.
    obtain ⟨m₁, hheap₁, hworld₁, hout₁⟩ := hd.1 i m hi
    obtain ⟨m₂, hheap₂, hworld₂, hout₂⟩ := huncaught i m₁ hi
    refine ⟨m₂, hheap₂.trans hheap₁, hworld₂.trans hworld₁, fun ev => ?_⟩
    rw [outcome_andThen, hout₁, hout₂]

end Dialogue

/-! ### Sequential steps -/

/-- Whether something that is made by means of an evaluator is a dialogue with it. -/
def Dialogic (f : Evaluator → Outcome α) : Prop :=
  ∃ d : Dialogue α, d.PassesOn ∧ ∀ ev, f ev = d.outcome ev

/-- Whether a step is a dialogue with its evaluator on every machine. -/
def Sequential (F : Evaluator → Eval α) : Prop :=
  ∀ m, Dialogic fun ev => (F ev).outcome m

theorem dialogic_const (out : Outcome α) : Dialogic fun _ => out :=
  ⟨.done out, trivial, fun _ => rfl⟩

/-- What is done with the outcome of a dialogue belongs to the dialogue, if it passes uncaught
interrupts on. -/
theorem Dialogic.andThen {f : Evaluator → Outcome α} {g : Outcome α → Evaluator → Outcome β}
    (hf : Dialogic f) (hg : ∀ out, Dialogic (g out))
    (huncaught : ∀ (i : Interrupt) m, i.Uncaught → ∃ m', m'.heap = m.heap ∧ m'.world = m.world ∧
      ∀ ev, g (.error i, m) ev = (.error i, m')) :
    Dialogic fun ev => g (f ev) ev := by
  obtain ⟨d, hd, hout⟩ := hf
  choose k hk hkout using hg
  refine ⟨d.andThen k, Dialogue.passesOn_andThen hd hk fun i m hi => ?_, fun ev => ?_⟩
  · obtain ⟨m', hheap, hworld, hend⟩ := huncaught i m hi
    exact ⟨m', hheap, hworld, fun ev => (hkout _ ev).symm.trans (hend ev)⟩
  · rw [Dialogue.outcome_andThen, ← hout]
    exact hkout (f ev) ev

theorem sequential_const (x : Eval α) : Sequential fun _ => x :=
  fun m => dialogic_const (x.outcome m)

/-- Asking the evaluator. -/
theorem sequential_ask (config : Config) (node : Node) : Sequential fun ev => ev config node :=
  fun m => ⟨.ask ⟨config, node, m⟩ .done,
    ⟨fun _ m' _ => ⟨m', rfl, rfl, fun _ => rfl⟩, fun _ => trivial⟩, fun _ => rfl⟩

section Rules

variable {F G : Evaluator → Eval α} {K : α → Evaluator → Eval β}

theorem Sequential.ite {c : Prop} [Decidable c] (hF : Sequential F) (hG : Sequential G) :
    Sequential fun ev => if c then F ev else G ev := by
  by_cases hc : c
  · simpa only [if_pos hc] using hF
  · simpa only [if_neg hc] using hG

theorem Sequential.bind (hF : Sequential F) (hK : ∀ a, Sequential (K a)) :
    Sequential fun ev => F ev >>= fun a => K a ev := by
  intro m
  simp only [outcome_bind]
  refine (hF m).andThen (g := fun out ev =>
    match out with
    | (.ok a, m') => (K a ev).outcome m'
    | (.error i, m') => (.error i, m')) ?_ fun _ m' _ => ⟨m', rfl, rfl, fun _ => rfl⟩
  rintro ⟨r, m'⟩
  cases r with
  | ok a => exact hK a m'
  | error i => exact dialogic_const _

/-- A step whose interrupts are handled, all but the uncaught ones. -/
theorem Sequential.tryCatch {handler : Interrupt → Eval α} (hF : Sequential F)
    (huncaught : ∀ i, i.Uncaught → handler i = throw i) :
    Sequential fun ev => MonadExcept.tryCatch (F ev) handler := by
  intro m
  simp only [outcome_tryCatch]
  refine (hF m).andThen (g := fun out _ =>
    match out with
    | (.ok a, m') => (.ok a, m')
    | (.error i, m') => (handler i).outcome m') (fun out => ?_)
    fun i m' hi => ⟨m', rfl, rfl, fun _ => ?_⟩
  · exact dialogic_const _
  · simp only [huncaught i hi]
    rfl

theorem Sequential.inside (hF : Sequential F) (e : Environment) :
    Sequential fun ev => Eval.inside e (F ev) :=
  fun m => (hF { m with env := e }).andThen
    (g := fun out _ => (out.1, { out.2 with env := m.env })) (fun _ => dialogic_const _)
    fun _ m' _ => ⟨{ m' with env := m.env }, rfl, rfl, fun _ => rfl⟩

theorem Sequential.inFrame (hF : Sequential F) (config : Config) (name : String) (counted : Bool) :
    Sequential fun ev => Eval.inFrame config name counted (F ev) := by
  intro m
  unfold Eval.inFrame
  simp only [outcome_get_bind]
  by_cases hlimit : config.maxCallDepth ≤ m.frames.length
  · simp only [if_pos hlimit]
    exact dialogic_const _
  · simp only [if_neg hlimit]
    exact (hF { m with frames := ⟨name, counted, 0⟩ :: m.frames }).andThen
      (g := fun out _ => (out.1, { out.2 with frames := out.2.frames.tail }))
      (fun _ => dialogic_const _)
      fun _ m' _ => ⟨{ m' with frames := m'.frames.tail }, rfl, rfl, fun _ => rfl⟩

theorem Sequential.catchReturn (hF : Sequential F) :
    Sequential fun ev => Eval.catchReturn (F ev) := by
  have hpure : ∀ a, Sequential fun _ => (pure (.ok a) : Eval (Except Value α)) :=
    fun a => sequential_const _
  refine (hF.bind hpure).tryCatch fun i hi => ?_
  cases i with
  | returned v => exact hi.elim
  | _ => rfl

/-- A handler that passes on whatever is no fault passes uncaught interrupts on. -/
theorem Sequential.tryCatch_fault {handler : Interrupt → Eval α} (hF : Sequential F)
    (hcrash : ∀ c, c ≠ .stackOverflow → handler (.failed (.crash c)) = throw (.failed (.crash c)))
    (hexit : handler .exited = throw .exited) :
    Sequential fun ev => MonadExcept.tryCatch (F ev) handler := by
  refine hF.tryCatch fun i hi => ?_
  cases i with
  | returned v => exact hi.elim
  | exited => exact hexit
  | failed failure =>
    cases failure with
    | fault f => exact hi.elim
    | crash c => exact hcrash c hi

theorem Sequential.overflowAt (hF : Sequential F) (line : Int) :
    Sequential fun ev => ModuLang.overflowAt line (F ev) := by
  refine hF.tryCatch_fault (fun c hc => ?_) rfl
  cases c with
  | stackOverflow => exact absurd rfl hc
  | _ => rfl

theorem Sequential.blameFile (hF : Sequential F) (p : Host.Path) :
    Sequential fun ev => ModuLang.blameFile p (F ev) :=
  hF.tryCatch_fault (fun _ _ => rfl) rfl

end Rules

/-! ### The constructs of the language -/

section Constructs

variable (config : Config)

theorem sequential_evaluateAll (nodes : List Node) :
    Sequential fun ev => evaluateAll ev config nodes := by
  induction nodes with
  | nil => exact sequential_const _
  | cons node rest ih =>
    exact (sequential_ask config node).bind fun _ => ih.bind fun _ => sequential_const _

theorem sequential_runBlock (nodes : List Node) : Sequential fun ev => runBlock ev config nodes := by
  induction nodes with
  | nil => exact sequential_const _
  | cons statement rest ih =>
    exact (sequential_const _).bind fun _ => (sequential_ask config statement).bind fun _ => ih

theorem sequential_runBody (passesOver : Bool) (nodes : List Node) :
    Sequential fun ev => runBody ev config passesOver nodes := by
  induction nodes with
  | nil => exact sequential_const _
  | cons statement rest ih =>
    refine (sequential_const _).bind fun _ => ?_
    refine (sequential_ask config statement).catchReturn.bind fun result => ?_
    cases result with
    | ok _ => exact ih
    | error value => exact ih.ite (sequential_const _)

theorem sequential_runStatements (failure : Option Failure) (nodes : List Node) :
    Sequential fun ev => runStatements ev config failure nodes := by
  induction nodes with
  | nil => exact sequential_const _
  | cons statement rest ih => exact (sequential_ask config statement).bind fun _ => ih

theorem sequential_runTopLevel (failure : Option Failure) (line : Int) (nodes : List Node) :
    Sequential fun ev => runTopLevel ev config failure line nodes := by
  induction nodes generalizing line with
  | nil => exact sequential_const _
  | cons statement rest ih =>
    exact ((sequential_ask config statement).overflowAt _).bind fun _ => ih statement.line

theorem sequential_callFunction (passesOver : Bool) (name : String) (params : List String)
    (body args : List Node) :
    Sequential fun ev => callFunction ev config passesOver name params body args := by
  refine (sequential_const _).bind fun _ => (sequential_const _).bind fun e => ?_
  refine (sequential_const _).bind fun callEnv => (sequential_const _).bind fun argEnv => ?_
  refine ((sequential_evaluateAll config args).inside argEnv).bind fun values => ?_
  refine (sequential_const _).bind fun bodyEnv => ?_
  exact ((sequential_runBody config passesOver body).inFrame config name true).inside bodyEnv

theorem sequential_callNative [Host.Limits] (f : Native) (args : List Node) :
    Sequential fun ev => callNative ev config f args := by
  refine (sequential_const _).bind fun _ => ?_
  cases f.refusal? with
  | some cause => exact sequential_const _
  | none => exact (sequential_evaluateAll config args).bind fun _ => sequential_const _

theorem sequential_callNamed [Host.Limits] (name : String) (args : List Node) :
    Sequential fun ev => callNamed ev config name args := by
  refine (sequential_const _).bind fun e => ?_
  cases e.get? name with
  | none => exact sequential_const _
  | some value =>
    cases value with
    | function fname params body => exact sequential_callFunction config false fname params body args
    | native f => exact sequential_callNative config f args
    | _ => exact sequential_const _

theorem sequential_receiverOf (node : Node) :
    Sequential fun ev => receiverOf ev config node := by
  cases node with
  | identifier name line =>
    exact sequential_const (receiverOf (evaluate 0) config (.identifier name line))
  | _ => exact sequential_ask config _

theorem sequential_resolveObject (node : Node) :
    Sequential fun ev => resolveObject ev config node := by
  simp only [resolveObject_eq]
  exact (sequential_receiverOf config node).bind fun value => sequential_const (addressOf value)

theorem sequential_memberOf (node : Node) (name : String) :
    Sequential fun ev => memberOf ev config node name :=
  (sequential_resolveObject config node).bind fun _ => sequential_const _

theorem sequential_callMember [Host.Limits] (node : Node) (name : String) (args : List Node)
    (line : Int) :
    Sequential fun ev => callMember ev config node name args line := by
  refine (sequential_memberOf config node name).bind fun member => ?_
  obtain ⟨a, member⟩ := member
  cases member with
  | native f => exact (sequential_const _).bind fun o => sequential_callNative config f _
  | function fname params body => exact sequential_callFunction config _ fname params body args
  | _ => exact sequential_const _

theorem sequential_loadFile [Host.Limits] (target : String) :
    Sequential fun ev => loadFile ev config target := by
  unfold loadFile
  refine (sequential_const _).ite ((sequential_const _).bind fun w => ?_)
  cases resolveSource config w (Host.Path.ofString target) with
  | error e => exact sequential_const _
  | ok p =>
    refine (sequential_const _).bind fun source => (sequential_const _).bind fun e => ?_
    refine (sequential_const _).bind fun moduleEnv => Sequential.inside ?_ moduleEnv
    refine Sequential.bind ?_ fun _ => sequential_const _
    exact ((sequential_runStatements _ _ _).inFrame _ _ _).blameFile p

theorem sequential_importTarget [Host.Limits] (target : Quotation) (asName : Option String) :
    Sequential fun ev => importTarget ev config target asName := by
  unfold importTarget
  refine ((sequential_loadFile config _).bind fun members => sequential_const _).ite ?_
  exact sequential_const _

theorem sequential_evaluateProperties (properties : List (String × Node)) :
    Sequential fun ev => evaluateProperties ev config properties := by
  induction properties with
  | nil => exact sequential_const _
  | cons property rest ih =>
    refine (sequential_ask config property.2).bind fun value => ?_
    exact (sequential_const _).bind fun copy => ih.bind fun _ => sequential_const _

theorem sequential_evaluateBinding (name : String) (node : Node) :
    Sequential fun ev => evaluateBinding ev config name node := by
  refine (sequential_const _).ite ?_
  cases node with
  | identifier source line =>
    exact sequential_const (Eval.env >>= fun e =>
      ofCause (e.require "Variable" source) >>= fun value => copyValue value >>= define name)
  | _ => exact (sequential_ask config _).bind fun value => sequential_const _

/-- Every node is a dialogue with the evaluator for the nodes inside it. -/
theorem sequential_evaluateNode [Host.Limits] (node : Node) :
    Sequential fun ev => evaluateNode ev config node := by
  -- What comes after an answer depends on it alone, so a case is the chain of its questions.
  cases node with
  | record properties line =>
    exact (sequential_evaluateProperties config properties).bind fun _ => sequential_const _
  | binary op left right line =>
    refine (sequential_ask config left).bind fun l => (sequential_ask config right).bind fun r => ?_
    exact sequential_const _
  | isPresent value line => exact (sequential_ask config value).bind fun _ => sequential_const _
  | call name args line => exact sequential_callNamed config name args
  | property object name line =>
    exact (sequential_memberOf config object name).bind fun _ => sequential_const _
  | methodCall object name args line => exact sequential_callMember config object name args line
  | binding name value line =>
    exact (sequential_evaluateBinding config name value).bind fun _ => sequential_const _
  | importing target asName line =>
    exact (sequential_importTarget config target asName).bind fun _ => sequential_const _
  | conditional condition body line =>
    refine (sequential_ask config condition).bind fun value => ?_
    cases value with
    | bool b =>
      cases b with
      | true => exact (sequential_runBlock config body).bind fun _ => sequential_const _
      | false => exact sequential_const _
    | _ => exact sequential_const _
  | returning value line =>
    cases value with
    | none => exact sequential_const _
    | some value => exact (sequential_ask config value).bind fun _ => sequential_const _
  | literal | text | identifier | definition | unknown => exact sequential_const _

end Constructs

/-! ### Runs that are stopped -/

open Classical in
/-- An evaluator that is interrupted at some points: it exits there, unless another interrupt is
given, and leaves the machine of the point, unless another one is. -/
noncomputable def Evaluator.stopAt (ev : Evaluator) (B : Point → Prop) (i : Interrupt := .exited)
    (leave : Point → Machine := Point.machine) : Evaluator :=
  fun config node => ExceptT.mk fun m =>
    if B ⟨config, node, m⟩ then (.error i, leave ⟨config, node, m⟩) else (ev config node).outcome m

section StopAt

variable (ev : Evaluator) {B : Point → Prop} {i : Interrupt} {leave : Point → Machine} {p : Point}

theorem Evaluator.answer_stopAt_of_mem (hp : B p) :
    (ev.stopAt B i leave).answer p = (.error i, leave p) :=
  if_pos hp

theorem Evaluator.answer_stopAt_of_not_mem (hp : ¬B p) :
    (ev.stopAt B i leave).answer p = ev.answer p :=
  if_neg hp

end StopAt

open Classical in
/-- An evaluator that answers in another way at one point. -/
noncomputable def Evaluator.answeringAt (ev : Evaluator) (p : Point) (out : Outcome Value) :
    Evaluator :=
  fun config node => ExceptT.mk fun m =>
    if (⟨config, node, m⟩ : Point) = p then out else (ev config node).outcome m

/-- A dialogue asks at its first point: the program could exit there, and leave another world. -/
theorem Dialogue.exists_outcome_ne {p : Point} {next : Outcome Value → Dialogue α}
    (hd : (Dialogue.ask p next).PassesOn) (ev : Evaluator) :
    ∃ ev' : Evaluator, (∀ q, q ≠ p → ev'.answer q = ev.answer q) ∧
      (Dialogue.ask p next).outcome ev' ≠ (Dialogue.ask p next).outcome ev := by
  let world := ((Dialogue.ask p next).outcome ev).2.world
  let stop : Machine := { p.machine with world := { world with clock := world.clock + 1 } }
  refine ⟨ev.answeringAt p (.error .exited, stop), fun q hq => if_neg hq, fun heq => ?_⟩
  obtain ⟨m', -, hworld, hout⟩ := hd.1 .exited stop Interrupt.uncaught_exited
  have hanswer : (ev.answeringAt p (.error .exited, stop)).answer p = (.error .exited, stop) :=
    if_pos rfl
  have hend : (Dialogue.ask p next).outcome (ev.answeringAt p (.error .exited, stop)) =
      (.error .exited, m') := by
    rw [Dialogue.outcome, hanswer, hout]
  rw [hend] at heq
  have hclock : world.clock = world.clock + 1 := by
    calc
      world.clock = m'.world.clock := by rw [show world = m'.world from congrArg (·.2.world) heq.symm]
      _ = world.clock + 1 := by rw [hworld]
  omega

/-- Where the first points of a dialogue are not among those at which an evaluator is interrupted, the
two evaluators lead it the same way; else it ends at the first of them. -/
theorem Dialogue.stop_cases {d : Dialogue α} (hd : d.PassesOn) (ev : Evaluator)
    (B : Point → Prop) {i : Interrupt} (hi : i.Uncaught) (leave : Point → Machine := Point.machine) :
    (d.outcome (ev.stopAt B i leave) = d.outcome ev ∧
        ∀ q, B q → ∀ ev', (∀ r, r ≠ q → ev'.answer r = ev.answer r) → d.outcome ev' = d.outcome ev) ∨
      ∃ q, B q ∧ (∃ ev', (∀ r, r ≠ q → ev'.answer r = ev.answer r) ∧ d.outcome ev' ≠ d.outcome ev) ∧
        ∃ m', d.outcome (ev.stopAt B i leave) = (.error i, m') ∧ m'.heap = (leave q).heap := by
  induction d with
  | done out => exact .inl ⟨rfl, fun _ _ _ _ => rfl⟩
  | ask p next ih =>
    by_cases hp : B p
    · refine .inr ⟨p, hp, Dialogue.exists_outcome_ne hd ev, ?_⟩
      obtain ⟨m', hheap, -, hout⟩ := hd.1 i (leave p) hi
      refine ⟨m', ?_, hheap⟩
      rw [outcome, ev.answer_stopAt_of_mem hp, hout]
    · -- The answer is the same, and the dialogue goes on with it.
      have hsame : ∀ {q ev'}, B q → (∀ r, r ≠ q → ev'.answer r = ev.answer r) →
          (ask p next).outcome ev' = (next (ev.answer p)).outcome ev' := by
        intro q ev' hq hagree
        rw [outcome, hagree p fun heq => hp (heq ▸ hq)]
      rw [outcome, outcome, ev.answer_stopAt_of_not_mem hp]
      rcases ih (ev.answer p) (hd.2 _) with ⟨hout, hnever⟩ | ⟨q, hq, ⟨ev', hagree, hne⟩, hstops⟩
      · refine .inl ⟨hout, fun q hq ev' hagree => ?_⟩
        rw [hsame hq hagree]
        exact hnever q hq ev' hagree
      · refine .inr ⟨q, hq, ⟨ev', hagree, ?_⟩, hstops⟩
        rw [hsame hq hagree]
        exact hne

variable {F : Evaluator → Eval α}

/-- A step by means of an evaluator that is interrupted at some points: it asks at none of them, and
ends as without the interrupts; or it asks at one of them, and ends there. -/
theorem Sequential.stop_cases (hF : Sequential F) (ev : Evaluator) (m : Machine)
    (B : Point → Prop) {i : Interrupt} (hi : i.Uncaught) (leave : Point → Machine := Point.machine) :
    ((F (ev.stopAt B i leave)).outcome m = (F ev).outcome m ∧ ∀ q, B q → ¬Asks F ev m q) ∨
      ∃ q, B q ∧ Asks F ev m q ∧
        ∃ m', (F (ev.stopAt B i leave)).outcome m = (.error i, m') ∧ m'.heap = (leave q).heap := by
  obtain ⟨d, hd, hout⟩ := hF m
  unfold Asks
  simp only [hout]
  rcases Dialogue.stop_cases hd ev B hi leave with ⟨hend, hnever⟩ | hstops
  · refine .inl ⟨hend, fun q hq hasks => ?_⟩
    obtain ⟨ev', hagree, hne⟩ := hasks
    exact hne (hnever q hq ev' hagree)
  · exact .inr hstops

/-- A step asks at a point if it ends there wherever it is stopped at that point. -/
theorem Sequential.asks_of_stops (hF : Sequential F) {ev : Evaluator} {m : Machine} {q : Point}
    (h : ∀ leave, ∃ m', (F (ev.stopAt (· = q) .exited leave)).outcome m = (.error .exited, m') ∧
      m'.heap = (leave q).heap) : Asks F ev m q := by
  -- A heap that the step does not leave without the stop.
  let other : Heap := (((F ev).outcome m).2.heap.alloc {}).2
  obtain ⟨m', hstops, hheap⟩ := h fun _ => { heap := other }
  rcases hF.stop_cases ev m (· = q) Interrupt.uncaught_exited fun _ => { heap := other } with
    ⟨hsame, -⟩ | ⟨r, rfl, hasks, -⟩
  · have hsize : other.size = ((F ev).outcome m).2.heap.size + 1 := Heap.size_alloc _ _
    rw [hsame.symm.trans hstops] at hsize
    change other.size = m'.heap.size + 1 at hsize
    rw [hheap] at hsize
    exact absurd hsize (Nat.ne_of_lt (Nat.lt_succ_self _))
  · exact hasks

/-- A step that asks at a point ends there wherever it is stopped at that point. -/
theorem Asks.stops (hF : Sequential F) {ev : Evaluator} {m : Machine} {q : Point} (h : Asks F ev m q)
    (leave : Point → Machine) :
    ∃ m', (F (ev.stopAt (· = q) .exited leave)).outcome m = (.error .exited, m') ∧
      m'.heap = (leave q).heap := by
  rcases hF.stop_cases ev m (· = q) Interrupt.uncaught_exited leave with
    ⟨-, hnever⟩ | ⟨r, rfl, -, hstops⟩
  · exact absurd h (hnever q rfl)
  · exact hstops

section Bind

variable {K : α → Evaluator → Eval β} {ev : Evaluator} {m m' : Machine} {q : Point}

/-- One step after another asks where the first one does. -/
theorem Asks.bind_left (hF : Sequential F) (hK : ∀ a, Sequential (K a)) (h : Asks F ev m q) :
    Asks (fun ev => F ev >>= fun a => K a ev) ev m q := by
  refine (hF.bind hK).asks_of_stops fun leave => ?_
  obtain ⟨m₁, hstops, hheap⟩ := h.stops hF leave
  refine ⟨m₁, ?_, hheap⟩
  rw [outcome_bind, hstops]

/-- One step after another asks where the second one does behind the first. -/
theorem Asks.bind_right (hF : Sequential F) (hK : ∀ a, Sequential (K a)) {a : α}
    (hfirst : (F ev).outcome m = (.ok a, m')) (h : Asks (K a) ev m' q) :
    Asks (fun ev => F ev >>= fun a => K a ev) ev m q := by
  by_cases hleft : Asks F ev m q
  · exact hleft.bind_left hF hK
  refine (hF.bind hK).asks_of_stops fun leave => ?_
  obtain ⟨m₁, hstops, hheap⟩ := h.stops (hK a) leave
  refine ⟨m₁, ?_, hheap⟩
  -- The first step does not get to the point, so it ends as it does without the stop.
  have hsame : (F (ev.stopAt (· = q) .exited leave)).outcome m = (.ok a, m') := by
    rcases hF.stop_cases ev m (· = q) Interrupt.uncaught_exited leave with
      ⟨hsame, -⟩ | ⟨r, rfl, hasks, -⟩
    · exact hsame.trans hfirst
    · exact absurd hasks hleft
  rw [outcome_bind, hsame]
  exact hstops

theorem Asks.congr {G : Evaluator → Eval α} (h : Asks F ev m' q)
    (hsame : ∀ ev', (G ev').outcome m = (F ev').outcome m') : Asks G ev m q := by
  obtain ⟨ev', hagree, hne⟩ := h
  refine ⟨ev', hagree, ?_⟩
  rw [hsame, hsame]
  exact hne

end Bind

/-- Where a dialogue asks and the answer is an uncaught interrupt, it ends with it. -/
theorem Dialogue.outcome_of_uncaught {d : Dialogue α} (hd : d.PassesOn) {ev ev' : Evaluator}
    {q : Point} {i : Interrupt} {m : Machine} (hi : i.Uncaught) (hq : ev.answer q = (.error i, m))
    (hagree : ∀ r, r ≠ q → ev'.answer r = ev.answer r) (hne : d.outcome ev' ≠ d.outcome ev) :
    ∃ m', d.outcome ev = (.error i, m') := by
  induction d with
  | done out => exact absurd rfl hne
  | ask p next ih =>
    by_cases hp : p = q
    · obtain ⟨m', -, -, hout⟩ := hd.1 i m hi
      refine ⟨m', ?_⟩
      rw [outcome, hp, hq, hout]
    · rw [outcome, outcome, hagree p hp] at hne
      exact ih (ev.answer p) (hd.2 _) hne

/-- A step that asks at a point where the answer is an uncaught interrupt ends with it. -/
theorem Asks.passesOn (hF : Sequential F) {ev : Evaluator} {m m' : Machine} {q : Point}
    {i : Interrupt} (hasks : Asks F ev m q) (hi : i.Uncaught) (hq : ev.answer q = (.error i, m')) :
    ∃ m'', (F ev).outcome m = (.error i, m'') := by
  obtain ⟨d, hd, hout⟩ := hF m
  obtain ⟨ev', hagree, hne⟩ := hasks
  simp only [hout] at hne ⊢
  exact d.outcome_of_uncaught hd hi hq hagree hne

/-- A step that gives a value by means of an evaluator that is interrupted at some points asks at none
of them. -/
theorem Sequential.eq_of_stopAt_ok (hF : Sequential F) {ev : Evaluator} {m m' : Machine}
    {B : Point → Prop} {i : Interrupt} {leave : Point → Machine} (hi : i.Uncaught) {a : α}
    (h : (F (ev.stopAt B i leave)).outcome m = (.ok a, m')) : (F ev).outcome m = (.ok a, m') := by
  rcases hF.stop_cases ev m B hi leave with ⟨heq, -⟩ | ⟨q, -, -, m₁, hstops, -⟩
  · rw [← heq, h]
  · rw [h] at hstops
    cases hstops

end ModuLang
