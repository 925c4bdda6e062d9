import ModuLang.Proofs.EvaluationEffects

/-!
# The effects of a run

From one point of a run to the next the heap goes through changes, each of which makes an object,
copies objects, takes an element away or stores a copy. If all properties that the run sets are
permitted, then all these changes are. So what holds of the heap with nothing in it and is kept by
every permitted change holds at every point of the run.

The permission is asked of the applications at the points of the run. To use it at a point, the run
is stopped at every point where something else would happen: it gets to none of them, so it goes on
as it was.
-/

namespace ModuLang

open Eval

variable {α : Type} {permits : Permission} {ev : Evaluator} {m : Machine} {config : Config}

/-! ### Evaluation with every permission -/

/-- The permission to set every property. -/
def Permission.any : Permission := fun _ _ _ _ => True

theorem Permission.any_allows (h : Heap) (f : Native) (args : List Value) :
    Permission.any.allows h f args :=
  fun _ _ _ _ _ => trivial

/-- Evaluation moves the machine. -/
theorem advances_evaluate [Host.Limits] (levels : Nat) : Advances .any (evaluate levels) := by
  induction levels with
  | zero => exact ⟨fun R => complies_evaluate R 0, fun p _ => .refl _ p.machine⟩
  | succ levels ih =>
    refine ⟨fun R => complies_evaluate R (levels + 1), fun p hp => ?_⟩
    have hnode : Moves .any p.machine (evaluateNode (evaluate levels) p.config p.node) :=
      moves_evaluateNode ih hp.fit fun f vs m' _ => Permission.any_allows m'.heap f vs
    exact hnode.atLine p.node.line hp.heap hp.env

/-! ### Stopping a run -/

/-- An evaluator that exits at some points keeps the boundaries that it kept. -/
theorem Complies.stopAt {R : Boundary} (hev : Complies R ev ev) (B : Point → Prop) :
    Complies R (ev.stopAt B) (ev.stopAt B) := by
  intro config node m hfit hheap henv
  refine ⟨rfl, ?_⟩
  by_cases hp : B ⟨config, node, m⟩
  · have hanswer : ((ev.stopAt B) config node).outcome m = (.error .exited, m) :=
      ev.answer_stopAt_of_mem hp
    rw [hanswer]
    exact ⟨.refl R m, hheap, henv, trivial⟩
  · have hanswer : ((ev.stopAt B) config node).outcome m = (ev config node).outcome m :=
      ev.answer_stopAt_of_not_mem hp
    rw [hanswer]
    exact (hev config node m hfit hheap henv).2

/-- An evaluator that exits wherever it would not move the machine moves it. -/
theorem advances_stopAt (hev : ∀ R, Complies R ev ev) {B : Point → Prop}
    (hB : ∀ p, p.Known → ¬B p → Moved permits p.machine (ev.answer p).2) :
    Advances permits (ev.stopAt B) := by
  refine ⟨fun R => (hev R).stopAt B, fun p hp => ?_⟩
  by_cases hstop : B p
  · rw [ev.answer_stopAt_of_mem hstop]
    exact .refl _ _
  · rw [ev.answer_stopAt_of_not_mem hstop]
    exact hB p hp hstop

/-- A step moves the machine, and there are only effects up to every point that it asks at, if its
evaluator moves the machine at these points, and the step does with every evaluator that exits where
this one would not. -/
theorem Sequential.moved {F : Evaluator → Eval α} (hF : Sequential F)
    (hev : ∀ R, Complies R ev ev)
    (hasks : ∀ q, Asks F ev m q → Moved permits q.machine (ev.answer q).2)
    (hmoves : ∀ B, Advances permits (ev.stopAt B) → Moved permits m ((F (ev.stopAt B)).outcome m).2) :
    Moved permits m ((F ev).outcome m).2 ∧
      ∀ q, Asks F ev m q → Effects permits m.heap q.machine.heap := by
  constructor
  · let B : Point → Prop := fun q => ¬Moved permits q.machine (ev.answer q).2
    have hmoved := hmoves B (advances_stopAt hev fun p _ hp => Classical.not_not.mp hp)
    rcases hF.stop_cases ev m B Interrupt.uncaught_exited with ⟨hsame, -⟩ | ⟨q, hq, hask, -⟩
    · rw [← hsame]
      exact hmoved
    · exact absurd (hasks q hask) hq
  · intro q hask
    let B : Point → Prop := fun r => r = q ∨ ¬Moved permits r.machine (ev.answer r).2
    have hadvances : Advances permits (ev.stopAt B) :=
      advances_stopAt hev fun p _ hp => Classical.not_not.mp fun hnot => hp (.inr hnot)
    have hmoved := hmoves B hadvances
    -- The step ends at the point, because it goes through all points before it.
    rcases hF.stop_cases ev m B Interrupt.uncaught_exited with ⟨-, hnever⟩ | ⟨r, hr, hask', m', hstops, hheap⟩
    · exact absurd hask (hnever q (.inl rfl))
    · have hrq : r = q := hr.resolve_right fun hnot => hnot (hasks r hask')
      rw [hstops] at hmoved
      rw [← hrq, ← hheap]
      exact hmoved.effects

theorem sequential_nativeArguments (config : Config) (f : Native) (args : List Node) :
    Sequential fun ev => nativeArguments ev config f args := by
  refine (sequential_const _).bind fun _ => ?_
  cases f.refusal? with
  | some cause => exact sequential_const _
  | none => exact sequential_evaluateAll config args

/-- What is applied by means of an evaluator that is interrupted at some points is applied without the
interrupts as well. -/
theorem Applies.of_stopAt {node : Node} {f : Native} {vs : List Value} {m' : Machine}
    {B : Point → Prop} {i : Interrupt} {leave : Point → Machine} (hi : i.Uncaught)
    (h : Applies (ev.stopAt B i leave) config m node f vs m') : Applies ev config m node f vs m' := by
  cases h with
  | named hname harguments =>
    exact .named hname ((sequential_nativeArguments config f _).eq_of_stopAt_ok hi harguments)
  | property hmember harguments =>
    exact .property ((sequential_memberOf config _ _).eq_of_stopAt_ok hi hmember)
      ((sequential_nativeArguments config f _).eq_of_stopAt_ok hi harguments)

/-! ### The points of a run -/

/-- Whether all that a run applies is permitted. -/
def RunPermitted [Host.Limits] (permits : Permission) (config : Config) (source : String)
    (m : Machine) : Prop :=
  ∀ levels p f vs m', Evaluates config source m (levels + 1) p →
    Applies (evaluate levels) p.config p.machine p.node f vs m' → permits.allows m'.heap f vs

theorem runPermitted_any [Host.Limits] (source : String) : RunPermitted .any config source m :=
  fun _ _ f vs m' _ _ => Permission.any_allows m'.heap f vs

variable {world : Host.World} {source : String} {levels : Nat} {p : Point}

/-- A node that a run gets to moves the machine, and there are only effects up to the points inside
it, if this holds of the points inside it. -/
theorem Evaluates.moved_of_inner [Host.Limits]
    (hpermits : RunPermitted permits config source (Session.new config world).machine)
    (hp : Evaluates config source (Session.new config world).machine (levels + 1) p)
    (hinner : ∀ q, Evaluates config source (Session.new config world).machine levels q →
      Moved permits q.machine ((evaluate levels).answer q).2) :
    Moved permits p.machine
        ((evaluateNode (evaluate levels) p.config p.node).outcome p.machine).2 ∧
      ∀ q, Asks (fun ev => evaluateNode ev p.config p.node) (evaluate levels) p.machine q →
        Effects permits p.machine.heap q.machine.heap := by
  refine (sequential_evaluateNode p.config p.node).moved (fun R => complies_evaluate R levels)
    (fun q hask => hinner q (.inner hp hask)) fun B hB => ?_
  refine moves_evaluateNode hB hp.known.fit (fun f vs m' happlies => ?_) hp.known.heap hp.known.env
  exact hpermits levels p f vs m' hp (happlies.of_stopAt Interrupt.uncaught_exited)

theorem machine_atLine (x : Eval α) (line : Int) : ((atLine line x).outcome m).2 = (x.outcome m).2 := by
  unfold atLine
  rw [outcome_tryCatch]
  obtain ⟨r, m'⟩ := x.outcome m
  cases r with
  | ok a => rfl
  | error i =>
    cases i with
    | failed failure => cases failure <;> rfl
    | _ => rfl

variable [Host.Limits]

/-- Every point of a run moves the machine. -/
theorem Evaluates.moved
    (hpermits : RunPermitted permits config source (Session.new config world).machine)
    (hp : Evaluates config source (Session.new config world).machine levels p) :
    Moved permits p.machine ((evaluate levels).answer p).2 := by
  induction levels generalizing p with
  | zero => exact .refl _ _
  | succ levels ih =>
    have hmoved := (hp.moved_of_inner hpermits fun q hq => ih hq).1
    have hmachine : ((evaluate (levels + 1)).answer p).2 =
        ((evaluateNode (evaluate levels) p.config p.node).outcome p.machine).2 :=
      machine_atLine _ _
    rw [hmachine]
    exact hmoved

/-- In a run that starts with the builtins alone, permitted effects lead to every point, and from it
to where its node ends. -/
theorem Evaluates.effects
    (hpermits : RunPermitted permits config source (Session.new config world).machine)
    (hp : Evaluates config source (Session.new config world).machine levels p) :
    Effects permits {} p.machine.heap ∧
      Effects permits p.machine.heap ((evaluate levels).answer p).2.heap := by
  refine ⟨?_, (hp.moved hpermits).effects⟩
  induction hp with
  | @statement q hask =>
    have hmoves : ∀ B, Advances permits ((evaluate stackLimit).stopAt B) →
        Moved permits (Session.new config world).machine
          ((runBy config source ((evaluate stackLimit).stopAt B)).outcome
            (Session.new config world).machine).2 := fun B hB =>
      moves_runTopLevel hB _ (Source.parse_plain source) (heapKnown_empty _ fun _ => not_false)
        (knownEnv_initialEnvironment _ config _)
    have hrun := (sequential_runTopLevel config (Source.parse source).failure 0
      (Source.parse source).statements).moved (fun R => complies_evaluate R stackLimit)
      (fun q hask => Evaluates.moved hpermits (.statement hask)) hmoves
    exact hrun.2 q hask
  | @inner levels p q hp hask ih =>
    have hinner := hp.moved_of_inner hpermits fun q hq => hq.moved hpermits
    exact ih.trans (hinner.2 q hask)

/-- What holds of the heap with nothing in it and is kept by every permitted change holds at every
point of a run, and where the node of the point ends. -/
theorem Evaluates.heap_induction {P : Heap → Prop}
    (hpermits : RunPermitted permits config source (Session.new config world).machine)
    (hp : Evaluates config source (Session.new config world).machine levels p) (hempty : P {})
    (hstep : ∀ {h h'}, HeapKnown .clear h → P h → Effect permits h h' → P h') :
    P p.machine.heap ∧ P ((evaluate levels).answer p).2.heap := by
  have hrun : ∀ {h h'}, Effects permits h h' → HeapKnown .clear h → P h → P h' := by
    intro h h' he hheap hP
    induction he with
    | refl => exact hP
    | tail hbefore hlast ih => exact hstep (Effects.heapKept hbefore hheap).known ih hlast
  obtain ⟨hbefore, hafter⟩ := hp.effects hpermits
  have hpoint := hrun hbefore (heapKnown_empty _ fun _ => not_false) hempty
  exact ⟨hpoint, hrun hafter hp.known.heap hpoint⟩

end ModuLang
