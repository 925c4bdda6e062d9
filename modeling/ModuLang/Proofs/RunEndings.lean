import ModuLang.Proofs.HostLimits

/-!
# How runs end

A run ends well, with an error of the program, or with an interrupt that nothing handles. A `return`
does not end it: the statements of a text have none outside of functions, and a call catches those
of its body.

An interrupt that nothing handles comes from one point of the run. `runProgram_error_iff` says so in
both directions. If the run ends with it, then some node raised it itself: follow the interrupt
inwards from node to node, stopping the run wherever a node inside would raise it, until no node
inside does. And if a node raises it, then every node around it passes it on.
-/

namespace ModuLang

open Eval Host

variable {α : Type} {ev : Evaluator} {config : Config} {m m' : Machine} {levels : Nat} {p : Point}
  {i : Interrupt} {source : String}

theorem Eval.exists_outcome {x : Eval α} {result : Except Interrupt α}
    (h : (x.outcome m).1 = result) : ∃ m', x.outcome m = (result, m') :=
  ⟨_, Prod.ext h rfl⟩

/-! ### Returns -/

/-- Only a `return` returns. -/
theorem RaisesItself.ne_returned [Host.Limits] {node : Node} (h : RaisesItself ev config m node i)
    (hnode : ∀ value line, node ≠ .returning value line) (v : Value) : i ≠ .returned v := by
  cases h with
  | native _ happly =>
    rintro rfl
    exact raises_native _ _ _ _ happly
  | returning => exact absurd rfl (hnode _ _)
  | _ => simp

/-- The nodes inside a statement that stands outside of functions stand there as well. -/
theorem Node.Statement.children {s c : Node} (hs : s.Statement false)
    (hdefinition : ∀ name params body line, s ≠ .definition name params body line)
    (hc : c ∈ s.children) : c.Statement false := by
  cases hs with
  | expression hexpr => exact .expression (hexpr.children hc)
  | binding hvalue =>
    rw [List.mem_singleton.mp hc]
    exact .expression hvalue
  | importing => exact absurd hc List.not_mem_nil
  | definition _ => exact absurd rfl (hdefinition _ _ _ _)
  | conditional hcondition hbody =>
    rcases List.mem_cons.mp hc with rfl | hc
    · exact .expression hcondition
    · exact hbody c hc

theorem Node.Statement.ne_returning {s : Node} (hs : s.Statement false) (value : Option Node)
    (line : Int) : s ≠ .returning value line := by
  cases hs with
  | expression hexpr =>
    rintro rfl
    exact hexpr.form
  | _ => simp

/-- A statement that stands outside of functions never returns. -/
theorem Node.Statement.never_returns [Host.Limits] {s : Node} (hs : s.Statement false)
    (levels : Nat) (config : Config) (m : Machine) :
    Raises (fun i => ∀ v, i ≠ .returned v) m (evaluate levels config s) := by
  have hfault : ∀ f v, Interrupt.failed (.fault f) ≠ .returned v := by simp
  induction levels generalizing s config m with
  | zero => exact raises_throw (by simp)
  | succ levels ih =>
    refine Raises.atLine hfault ?_ s.line
    by_cases hdefinition : ∃ name params body line, s = .definition name params body line
    · obtain ⟨name, params, body, line, rfl⟩ := hdefinition
      exact raises_of_ok rfl
    · have hne : ∀ name params body line, s ≠ .definition name params body line :=
        fun name params body line heq => hdefinition ⟨name, params, body, line, heq⟩
      refine raises_evaluateNode (fun _ => hfault _) (fun c hc m => ih (hs.children hne hc) config m)
        (fun v line m => ih (.expression (Node.expression_literal v line)) config m) ?_
        (fun path text s hs m => ih (Source.parse_statements text s hs) _ m)
        fun i h => h.ne_returned hs.ne_returning
      -- The body of a function may do what it likes.
      intro node m i m' _
      cases i with
      | returned v => exact .inr ⟨v, rfl⟩
      | _ => exact .inl (by simp)

/-! ### What a run raises -/

/-- What a node raises itself by means of an evaluator that is interrupted at some points, it raises
without the interrupts as well. -/
theorem RaisesItself.of_stopAt [Host.Limits] {node : Node} {B : Point → Prop} {j : Interrupt}
    (hj : j.Uncaught)
    (h : RaisesItself (ev.stopAt B j) config m node i) : RaisesItself ev config m node i := by
  cases h with
  | operator hleft hright happly =>
    exact .operator ((sequential_ask config _).eq_of_stopAt_ok hj hleft)
      ((sequential_ask config _).eq_of_stopAt_ok hj hright) happly
  | native happlies happly => exact .native (happlies.of_stopAt hj) happly
  | receiver hobject hv hcrash =>
    exact .receiver hobject ((sequential_receiverOf config _).eq_of_stopAt_ok hj hv) hcrash
  | target hextension hrefused => exact .target hextension hrefused
  | text hextension hnames hroom hrun hfailure =>
    exact .text hextension hnames hroom
      ((sequential_runStatements _ none _).eq_of_stopAt_ok hj hrun) hfailure
  | returning => exact .returning

theorem Interrupt.exists_uncaught_ne (i : Interrupt) : ∃ j, j.Uncaught ∧ j ≠ i := by
  cases i with
  | exited => exact ⟨.failed (.crash .missingKey), by simp [Interrupt.Uncaught], by simp⟩
  | _ => exact ⟨.exited, Interrupt.uncaught_exited, by simp⟩

/-- An evaluator that is interrupted in another way wherever it would raise an interrupt never
raises it. -/
theorem raises_stopAt {j : Interrupt} (hj : j ≠ i) (config : Config) (node : Node) (m : Machine) :
    Raises (· ≠ i) m ((ev.stopAt (fun q => (ev.answer q).1 = .error i) j) config node) := by
  intro k m' hout
  change (ev.stopAt _ j).answer ⟨config, node, m⟩ = (.error k, m') at hout
  by_cases hB : (ev.answer ⟨config, node, m⟩).1 = .error i
  · rw [ev.answer_stopAt_of_mem hB] at hout
    cases hout
    exact hj
  · rw [ev.answer_stopAt_of_not_mem hB] at hout
    rintro rfl
    exact hB (congrArg Prod.fst hout)

theorem outcome_of_atLine_error {x : Eval α} {line : Int} (hi : ∀ f, .failed (.fault f) ≠ i)
    (h : (atLine line x).outcome m = (.error i, m')) : x.outcome m = (.error i, m') := by
  rw [atLine, outcome_tryCatch] at h
  revert h
  obtain ⟨r, m₁⟩ := x.outcome m
  intro h
  cases r with
  | ok a => cases h
  | error k =>
    simp only at h
    split at h
    · cases h
      exact absurd rfl (hi _)
    · exact h

/-- An interrupt that ends a node, other than an error without a line, is raised by a node that it
asks for, or by itself. -/
theorem evaluateNode_error_cases [Host.Limits] {node : Node}
    (hi : ∀ cause, Interrupt.failed (.fault ⟨cause, 0⟩) ≠ i)
    (h : (evaluateNode ev config node).outcome m = (.error i, m')) :
    (∃ q, Asks (fun ev => evaluateNode ev config node) ev m q ∧ (ev.answer q).1 = .error i) ∨
      RaisesItself ev config m node i := by
  obtain ⟨j, hj, hne⟩ := i.exists_uncaught_ne
  rcases (sequential_evaluateNode config node).stop_cases ev m
    (fun q => (ev.answer q).1 = .error i) hj with ⟨hsame, -⟩ | ⟨q, hq, hasks, -⟩
  · refine .inr (Classical.byContradiction fun hitself => ?_)
    -- By means of the evaluator that never raises the interrupt the node does not either.
    rw [← hsame] at h
    refine raises_evaluateNode (I := (· ≠ i)) hi (fun c _ => raises_stopAt hne _ c)
      (fun v line => raises_stopAt hne _ _)
      (fun node m => (raises_stopAt hne _ _ m).mono fun _ => .inl)
      (fun path text s _ => raises_stopAt hne _ s) (fun k hk => ?_) i m' h rfl
    rintro rfl
    exact hitself (hk.of_stopAt hj)
  · exact .inl ⟨q, hasks, hq⟩

section Statements

variable {I : Interrupt → Prop} {failure : Option Failure} {line : Int} {nodes : List Node}

theorem Raises.overflowAt {x : Eval α} (hI : ∀ f, I (.failed (.fault f))) (hx : Raises I m x)
    (line : Int) : Raises I m (ModuLang.overflowAt line x) := by
  refine hx.tryCatch fun i m' hi => ?_
  split
  · exact raises_throw (hI _)
  · exact raises_throw hi

/-- The statements of a program, which may end in a failure of its text to be read. -/
theorem raises_runTopLevel (hI : ∀ f, I (.failed (.fault f)))
    (hnodes : ∀ node ∈ nodes, ∀ m, Raises I m (ev config node))
    (hfailure : ∀ f, failure = some f → I (.failed f)) :
    Raises I m (runTopLevel ev config failure line nodes) := by
  induction nodes generalizing m line with
  | nil =>
    cases failure with
    | none => exact raises_of_ok rfl
    | some f => exact Raises.overflowAt hI (raises_throw (hfailure f rfl)) line
  | cons statement rest ih =>
    refine (Raises.overflowAt hI (hnodes statement List.mem_cons_self m) _).bind fun v m₁ _ => ?_
    exact ih fun node hnode => hnodes node (List.mem_cons_of_mem _ hnode)

/-- A step whose stack overflow is reported ends as the step does, or with that report. -/
theorem outcome_of_overflowAt_error {x : Eval α}
    (h : (overflowAt line x).outcome m = (.error i, m')) :
    x.outcome m = (.error i, m') ∨ x.outcome m = (.error (.failed (.crash .stackOverflow)), m') ∧
      i = .failed (.fault ⟨.recursionTooDeep, line⟩) := by
  rw [overflowAt, outcome_tryCatch] at h
  revert h
  obtain ⟨r, m₁⟩ := x.outcome m
  intro h
  cases r with
  | ok a => cases h
  | error k =>
    simp only at h
    split at h
    · cases h
      exact .inr ⟨rfl, rfl⟩
    · exact .inl h

/-- What ends the statements of a program: an interrupt that one of them raises, a failure of the
text to be read behind them, or the report of a stack overflow. -/
theorem runTopLevel_error_cases
    (h : (runTopLevel ev config failure line nodes).outcome m = (.error i, m')) :
    (∃ q, Asks (fun ev => runTopLevel ev config failure line nodes) ev m q ∧
      (ev.answer q).1 = .error i) ∨
    (∃ f m', failure = some f ∧ i = .failed f ∧
      (runTopLevel ev config none line nodes).outcome m = (.ok (), m')) ∨
    ∃ l, i = .failed (.fault ⟨.recursionTooDeep, l⟩) ∧
      ((∃ s ∈ nodes, l = s.line) ∨ failure = some (.crash .stackOverflow)) := by
  induction nodes generalizing m line with
  | nil =>
    cases failure with
    | none => cases h
    | some f =>
      rcases outcome_of_overflowAt_error h with hthrow | ⟨hthrow, rfl⟩
      · cases hthrow
        exact .inr (.inl ⟨f, _, rfl, rfl, rfl⟩)
      · cases hthrow
        exact .inr (.inr ⟨line, rfl, .inr rfl⟩)
  | cons statement rest ih =>
    rcases hout : (overflowAt statement.line (ev config statement)).outcome m with ⟨j | v, m₁⟩
    · rw [runTopLevel, outcome_bind_error hout] at h
      cases h
      rcases outcome_of_overflowAt_error hout with hraised | ⟨-, rfl⟩
      · exact .inl ⟨_, asks_first, congrArg Prod.fst hraised⟩
      · exact .inr (.inr ⟨_, rfl, .inl ⟨statement, List.mem_cons_self, rfl⟩⟩)
    · -- The first statement ends well, so the others end the run.
      have hfirst : ev.answer ⟨config, statement, m⟩ = (.ok v, m₁) := outcome_of_overflowAt_ok hout
      rw [outcome_runTopLevel_ok hfirst] at h
      rcases ih h with ⟨q, hasks, hq⟩ | ⟨f, m₂, hf, hi, hrest⟩ | ⟨l, hi, hl⟩
      · refine .inl ⟨q, hasks.later hfirst ?_, hq⟩
        rintro rfl
        rw [hfirst] at hq
        cases hq
      · exact .inr (.inl ⟨f, m₂, hf, hi, (outcome_runTopLevel_ok hfirst).trans hrest⟩)
      · refine .inr (.inr ⟨l, hi, hl.imp_left ?_⟩)
        rintro ⟨s, hs, hline⟩
        exact ⟨s, List.mem_cons_of_mem _ hs, hline⟩

theorem outcome_runStatements_failure {f : Failure}
    (h : (runStatements ev config none nodes).outcome m = (.ok (), m')) :
    (runStatements ev config (some f) nodes).outcome m = (.error (.failed f), m') := by
  induction nodes generalizing m with
  | nil =>
    cases h
    rfl
  | cons statement rest ih =>
    rw [runStatements] at h ⊢
    obtain ⟨v, m₁, hfirst, hrest⟩ := outcome_bind_eq_ok h
    rw [outcome_bind, hfirst]
    exact ih hrest

end Statements

/-! ### What is raised ends the run -/

theorem outcome_atLine_uncaught {x : Eval α} (line : Int) (hi : i.Uncaught)
    (h : x.outcome m = (.error i, m')) : (atLine line x).outcome m = (.error i, m') := by
  rw [atLine, outcome_tryCatch, h]
  cases i with
  | failed failure =>
    cases failure with
    | fault f => exact hi.elim
    | crash c => rfl
  | returned v => rfl
  | exited => rfl

theorem outcome_atLine_fault {x : Eval α} {f : Fault} (line : Int)
    (h : x.outcome m = (.error (.failed (.fault f)), m')) :
    (atLine line x).outcome m = (.error (.failed (.fault (f.atLine line))), m') := by
  rw [atLine, outcome_tryCatch, h]
  rfl

/-- An error that leaves a step with a line is an error of the step, which got the line if it had
none. -/
theorem exists_of_atLine_fault {x : Eval α} {f : Fault} {line : Int}
    (h : (atLine line x).outcome m = (.error (.failed (.fault f)), m')) :
    ∃ g, x.outcome m = (.error (.failed (.fault g)), m') ∧ f = g.atLine line := by
  rw [atLine, outcome_tryCatch] at h
  revert h
  obtain ⟨r, m₁⟩ := x.outcome m
  intro h
  cases r with
  | ok a => cases h
  | error i =>
    simp only at h
    split at h
    · next g =>
      cases h
      exact ⟨g, rfl, rfl⟩
    · next hother =>
      cases h
      exact absurd rfl (hother f)

/-- An interrupt of a file as its import passes it on: an error is reported anew, unless it is a
runaway. -/
def Interrupt.blamed (path : Path) : Interrupt → Interrupt
  | .failed (.fault f) =>
    if f.cause.family = .recursion then .failed (.fault f)
    else .failed (.fault ⟨.inFile f.cause path.text f.line, 0⟩)
  | i => i

theorem outcome_blameFile_error {x : Eval α} (path : Path) (h : x.outcome m = (.error i, m')) :
    (blameFile path x).outcome m = (.error (i.blamed path), m') := by
  rw [blameFile, outcome_tryCatch, h]
  cases i with
  | failed failure =>
    cases failure with
    | fault f =>
      simp only [Interrupt.blamed]
      split <;> rfl
    | crash c => rfl
  | _ => rfl

section

variable [Host.Limits]

/-- An import of a file fails where there is no room for a frame, and else it ends as the statements
of the file do. -/
theorem NamesFile.loadFile_result {target text : String} {path : Path}
    (hnames : NamesFile config m.world target path text) (ev : Evaluator) :
    ((loadFile ev config target).outcome m).1 =
      if config.maxCallDepth ≤ m.frames.length then .error (tooDeep 0)
      else match (runStatements ev (config.withScript path) (Source.parse text).failure
          (Source.parse text).statements).outcome (moduleStart m path) with
        | (.error i, _) => .error (i.blamed path)
        | (.ok _, final) => .ok final.env.boundSinceCreation := by
  let inner : Machine := { m with env := (m.env.clone m.heap).1, heap := (m.env.clone m.heap).2 }
  let statements := runStatements ev (config.withScript path) (Source.parse text).failure
    (Source.parse text).statements
  rw [hnames.outcome_loadFile, outcome_inside]
  change ((blameFile path (inFrame (config.withScript path) path.name false statements) >>= fun _ =>
    Eval.env >>= fun e => pure e.boundSinceCreation).outcome inner).1 = _
  -- The frame of the file is the only one that its import adds, and it is refused or popped.
  by_cases hfull : config.maxCallDepth ≤ m.frames.length
  · have hframe : (inFrame (config.withScript path) path.name false statements).outcome inner =
        (.error (tooDeep 0), inner) := outcome_inFrame_of_full hfull
    rw [if_pos hfull, outcome_bind_error (outcome_blameFile_tooDeep path hframe)]
  · have hframe : (inFrame (config.withScript path) path.name false statements).outcome inner =
        ((statements.outcome (moduleStart m path)).1,
          { (statements.outcome (moduleStart m path)).2 with
            frames := (statements.outcome (moduleStart m path)).2.frames.tail }) :=
      outcome_inFrame_of_room hfull
    rw [if_neg hfull]
    change _ = match statements.outcome (moduleStart m path) with
      | (.error i, _) => Except.error (i.blamed path)
      | (.ok _, final) => Except.ok final.env.boundSinceCreation
    rcases hrun : statements.outcome (moduleStart m path) with ⟨i | u, final⟩
    · rw [hrun] at hframe
      rw [outcome_bind_error (outcome_blameFile_error path hframe)]
    · rw [hrun] at hframe
      rw [outcome_bind, blameFile, outcome_tryCatch, hframe]
      rfl

/-- An import whose file cannot be read to the end fails behind the statements of the file. -/
theorem outcome_loadFile_failure {target text : String} {path : Path} {f : Failure}
    (hf : (Interrupt.failed f).Uncaught) (hnames : NamesFile config m.world target path text)
    (hroom : ¬config.maxCallDepth ≤ m.frames.length)
    (hrun : (runStatements ev (config.withScript path) none (Source.parse text).statements).outcome
      (moduleStart m path) = (.ok (), m'))
    (hfailure : (Source.parse text).failure = some f) :
    ∃ m'', (loadFile ev config target).outcome m = (.error (.failed f), m'') := by
  have hresult := hnames.loadFile_result ev
  rw [if_neg hroom, hfailure, outcome_runStatements_failure hrun] at hresult
  have hblamed : (Interrupt.failed f).blamed path = .failed f := by
    cases f with
    | fault fault => exact hf.elim
    | crash c => rfl
  exact exists_outcome (hresult.trans (congrArg Except.error hblamed))

/-- What a node raises itself ends it. -/
theorem RaisesItself.outcome_evaluateNode {node : Node} (hi : i.Uncaught)
    (h : RaisesItself ev config m node i) :
    ∃ m', (evaluateNode ev config node).outcome m = (.error i, m') := by
  cases h with
  | @operator op left right line l r m₁ m₂ failure hleft hright happly =>
    refine ⟨m₂, ?_⟩
    change ((ev config left) >>= fun l => (ev config right) >>= fun r =>
      heap >>= fun h => ofExcept (op.apply h l r)).outcome m = _
    rw [outcome_bind, hleft]
    simp only
    rw [outcome_bind, hright]
    change (ofExcept (op.apply m₂.heap l r)).outcome m₂ = _
    rw [happly]
    rfl
  | @native _ f vs m₁ m₂ _ happlies happly =>
    exact ⟨m₂, happlies.outcome_evaluateNode.trans happly⟩
  | @receiver node object v m₁ m₂ c hobject hv hcrash =>
    have hresolved : (resolveObject ev config object).outcome m =
        (.error (.failed (.crash c)), m₂) := by
      rw [resolveObject_eq, outcome_bind, hv]
      exact hcrash
    -- The object comes first in a property and in a call of one.
    cases node with
    | property | methodCall =>
      cases hobject
      exact ⟨m₂, outcome_bind_error (outcome_bind_error hresolved)⟩
    | _ => cases hobject
  | target hextension hrefused =>
    exact ⟨m, (outcome_importing_file ev config _ _ _ hextension).trans
      (outcome_bind_error (hrefused.outcome_loadFile ev))⟩
  | text hextension hnames hroom hrun hfailure =>
    obtain ⟨m'', hload⟩ := outcome_loadFile_failure hi hnames hroom hrun hfailure
    exact ⟨m'', (outcome_importing_file ev config _ _ _ hextension).trans (outcome_bind_error hload)⟩
  | returning => exact hi.elim

theorem RaisesItself.answer (hi : i.Uncaught)
    (h : RaisesItself (evaluate levels) p.config p.machine p.node i) :
    ∃ m', (evaluate (levels + 1)).answer p = (.error i, m') := by
  obtain ⟨m', hout⟩ := h.outcome_evaluateNode hi
  exact ⟨m', outcome_atLine_uncaught _ hi hout⟩

/-- An uncaught interrupt that ends a node of a run ends the run. -/
theorem Evaluates.passesOn (hi : i.Uncaught) (hp : Evaluates config source m levels p)
    (h : (evaluate levels).answer p = (.error i, m')) :
    ∃ m'', (runProgram config source).outcome m = (.error i, m'') := by
  induction hp generalizing m' with
  | statement hasks =>
    exact hasks.passesOn (sequential_runTopLevel config _ 0 _) hi h
  | @inner levels p q _ hasks ih =>
    obtain ⟨m₁, hnode⟩ := hasks.passesOn (sequential_evaluateNode p.config p.node) hi h
    exact ih (outcome_atLine_uncaught p.node.line hi hnode)

/-- A run never ends with a `return`. -/
theorem runProgram_ne_returned (config : Config) (source : String) (m : Machine) (v : Value) :
    ((runProgram config source).outcome m).1 ≠ .error (.returned v) := by
  intro h
  have hraises : Raises (fun i => ∀ v, i ≠ .returned v) m (runProgram config source) :=
    raises_runTopLevel (by simp)
      (fun s hs => (Source.parse_statements source s hs).never_returns stackLimit config) (by simp)
  exact hraises _ _ (Prod.ext h rfl) v rfl

end

/-- A stack overflow is reported as an error at the statement where it happens. -/
theorem raises_overflowAt (x : Eval α) (line : Int) :
    Raises (· ≠ .failed (.crash .stackOverflow)) m (overflowAt line x) := by
  refine Raises.tryCatch (J := fun _ => True) (fun _ _ _ => trivial) fun i m' _ => ?_
  split
  · exact raises_throw (by simp)
  · next hother => exact raises_throw fun heq => hother heq

/-- A run never ends with a stack overflow. -/
theorem runProgram_ne_stackOverflow [Host.Limits] (config : Config) (source : String)
    (m : Machine) :
    ((runProgram config source).outcome m).1 ≠ .error (.failed (.crash .stackOverflow)) := by
  have hraises : ∀ (nodes : List Node) (failure : Option Failure) (line : Int) (m : Machine),
      Raises (· ≠ .failed (.crash .stackOverflow)) m
        (runTopLevel (evaluate stackLimit) config failure line nodes) := by
    intro nodes
    induction nodes with
    | nil =>
      intro failure line m
      cases failure with
      | none => exact raises_of_ok rfl
      | some f => exact raises_overflowAt _ _
    | cons statement rest ih =>
      exact fun failure line m => (raises_overflowAt _ _).bind fun _ m₁ _ => ih failure _ m₁
  intro h
  exact hraises _ _ _ m _ _ (Prod.ext h rfl) rfl

end ModuLang
