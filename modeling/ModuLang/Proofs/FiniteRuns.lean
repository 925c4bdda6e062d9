import ModuLang.Proofs.Acyclicity
import ModuLang.Proofs.EnoughLevels
import ModuLang.Proofs.RunEndings
import ModuLang.Proofs.SequentialComposition

/-!
# Runs are finite

Evaluation is given a number of levels, and none left is a stack overflow. But a run never needs the
overflow to end: the limit on the number of frames does that. A point leads to nodes inside its own
node, or to any nodes in one frame more, so the room for further frames and the nesting of the node
go down lexicographically, and no chain of points goes on forever.

That each point leads only to points that end does not yet say how many levels it needs, since a node
asks for its second part on the machine that the first one leaves. The questions come one after the
other, as a dialogue; so there are finitely many of them, and the levels that one needs are the most
that an answer needs, and one more. The same induction is made on one host, and on all hosts that can
follow more and more, where the texts and documents that a run reads and makes come to an end as well.

On these hosts nothing overflows: where there is an overflow, some node raises it itself, and a host
that can follow farther has none there. Only a document without an end would overflow everywhere, and
there is none on a machine whose references come to an end.
-/

namespace ModuLang

open Eval

variable {α : Type} {ev : Evaluator} {config : Config} {m : Machine} {p : Point}

/-! ### The nesting of nodes -/

theorem Node.sizeOf_lt_of_mem_children {node child : Node} (h : child ∈ node.children) :
    sizeOf child < sizeOf node := by
  have hlist : ∀ {nodes : List Node}, child ∈ nodes → sizeOf child < sizeOf nodes :=
    fun hmem => List.sizeOf_lt_of_mem hmem
  -- A node is larger than its parts together, and a list is larger than its elements.
  cases node with
  | record properties line =>
    obtain ⟨property, hmem, rfl⟩ := List.mem_map.mp h
    have hproperty : sizeOf property < sizeOf properties := List.sizeOf_lt_of_mem hmem
    obtain ⟨key, value⟩ := property
    simp only [Prod.mk.sizeOf_spec] at hproperty
    simp only [Node.record.sizeOf_spec]
    omega
  | binary op left right line =>
    simp only [Node.binary.sizeOf_spec]
    rcases List.mem_cons.mp h with rfl | h
    · omega
    · rw [List.mem_singleton.mp h]
      omega
  | call name args line =>
    have hargs : sizeOf child < sizeOf args := hlist h
    simp only [Node.call.sizeOf_spec]
    omega
  | methodCall object name args line =>
    simp only [Node.methodCall.sizeOf_spec]
    rcases List.mem_cons.mp h with rfl | h
    · omega
    · have hargs := hlist h
      omega
  | definition name params body line =>
    have hbody : sizeOf child < sizeOf body := hlist h
    simp only [Node.definition.sizeOf_spec]
    omega
  | conditional condition body line =>
    simp only [Node.conditional.sizeOf_spec]
    rcases List.mem_cons.mp h with rfl | h
    · omega
    · have hbody := hlist h
      omega
  | isPresent value line | property value name line | binding name value line =>
    rw [List.mem_singleton.mp h]
    simp +arith
  | returning value line =>
    cases value with
    | none => exact absurd h List.not_mem_nil
    | some value =>
      rw [List.mem_singleton.mp h]
      simp +arith
  | literal | text | identifier | importing | unknown => exact absurd h List.not_mem_nil

theorem Node.isWithin_succ_iff {node : Node} {k : Nat} :
    node.isWithin (k + 1) = true ↔ ∀ child ∈ node.children, child.isWithin k = true := by
  rw [Node.isWithin, List.all_eq_true]

theorem Node.isWithin_mono {node : Node} {k k' : Nat} (hle : k ≤ k')
    (h : node.isWithin k = true) : node.isWithin k' = true := by
  induction k generalizing node k' with
  | zero => cases h
  | succ k ih =>
    obtain ⟨k', rfl⟩ : ∃ j, k' = j + 1 := ⟨k' - 1, by omega⟩
    rw [isWithin_succ_iff] at h ⊢
    exact fun child hchild => ih (by omega) (h child hchild)

theorem Node.exists_isWithin_all {nodes : List Node}
    (h : ∀ node ∈ nodes, ∃ k, node.isWithin k = true) :
    ∃ k, ∀ node ∈ nodes, node.isWithin k = true := by
  induction nodes with
  | nil => exact ⟨0, fun node hnode => absurd hnode List.not_mem_nil⟩
  | cons node rest ih =>
    obtain ⟨k₁, h₁⟩ := h node List.mem_cons_self
    obtain ⟨k₂, h₂⟩ := ih fun node hnode => h node (List.mem_cons_of_mem _ hnode)
    refine ⟨max k₁ k₂, fun node hnode => ?_⟩
    rcases List.mem_cons.mp hnode with rfl | hnode
    · exact isWithin_mono (Nat.le_max_left _ _) h₁
    · exact isWithin_mono (Nat.le_max_right _ _) (h₂ node hnode)

/-- Every node is nested only so deep. -/
theorem Node.exists_isWithin (node : Node) : ∃ k, node.isWithin k = true := by
  have hchildren : ∀ child ∈ node.children, ∃ k, child.isWithin k = true :=
    fun child hchild => child.exists_isWithin
  obtain ⟨k, hk⟩ := exists_isWithin_all hchildren
  exact ⟨k + 1, isWithin_succ_iff.mpr hk⟩
termination_by sizeOf node
decreasing_by exact sizeOf_lt_of_mem_children hchild

/-- The parts of a node are nested less deep. -/
theorem Node.HasPart.isWithin {node part : Node} {k : Nat} (h : node.HasPart part)
    (hk : node.isWithin (k + 1) = true) : part.isWithin k = true := by
  rw [isWithin_succ_iff] at hk
  rcases h with hchild | ⟨hne, v, line, rfl⟩
  · exact hk part hchild
  · -- A receiver has no parts, and there is room for it, as the node has a part.
    obtain ⟨child, hchild⟩ := List.exists_mem_of_ne_nil _ hne
    cases k with
    | zero => cases hk child hchild
    | succ k => exact isWithin_succ_iff.mpr fun child hchild => absurd hchild List.not_mem_nil

/-! ### The descent -/

/-- The number of frames that may still be pushed at a point. -/
def Point.room (p : Point) : Nat :=
  (p.config.maxCallDepth - p.machine.frames.length).toNat

theorem Leads.room_cases [Host.Limits] {q : Point} (h : Leads p q) :
    (p.node.HasPart q.node ∧ q.room = p.room) ∨ q.room < p.room := by
  unfold Point.room
  rw [h.maxCallDepth_eq]
  rcases h.frames_cases with ⟨hpart, hframes⟩ | hentered
  · refine .inl ⟨hpart, ?_⟩
    rw [hframes.length_eq]
  · refine .inr ?_
    have hlength : q.machine.frames.length = p.machine.frames.length + 1 := hentered.length_eq
    have hroom := hentered.room
    omega

/-- No chain of points goes on forever, even if the host changes on the way: the room for frames goes
down, or it stays and the node gets smaller. -/
theorem wellFounded_leads : WellFounded fun q p : Point => ∃ _ : Host.Limits, Leads p q := by
  -- The outer induction is on the room, and the inner one on the nesting of the node.
  have hacc : ∀ room k (p : Point), p.room = room → p.node.isWithin k = true →
      Acc (fun q p : Point => ∃ _ : Host.Limits, Leads p q) p := by
    intro room
    induction room using Nat.strongRecOn with
    | ind room ihroom =>
      intro k
      induction k with
      | zero =>
        intro p _ hwithin
        cases hwithin
      | succ k ihk =>
        intro p hroom hwithin
        refine ⟨p, fun q ⟨_, hq⟩ => ?_⟩
        rcases hq.room_cases with ⟨hpart, hsame⟩ | hless
        · exact ihk q (hsame.trans hroom) (hpart.isWithin hwithin)
        · obtain ⟨j, hj⟩ := q.node.exists_isWithin
          exact ihroom q.room (hroom ▸ hless) j q rfl hj
  refine ⟨fun p => ?_⟩
  obtain ⟨k, hk⟩ := p.node.exists_isWithin
  exact hacc p.room k p rfl hk

/-! ### Enough levels -/

section Enough

variable {hosts : Nat → Host.Limits → Prop} (hhosts : HostsSettle hosts)

include hhosts

/-- Some levels are enough for a point if they are for all points that it leads to. With all levels
that are needed its answer is then that of its node. -/
theorem Point.endsWith_of_leads (h : ∀ (_ : Host.Limits) (q : Point), Leads p q → q.Ends hosts) :
    ∃ levels out, p.EndsWith hosts levels out ∧ ∀ limits : Host.Limits, hosts levels limits →
      (atLine p.node.line (evaluateNode (evaluateFully hosts) p.config p.node)).outcome p.machine =
        out := by
  obtain ⟨out, levels, hsettles⟩ := settles_evaluateNode hhosts h
  obtain ⟨host, hhost⟩ := hhosts.inhabited levels
  obtain ⟨answer, hatLine⟩ : ∃ answer, ∀ x : Eval Value, x.outcome p.machine = out →
      (atLine p.node.line x).outcome p.machine = answer := by
    refine ⟨(atLine p.node.line (@evaluateNode host (evaluateFully hosts) p.config p.node)).outcome
      p.machine, fun x hx => ?_⟩
    rw [atLine, atLine, outcome_tryCatch, outcome_tryCatch, hx, (hsettles host hhost).1]
  refine ⟨levels + 1, answer, fun limits hlimits more hmore bottom => ?_, fun limits hlimits => ?_⟩
  · obtain ⟨more, rfl⟩ : ∃ j, more = j + 1 := ⟨more - 1, by omega⟩
    have hbefore := hhosts.antitone (Nat.le_succ levels) hlimits
    exact hatLine _ ((hsettles limits hbefore).2 more (by omega) bottom)
  · exact hatLine _ (hsettles limits (hhosts.antitone (Nat.le_succ levels) hlimits)).1

/-- Some levels are enough for every point. -/
theorem Point.ends (p : Point) : p.Ends hosts := by
  induction p using wellFounded_leads.induction with
  | _ p ih =>
    obtain ⟨levels, out, hout, -⟩ := Point.endsWith_of_leads hhosts fun host q hq => ih q ⟨host, hq⟩
    exact ⟨levels, out, hout⟩

/-- With all levels that are needed every point has the answer of its node, on some hosts. -/
theorem Point.answer_evaluateFully (p : Point) :
    ∃ levels, ∀ limits : Host.Limits, hosts levels limits →
      (atLine p.node.line (evaluateNode (evaluateFully hosts) p.config p.node)).outcome p.machine =
        (evaluateFully hosts).answer p := by
  obtain ⟨levels, out, hends, hout⟩ :=
    Point.endsWith_of_leads hhosts fun _ (q : Point) _ => q.ends hhosts
  rw [hends.answer_evaluateFully hhosts]
  exact ⟨levels, hout⟩

/-- What is asked of an evaluator alone has one outcome on all hosts with enough levels. -/
theorem Sequential.exists_enough {F : Evaluator → Eval α} (hF : Sequential F) (m : Machine) :
    ∃ levels, ∀ limits : Host.Limits, hosts levels limits → ∀ more, levels ≤ more → ∀ bottom,
      (F (evaluateOver bottom more)).outcome m = (F (evaluateFully hosts)).outcome m := by
  obtain ⟨levels, hlevels⟩ := settlesTo_of_asks (m := m) hhosts hF fun q _ => q.ends hhosts
  exact ⟨levels, fun limits hlimits => (hlevels limits hlimits).2⟩

theorem advances_evaluateFully : Advances .any (evaluateFully hosts) := by
  refine ⟨fun R config node m hfit hheap henv => ⟨rfl, ?_⟩, fun p hp => ?_⟩
  · change Kept R _ m _ ((evaluateFully hosts).answer ⟨config, node, m⟩)
    rcases answer_evaluateFully_cases hhosts ⟨config, node, m⟩ with ⟨_, levels, hanswer⟩ | hanswer
    · rw [hanswer]
      exact (complies_evaluate R levels config node m hfit hheap henv).2
    · rw [hanswer]
      exact ⟨.refl R m, hheap, henv, trivial⟩
  · rcases answer_evaluateFully_cases hhosts p with ⟨_, levels, hanswer⟩ | hanswer
    · rw [hanswer]
      exact (advances_evaluate levels).moved p hp
    · rw [hanswer]
      exact .refl _ _

end Enough

/-! ### Founded machines -/

/-- Whether all that can be met on a machine is there, and every way through its references comes to
an end. -/
structure Machine.Founded (m : Machine) : Prop where
  bound : (knownEnv .clear).holds m.heap.size m.env
  held : HeapKnown .clear m.heap
  grounded : m.heap.Grounded

theorem Machine.Founded.kept {m' : Machine} {r : Except Interrupt α} {P : Nat → α → Prop}
    (hm : m.Founded) (hkept : Kept .clear (knownEnv .clear) m P (r, m'))
    (hmoved : Moved .any m m') : m'.Founded :=
  ⟨hkept.env, hkept.heap, hm.grounded.effects hm.held hmoved.effects⟩

/-- A session starts on a founded machine. -/
theorem founded_newSession (config : Config) (world : Host.World) :
    (Session.new config world).machine.Founded :=
  ⟨knownEnv_initialEnvironment _ config _, heapKnown_empty _ fun _ => not_false,
    Heap.grounded_empty⟩

/-- A run keeps its machine founded. -/
theorem Machine.Founded.runProgram [Host.Limits] (hm : m.Founded) (config : Config)
    (source : String) : ((runProgram config source).outcome m).2.Founded := by
  have hadvances := advances_evaluate stackLimit
  have hmoves : Moves .any m (ModuLang.runProgram config source) :=
    moves_runTopLevel hadvances _ (Source.parse_plain source)
  have hkeeps : KeepsClear m (ModuLang.runProgram config source) fun _ _ => True :=
    keeps_runTopLevel (hadvances.complies _) _ fun _ => Source.parse_plain source
  exact hm.kept (hkeeps hm.held hm.bound).2 (hmoves hm.held hm.bound)

section Founded

variable (hev : Advances .any ev)

include hev

theorem Machine.Founded.answer (hm : p.machine.Founded)
    (hfit : Fit .clear p.machine.heap.size p.node) : (ev.answer p).2.Founded :=
  hm.kept (hev.complies .clear p.config p.node p.machine hfit hm.held hm.bound).2
    (hev.moved p ⟨hfit, hm.held, hm.bound⟩)

/-- On a founded machine a node asks only at points with founded machines. -/
theorem Asks.founded [Host.Limits] {q : Point} (hm : p.machine.Founded)
    (hfit : Fit .clear p.machine.heap.size p.node)
    (h : Asks (fun ev => evaluateNode ev p.config p.node) ev p.machine q) :
    Fit .clear q.machine.heap.size q.node ∧ q.machine.Founded := by
  have hknown : ∀ q, Asks (fun ev => evaluateNode ev p.config p.node) ev p.machine q → q.Known :=
    fun q hq => hq.known (P := Known .clear) (fun _ hev' => keeps_evaluateNode hev' hfit)
      (hev.complies _) hm.held hm.bound
  have hmoved := (sequential_evaluateNode p.config p.node).moved hev.complies
    (fun q hq => hev.moved q (hknown q hq)) fun B hB =>
      moves_evaluateNode hB hfit (fun f vs m' _ => Permission.any_allows m'.heap f vs) hm.held hm.bound
  have hq := hknown q h
  exact ⟨hq.fit, hq.env, hq.heap, hm.grounded.effects hm.held (hmoved.2 q h)⟩

/-- On a founded machine a native function is applied to what is on a founded machine. -/
theorem Applies.founded {f : Native} {vs : List Value} {m' : Machine} (hm : p.machine.Founded)
    (hfit : Fit .clear p.machine.heap.size p.node)
    (h : Applies ev p.config p.machine p.node f vs m') :
    m'.Founded ∧ ∀ v ∈ vs, Known .clear m'.heap.size v := by
  obtain ⟨hmoved, henv, hheap, hvs⟩ := h.moved hev hfit hm.held hm.bound
  exact ⟨⟨henv, hheap, hm.grounded.effects hm.held hmoved.effects⟩, hvs⟩

end Founded

/-! ### No overflow -/

/-- On hosts that can follow far enough no application of a native function to what is on a founded
machine overflows. -/
theorem Native.exists_not_exceeds (f : Native) {vs : List Value} (hm : m.Founded)
    (hvs : ∀ v ∈ vs, Known .clear m.heap.size v) :
    ∃ levels, ∀ limits : Host.Limits, levels ≤ limits.levels → ¬f.Exceeds m vs .stackOverflow := by
  obtain ⟨levels, hparse⟩ : ∃ levels, ∀ s, vs = [.str s] → ∀ limits : Host.Limits,
      levels ≤ limits.levels → Json.parse s ≠ .error (.crash .stackOverflow) := by
    by_cases htext : ∃ s, vs = [.str s]
    · obtain ⟨s, rfl⟩ := htext
      obtain ⟨levels, result, hne, hresult⟩ := Json.parse_settled s
      refine ⟨levels, ?_⟩
      rintro _ ⟨⟩ limits hlimits
      rw [@hresult limits hlimits]
      exact hne
    · exact ⟨0, fun s hs => absurd ⟨s, hs⟩ htext⟩
  have hfinite := finiteValues_of_grounded hm.grounded hm.held hm.bound
  refine ⟨max levels (m.heap.size + 1), fun limits hlimits hexceeds => ?_⟩
  cases hexceeds with
  | document hs =>
    exact hparse _ rfl limits (Nat.le_trans (Nat.le_max_left _ _) hlimits) hs
  | deep hdeep =>
    have hlevels : m.heap.size < stackLimit := Nat.le_trans (Nat.le_max_right _ _) hlimits
    exact hfinite.encoded _ _ (hvs _ List.mem_cons_self) hlevels hdeep

/-- A node raises an overflow itself only in a native function, or where it imports a file that the
host cannot follow. -/
theorem RaisesItself.stackOverflow_cases [Host.Limits] {node : Node}
    (h : RaisesItself ev config m node (.failed (.crash .stackOverflow))) :
    (∃ f vs m', Applies ev config m node f vs m') ∨
      ∃ path text, ReadsFile config m node path text ∧
        (Source.parse text).failure = some (.crash .stackOverflow) := by
  cases h with
  | operator _ _ happly => cases (BinaryOperator.crashes_iff _ _ _ _ _).mp happly
  | native happlies _ => exact .inl ⟨_, _, _, happlies⟩
  | receiver _ _ hcrash =>
    obtain ⟨_, _, _, heq⟩ := addressOf_crashes_iff.mp ⟨_, hcrash⟩
    cases heq
  | target _ hrefused => cases hrefused
  | text hextension hnames _ _ hfailure =>
    exact .inr ⟨_, _, .importing hextension hnames, hfailure⟩

/-- The evaluator that has all the levels that a point needs, on a host that can follow all of it. -/
noncomputable abbrev evaluateFreely : Evaluator :=
  evaluateFully fun levels limits => levels ≤ limits.levels

/-- On a founded machine nothing overflows where there are all levels that are needed. -/
theorem Point.answer_ne_stackOverflow (hm : p.machine.Founded)
    (hfit : Fit .clear p.machine.heap.size p.node) :
    (evaluateFreely.answer p).1 ≠ .error (.failed (.crash .stackOverflow)) := by
  have hadvances : Advances .any evaluateFreely := advances_evaluateFully hostsSettle_growing
  induction p using wellFounded_leads.induction with
  | _ p ih =>
    intro hover
    obtain ⟨levels, hanswer⟩ := p.answer_evaluateFully hostsSettle_growing
    have hends : ∀ limits : Host.Limits, levels ≤ limits.levels → ∃ m',
        (evaluateNode evaluateFreely p.config p.node).outcome p.machine =
          (.error (.failed (.crash .stackOverflow)), m') := fun limits hlimits =>
      ⟨_, outcome_of_atLine_error (fun _ => by simp) ((hanswer limits hlimits).trans
        (Prod.ext hover rfl))⟩
    obtain ⟨enough, htext⟩ := exists_levels_of_readsFile p.config p.machine p.node fun text =>
      Source.parse_settled text
    -- On a host that can follow the file the overflow is raised further inside, or by a function.
    let large : Host.Limits := ⟨max levels enough + 32, Nat.le_add_left _ _⟩
    have hlarge : max levels enough ≤ large.levels := Nat.le_add_right _ _
    obtain ⟨m', hnode⟩ := hends large (by omega)
    rcases @evaluateNode_error_cases _ _ _ _ _ large _ (by simp) hnode with ⟨q, hasks, hq⟩ | hitself
    · obtain ⟨hqfit, hqfounded⟩ := hasks.founded hadvances hm hfit
      have hleads := hasks.leads (keepsFrames_evaluateFully hostsSettle_growing)
      exact ih q ⟨large, hleads⟩ hqfounded hqfit hq
    · rcases hitself.stackOverflow_cases with ⟨f, vs, m₁, happlies⟩ | ⟨path, text, hreads, hfailure⟩
      · -- A host that can follow even farther has no overflow in the function.
        obtain ⟨hfounded, hvs⟩ := happlies.founded hadvances hm hfit
        obtain ⟨more, hmore⟩ := f.exists_not_exceeds hfounded hvs
        let larger : Host.Limits := ⟨max levels more + 32, Nat.le_add_left _ _⟩
        have hlarger : max levels more ≤ larger.levels := Nat.le_add_right _ _
        obtain ⟨m₂, hcrash⟩ := hends larger (by omega)
        rw [happlies.outcome_evaluateNode] at hcrash
        exact hmore larger (by omega) ((f.crashes_iff vs).mp ⟨m₂, hcrash⟩)
      · obtain ⟨program, hne, hprogram⟩ := htext path text hreads
        have hread : Source.parse text = program := hprogram (Nat.le_trans (Nat.le_max_right _ _) hlarge)
        exact hne (hread ▸ hfailure)

/-- On a founded machine no statements overflow where there are all levels that are needed. -/
theorem runStatements_ne_stackOverflow (config : Config) {failure : Option Failure}
    {nodes : List Node} (hfailure : failure ≠ some (.crash .stackOverflow)) (hnodes : ∀ node ∈ nodes, node.Plain)
    (hm : m.Founded) :
    ((runStatements evaluateFreely config failure nodes).outcome m).1 ≠
      .error (.failed (.crash .stackOverflow)) := by
  induction nodes generalizing m with
  | nil =>
    cases failure with
    | none => exact fun h => by cases h
    | some f =>
      intro h
      cases h
      exact hfailure rfl
  | cons statement rest ih =>
    have hfit : Fit .clear m.heap.size statement :=
      fit_of_plain fun _ => hnodes statement List.mem_cons_self
    have hfirst := Point.answer_ne_stackOverflow (p := ⟨config, statement, m⟩) hm hfit
    have hfounded := Machine.Founded.answer (p := ⟨config, statement, m⟩)
      (advances_evaluateFully hostsSettle_growing) hm hfit
    change (((evaluateFreely config statement).outcome m)).1 ≠ _ at hfirst
    change (((evaluateFreely config statement).outcome m)).2.Founded at hfounded
    rw [runStatements, outcome_bind]
    rcases hout : (evaluateFreely config statement).outcome m with ⟨i | v, m'⟩
    · rw [hout] at hfirst
      exact fun h => hfirst (congrArg Except.error (Except.error.inj h))
    · rw [hout] at hfounded
      exact ih (fun node hnode => hnodes node (List.mem_cons_of_mem _ hnode)) hfounded

/-- Statements that do not overflow are run as they are: nothing is reported. -/
theorem outcome_runTopLevel_eq {failure : Option Failure} {nodes : List Node} (line : Int)
    (h : ((runStatements ev config failure nodes).outcome m).1 ≠
      .error (.failed (.crash .stackOverflow))) :
    (runTopLevel ev config failure line nodes).outcome m =
      (runStatements ev config failure nodes).outcome m := by
  induction nodes generalizing m line with
  | nil =>
    cases failure with
    | none => rfl
    | some f =>
      have hf : f ≠ .crash .stackOverflow := by
        rintro rfl
        exact h rfl
      rw [runTopLevel, overflowAt_throw hf, runStatements]
  | cons statement rest ih =>
    rcases hfirst : (ev config statement).outcome m with ⟨i | v, m'⟩
    · have hstatements : (runStatements ev config failure (statement :: rest)).outcome m =
          (.error i, m') := outcome_bind_error hfirst
      rw [hstatements] at h ⊢
      exact outcome_runTopLevel_error hfirst fun hi => h (congrArg Except.error hi)
    · have hstatements : (runStatements ev config failure (statement :: rest)).outcome m =
          (runStatements ev config failure rest).outcome m' := by
        rw [runStatements, outcome_bind, hfirst]
      rw [hstatements] at h ⊢
      exact (outcome_runTopLevel_ok hfirst).trans (ih statement.line h)

/-! ### Runs -/

/-- With some number of levels or more a run on a host has one outcome, which does not depend on what
happens beyond them. -/
theorem exists_enough_levels [host : Host.Limits] (config : Config) (source : String) (m : Machine) :
    ∃ levels out,
      (∀ more, levels ≤ more → (runWithin more config source).outcome m = out) ∧
      ∀ more, levels ≤ more → ∀ bottom,
        (runBy config source (evaluateOver bottom more)).outcome m = out := by
  have hrun : Sequential (runBy config source) := sequential_runTopLevel config _ _ _
  obtain ⟨levels, hlevels⟩ := hrun.exists_enough (hostsSettle_single host) m
  refine ⟨levels, _, fun more hmore => ?_, hlevels host rfl⟩
  have hover := hlevels host rfl more hmore (evaluate 0)
  rw [evaluateOver_evaluate_zero] at hover
  exact hover

/-- On all hosts that can follow far enough a run has one outcome, which does not depend on what
happens beyond the levels that it needs. On a founded machine it is the outcome of its statements
alone, and no overflow. -/
theorem exists_enough_hosts (config : Config) (source : String) (m : Machine) :
    ∃ levels out, ∀ limits : Host.Limits, levels ≤ limits.levels →
      (runProgram config source).outcome m = out ∧
      (∀ more, levels ≤ more → ∀ bottom,
        (runBy config source (evaluateOver bottom more)).outcome m = out) ∧
      (m.Founded →
        out.1 ≠ .error (.failed (.crash .stackOverflow)) ∧
        (runStatements (evaluate stackLimit) config (Source.parse source).failure
          (Source.parse source).statements).outcome m = out) := by
  obtain ⟨reading, program, hne, hprogram⟩ := Source.parse_settled source
  have hstatements : ∀ failure nodes, Sequential fun ev => runStatements ev config failure nodes :=
    sequential_runStatements config
  have hrun := sequential_runTopLevel config program.failure 0 program.statements
  obtain ⟨plain, hplain⟩ :=
    (hstatements program.failure program.statements).exists_enough hostsSettle_growing m
  obtain ⟨reported, hreported⟩ := hrun.exists_enough hostsSettle_growing m
  refine ⟨max reading (max plain reported),
    (runTopLevel evaluateFreely config program.failure 0 program.statements).outcome m,
    fun limits hlimits => ?_⟩
  have hread : Source.parse source = program := hprogram (by unfold stackLimit; omega)
  have hover : ∀ more, max reading (max plain reported) ≤ more → ∀ bottom,
      (runBy config source (evaluateOver bottom more)).outcome m =
        (runTopLevel evaluateFreely config program.failure 0 program.statements).outcome m := by
    intro more hmore bottom
    rw [runBy, hread]
    exact hreported limits (by omega) more (by omega) bottom
  refine ⟨?_, hover, fun hm => ?_⟩
  · rw [runProgram_eq_runBy, ← evaluateOver_evaluate_zero]
    exact hover stackLimit hlimits _
  · have hplainly := runStatements_ne_stackOverflow config hne
      (hread ▸ Source.parse_plain source) hm
    rw [outcome_runTopLevel_eq 0 hplainly]
    refine ⟨hplainly, ?_⟩
    rw [hread, ← evaluateOver_evaluate_zero]
    exact hplain limits (by omega) stackLimit (by unfold stackLimit; omega) _

/-- Every run is finite, whatever its program, its environment, its files and its limit on frames
are. The points that are evaluated in the course of evaluating a point descend, on whatever hosts and
however many levels there are. So on a host, with some number of levels or more, a run has one outcome,
and that outcome does not depend on what happens beyond the levels: no stack overflow is needed to end
it. It has one outcome on all hosts that can follow far enough, where the levels for reading texts and
documents change with the host as well; and if its machine is founded, as that of every session is,
then this is what its statements come to by themselves, without any stack overflow. -/
theorem runs_are_finite :
    (WellFounded fun q p : Point => ∃ (_ : Host.Limits) (levels : Nat),
      Asks (fun ev => evaluateNode ev p.config p.node) (evaluate levels) p.machine q) ∧
    (∀ [Host.Limits] config source m, ∃ levels out,
      (∀ more, levels ≤ more → (runWithin more config source).outcome m = out) ∧
      ∀ more, levels ≤ more → ∀ bottom,
        (runBy config source (evaluateOver bottom more)).outcome m = out) ∧
    ∀ config source m, ∃ levels out, ∀ limits : Host.Limits, levels ≤ limits.levels →
      (runProgram config source).outcome m = out ∧
      (∀ more, levels ≤ more → ∀ bottom,
        (runBy config source (evaluateOver bottom more)).outcome m = out) ∧
      (m.Founded →
        out.1 ≠ .error (.failed (.crash .stackOverflow)) ∧
        (runStatements (evaluate stackLimit) config (Source.parse source).failure
          (Source.parse source).statements).outcome m = out) := by
  refine ⟨Subrelation.wf ?_ wellFounded_leads, exists_enough_levels, exists_enough_hosts⟩
  rintro q p ⟨limits, levels, hasks⟩
  exact ⟨limits, hasks.leads (keepsFrames_evaluate levels)⟩

end ModuLang
