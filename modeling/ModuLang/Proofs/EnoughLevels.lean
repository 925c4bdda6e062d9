import ModuLang.Proofs.FrameDiscipline
import ModuLang.Proofs.FrameSteps
import ModuLang.Proofs.ReadingLevels
import ModuLang.Proofs.VisitedMachines

/-!
# Enough levels

The outcome of a step may depend on how far the host can follow, in four places: in the levels of
evaluation, in the text of a file that is imported, in a text that is read as a document, and in the
document of an object. Each of these has one outcome on all hosts that can follow far enough. `Settles`
says so of a step, and the lemmas here put it together: since a step asks for its second node on the
machine that the first one leaves, the levels that it needs are the most that one of its parts needs.

What lies beyond the levels of evaluation is a parameter. A step that settles never gets there, so its
outcome is the same whatever happens there.
-/

namespace ModuLang

open Eval

variable {α β : Type}

/-! ### Documents of values -/

namespace Json

variable {h : Heap} {v : Value}

/-- Where a list of computations does not end with an error, other computations that agree with each
of them but for this error give the same list. -/
theorem mapM_eq_of_ne {ε : Type} {e : ε} {f g : α → Except ε β} {as : List α}
    (hfg : ∀ a ∈ as, f a ≠ .error e → g a = f a) (hne : as.mapM f ≠ .error e) :
    as.mapM g = as.mapM f := by
  induction as with
  | nil => rfl
  | cons a as ih =>
    rw [List.mapM_cons] at hne ⊢
    rw [List.mapM_cons]
    have hfirst : f a ≠ .error e := by
      intro heq
      rw [heq] at hne
      exact hne rfl
    rw [hfg a List.mem_cons_self hfirst]
    cases hout : f a with
    | error e' => rfl
    | ok b =>
      rw [hout] at hne
      have hrest : as.mapM f ≠ .error e := by
        intro heq
        rw [Source.ok_bind, heq] at hne
        exact hne rfl
      rw [ih (fun a ha => hfg a (List.mem_cons_of_mem _ ha)) hrest]

/-- More levels than are needed do not change the document of a value. -/
theorem ofValue_of_le {levels more : Nat} (hle : levels ≤ more)
    (hne : ofValue h levels v ≠ .error (.crash .stackOverflow)) :
    ofValue h more v = ofValue h levels v := by
  induction levels generalizing more v with
  | zero => exact absurd rfl hne
  | succ levels ih =>
    obtain ⟨more, rfl⟩ : ∃ k, more = k + 1 := ⟨more - 1, by omega⟩
    have hinner : ∀ v, ofValue h levels v ≠ .error (.crash .stackOverflow) →
        ofValue h more v = ofValue h levels v := fun v => ih (by omega)
    cases v with
    | object a =>
      rw [ofValue] at hne ⊢
      rw [ofValue]
      split at hne
      · next harray =>
        rw [if_pos harray, if_pos harray]
        cases hitems : (h.get a).elements with
        | error cause => rfl
        | ok items =>
          simp only [hitems] at hne ⊢
          rw [mapM_eq_of_ne (fun item _ => hinner item) fun heq => hne (by rw [heq]; rfl)]
      · next harray =>
        rw [if_neg harray, if_neg harray]
        rw [mapM_eq_of_ne ?_ fun heq => hne (by rw [heq]; rfl)]
        intro entry _ hentry
        rw [hinner entry.2 fun heq => hentry (by rw [heq]; rfl)]
    | _ => rfl

/-- All numbers of levels that are large enough give the same document, or fail in the same way. -/
theorem ofValue_settled (h : Heap) (v : Value) :
    ∃ levels result, ∀ more, levels ≤ more → ofValue h more v = result := by
  by_cases hfollows : ∃ levels, ofValue h levels v ≠ .error (.crash .stackOverflow)
  · obtain ⟨levels, hne⟩ := hfollows
    exact ⟨levels, _, fun more hmore => ofValue_of_le hmore hne⟩
  · exact ⟨0, _, fun more _ => Classical.not_not.mp fun hne => hfollows ⟨more, hne⟩⟩

end Json

/-- Two hosts agree on the application of a native function if they agree on the documents that it
reads and makes. -/
theorem Native.apply_congr (limits limits' : Host.Limits) {f : Native} {vs : List Value}
    {m : Machine}
    (hparse : ∀ s, f = .json .parse → vs = [.str s] → @Json.parse limits s = @Json.parse limits' s)
    (hvalue : ∀ a, f = .json .stringify → vs = [.object a] →
      Json.ofValue m.heap limits.levels (.object a) =
        Json.ofValue m.heap limits'.levels (.object a)) :
    (@Native.apply limits f vs).outcome m = (@Native.apply limits' f vs).outcome m := by
  cases f with
  | json f =>
    change (@Library.applyJson limits f vs).outcome m = (@Library.applyJson limits' f vs).outcome m
    unfold Library.applyJson
    split
    · rfl
    · next v =>
      cases v with
      | object a =>
        change (ofExcept (Json.ofValue m.heap limits.levels (.object a)) >>= _).outcome m =
          (ofExcept (Json.ofValue m.heap limits'.levels (.object a)) >>= _).outcome m
        rw [hvalue a rfl rfl]
      | _ => rfl
    · next v =>
      cases v with
      | str s =>
        simp only [Library.jsonParse]
        rw [hparse s rfl rfl]
      | _ => rfl
    · rfl
    · rfl
  | exec => rcases vs with _ | ⟨v, _ | ⟨w, rest⟩⟩ <;> rfl
  | _ => rfl

/-- All hosts that can follow far enough agree on the application of a native function. -/
theorem Native.apply_settled (f : Native) (vs : List Value) (m : Machine) :
    ∃ levels out, ∀ limits : Host.Limits, levels ≤ limits.levels →
      (f.apply vs).outcome m = out := by
  obtain ⟨levels, hagree⟩ : ∃ levels, ∀ limits limits' : Host.Limits, levels ≤ limits.levels →
      levels ≤ limits'.levels →
      (@Native.apply limits f vs).outcome m = (@Native.apply limits' f vs).outcome m := by
    -- Only these two applications go down into something.
    by_cases hparse : ∃ s, f = .json .parse ∧ vs = [.str s]
    · obtain ⟨s, rfl, rfl⟩ := hparse
      obtain ⟨levels, result, -, hresult⟩ := Json.parse_settled s
      refine ⟨levels, fun limits limits' h h' => apply_congr limits limits' ?_ (by simp)⟩
      rintro _ - heq
      cases heq
      exact (@hresult limits h).trans (@hresult limits' h').symm
    · by_cases hvalue : ∃ a, f = .json .stringify ∧ vs = [.object a]
      · obtain ⟨a, rfl, rfl⟩ := hvalue
        obtain ⟨levels, result, hresult⟩ := Json.ofValue_settled m.heap (.object a)
        refine ⟨levels, fun limits limits' h h' => apply_congr limits limits' (by simp) ?_⟩
        rintro _ - heq
        cases heq
        exact (hresult _ h).trans (hresult _ h').symm
      · exact ⟨0, fun limits limits' _ _ => apply_congr limits limits'
          (fun s hf hvs => absurd ⟨s, hf, hvs⟩ hparse) fun a hf hvs => absurd ⟨a, hf, hvs⟩ hvalue⟩
  let large : Host.Limits := ⟨levels + 32, Nat.le_add_left _ _⟩
  exact ⟨levels, (@Native.apply large f vs).outcome m, fun limits hlimits =>
    hagree limits large hlimits (Nat.le_add_right _ _)⟩

theorem ReadsFile.text_eq {config : Config} {m : Machine} {node : Node} {path path' : Host.Path}
    {text text' : String} (h : ReadsFile config m node path text)
    (h' : ReadsFile config m node path' text') : text = text' := by
  cases h with
  | importing _ hnames =>
    cases h' with
    | importing _ hnames' => exact (hnames.eq hnames').2

/-- What some levels are enough for in every text, they are enough for in the file that a node
imports, if it imports one. -/
theorem exists_levels_of_readsFile {P : Nat → String → Prop} (config : Config) (m : Machine)
    (node : Node) (h : ∀ text, ∃ levels, P levels text) :
    ∃ levels, ∀ path text, ReadsFile config m node path text → P levels text := by
  by_cases hreads : ∃ path text, ReadsFile config m node path text
  · obtain ⟨path, text, hreads⟩ := hreads
    obtain ⟨levels, hlevels⟩ := h text
    exact ⟨levels, fun path' text' hreads' => hreads.text_eq hreads' ▸ hlevels⟩
  · exact ⟨0, fun path text hreads' => absurd ⟨path, text, hreads'⟩ hreads⟩

/-- An import is the same on two hosts that read the same program from its file. -/
theorem outcome_importing_congr (limits limits' : Host.Limits) {config : Config}
    {m : Machine} {target : Quotation} {asName : Option String} {line : Int} (ev : Evaluator)
    (hparse : ∀ path text, ReadsFile config m (.importing target asName line) path text →
      @Source.parse limits text = @Source.parse limits' text) :
    (@evaluateNode limits ev config (.importing target asName line)).outcome m =
      (@evaluateNode limits' ev config (.importing target asName line)).outcome m := by
  by_cases hextension : (Source.unquote target.raw).endsWith sourceExtension = true
  · have hload : (@loadFile limits ev config (Source.unquote target.raw)).outcome m =
        (@loadFile limits' ev config (Source.unquote target.raw)).outcome m := by
      rcases namesFile_or_refused config m.world (Source.unquote target.raw) with
        ⟨path, text, hnames⟩ | ⟨failure, hrefused⟩
      · have hsame := hparse path text (.importing hextension hnames)
        rw [@NamesFile.outcome_loadFile _ _ limits _ _ _ hnames,
          @NamesFile.outcome_loadFile _ _ limits' _ _ _ hnames]
        unfold runModule
        rw [hsame]
      · rw [@RefusesTarget.outcome_loadFile _ _ limits _ _ hrefused,
          @RefusesTarget.outcome_loadFile _ _ limits' _ _ hrefused]
    rw [@outcome_importing_file _ limits _ _ _ _ _ hextension,
      @outcome_importing_file _ limits' _ _ _ _ _ hextension, outcome_bind, outcome_bind, hload]
  · change (@importTarget limits ev config target asName >>= _).outcome m =
      (@importTarget limits' ev config target asName >>= _).outcome m
    unfold importTarget
    rw [if_neg hextension, if_neg hextension]

/-! ### Hosts that can follow more and more -/

/-- Evaluation with a number of levels, and with an evaluator for what is nested deeper. -/
def evaluateOver [Host.Limits] (bottom : Evaluator) : Nat → Evaluator
  | 0 => bottom
  | levels + 1 => fun config node =>
    atLine node.line (evaluateNode (evaluateOver bottom levels) config node)

/-- Beyond the levels of an evaluation there is the stack overflow. -/
theorem evaluateOver_evaluate_zero [Host.Limits] (levels : Nat) :
    evaluateOver (evaluate 0) levels = evaluate levels := by
  induction levels with
  | zero => rfl
  | succ levels ih => rw [evaluateOver, ih, evaluate]

/-- Sets of hosts, each within the one before, whose hosts come to agree on every text and on every
application of a native function. -/
structure HostsSettle (hosts : Nat → Host.Limits → Prop) : Prop where
  inhabited : ∀ levels, ∃ limits, hosts levels limits
  antitone : ∀ {levels more limits}, levels ≤ more → hosts more limits → hosts levels limits
  parse : ∀ text, ∃ levels program, ∀ limits : Host.Limits, hosts levels limits →
    Source.parse text = program
  apply : ∀ f vs m, ∃ levels out, ∀ limits : Host.Limits, hosts levels limits →
    (Native.apply f vs).outcome m = out

/-- One host alone. -/
theorem hostsSettle_single (host : Host.Limits) : HostsSettle fun _ limits => limits = host where
  inhabited _ := ⟨host, rfl⟩
  antitone _ h := h
  parse text := ⟨0, @Source.parse host text, by rintro _ rfl; rfl⟩
  apply f vs m := ⟨0, (@Native.apply host f vs).outcome m, by rintro _ rfl; rfl⟩

/-- The hosts that can follow a number of levels. -/
theorem hostsSettle_growing : HostsSettle fun levels limits => levels ≤ limits.levels where
  inhabited levels := ⟨⟨levels + 32, Nat.le_add_left _ _⟩, Nat.le_add_right _ _⟩
  antitone := Nat.le_trans
  parse text := by
    obtain ⟨levels, program, -, hprogram⟩ := Source.parse_settled text
    exact ⟨levels, program, fun limits hlimits => hprogram hlimits⟩
  apply := Native.apply_settled

/-- Whether a point has one answer on the hosts with that many levels or more, whatever lies beyond
them. -/
def Point.EndsWith (hosts : Nat → Host.Limits → Prop) (p : Point) (levels : Nat)
    (out : Outcome Value) : Prop :=
  ∀ limits : Host.Limits, hosts levels limits → ∀ more, levels ≤ more → ∀ bottom,
    (evaluateOver bottom more).answer p = out

/-- Whether some number of levels is enough for a point. -/
def Point.Ends (hosts : Nat → Host.Limits → Prop) (p : Point) : Prop :=
  ∃ levels out, p.EndsWith hosts levels out

open Classical in
/-- The evaluator that has all the levels that a point needs. -/
noncomputable def evaluateFully (hosts : Nat → Host.Limits → Prop) : Evaluator :=
  fun config node => ExceptT.mk fun m =>
    if h : ∃ out levels, Point.EndsWith hosts ⟨config, node, m⟩ levels out then h.choose
    else (.error .exited, m)

/-- Whether a step has one outcome on the hosts with enough levels, which it also has with all levels
that are needed. -/
def SettlesTo (hosts : Nat → Host.Limits → Prop) (F : Host.Limits → Evaluator → Eval α)
    (m : Machine) (out : Outcome α) : Prop :=
  ∃ levels, ∀ limits : Host.Limits, hosts levels limits →
    (F limits (evaluateFully hosts)).outcome m = out ∧
    ∀ more, levels ≤ more → ∀ bottom, (F limits (evaluateOver bottom more)).outcome m = out

section Settling

variable {hosts : Nat → Host.Limits → Prop} {p : Point} {m : Machine}

section

variable (hhosts : HostsSettle hosts)

include hhosts

theorem Point.EndsWith.unique {levels levels' : Nat} {out out' : Outcome Value}
    (h : p.EndsWith hosts levels out) (h' : p.EndsWith hosts levels' out') : out = out' := by
  obtain ⟨limits, hlimits⟩ := hhosts.inhabited (max levels levels')
  have hle := hhosts.antitone (Nat.le_max_left levels levels') hlimits
  have hle' := hhosts.antitone (Nat.le_max_right levels levels') hlimits
  calc
    out = (evaluateOver (evaluate 0) (max levels levels')).answer p :=
      (h limits hle _ (Nat.le_max_left _ _) _).symm
    _ = out' := h' limits hle' _ (Nat.le_max_right _ _) _

theorem Point.EndsWith.answer_evaluateFully {levels : Nat} {out : Outcome Value}
    (h : p.EndsWith hosts levels out) : (evaluateFully hosts).answer p = out := by
  have hexists : ∃ out levels, p.EndsWith hosts levels out := ⟨out, levels, h⟩
  have hanswer : (evaluateFully hosts).answer p = hexists.choose := dif_pos hexists
  obtain ⟨levels', hchosen⟩ := hexists.choose_spec
  rw [hanswer]
  exact hchosen.unique hhosts h

/-- What is given with all levels is given on some host with a number of levels, or it is an exit on
the spot. -/
theorem answer_evaluateFully_cases (p : Point) :
    (∃ (_ : Host.Limits) (levels : Nat),
      (evaluateFully hosts).answer p = (evaluate levels).answer p) ∨
      (evaluateFully hosts).answer p = (.error .exited, p.machine) := by
  by_cases hends : p.Ends hosts
  · obtain ⟨levels, out, hout⟩ := hends
    obtain ⟨limits, hlimits⟩ := hhosts.inhabited levels
    refine .inl ⟨limits, levels, ?_⟩
    rw [hout.answer_evaluateFully hhosts, ← evaluateOver_evaluate_zero]
    exact (hout limits hlimits levels (Nat.le_refl _) _).symm
  · exact .inr (dif_neg fun ⟨out, levels, h⟩ => hends ⟨levels, out, h⟩)

theorem keepsFrames_evaluateFully : KeepsFrames (evaluateFully hosts) := by
  intro p
  rcases answer_evaluateFully_cases hhosts p with ⟨limits, levels, hanswer⟩ | hanswer
  · rw [hanswer]
    exact keepsFrames_evaluate levels p
  · rw [hanswer]
    exact .refl _

/-! ### Steps that settle -/

/-- A dialogue that asks only at points for which some levels are enough ends with enough levels as
it does with all of them. -/
theorem Dialogue.exists_enough {d : Dialogue α} (hd : d.PassesOn)
    (h : ∀ q, (∃ ev', (∀ r, r ≠ q → ev'.answer r = (evaluateFully hosts).answer r) ∧
      d.outcome ev' ≠ d.outcome (evaluateFully hosts)) → q.Ends hosts) :
    ∃ levels, ∀ limits : Host.Limits, hosts levels limits → ∀ more, levels ≤ more → ∀ bottom,
      d.outcome (evaluateOver bottom more) = d.outcome (evaluateFully hosts) := by
  induction d with
  | done out => exact ⟨0, fun _ _ _ _ _ => rfl⟩
  | ask p next ih =>
    have hends : p.Ends hosts := h p (Dialogue.exists_outcome_ne hd _)
    obtain ⟨first, out, hout⟩ := hends
    have hfull : (evaluateFully hosts).answer p = out := hout.answer_evaluateFully hhosts
    -- What is asked behind the first question is asked by the whole dialogue.
    obtain ⟨rest, hrest⟩ := ih out (hd.2 out) fun q ⟨ev', hagree, hdiffers⟩ => by
      by_cases hq : q = p
      · exact hq ▸ ⟨first, out, hout⟩
      · refine h q ⟨ev', hagree, ?_⟩
        rw [outcome, outcome, hagree p fun heq => hq heq.symm, hfull]
        exact hdiffers
    refine ⟨max first rest, fun limits hlimits more hmore bottom => ?_⟩
    have hfirst : first ≤ more := by omega
    have hlater : rest ≤ more := by omega
    have hhost := hhosts.antitone (Nat.le_max_left first rest) hlimits
    have hhost' := hhosts.antitone (Nat.le_max_right first rest) hlimits
    rw [outcome, outcome, hout limits hhost more hfirst bottom, hfull]
    exact hrest limits hhost' more hlater bottom

/-- A step that is the same on all hosts and asks only at points for which some levels are enough. -/
theorem settlesTo_of_asks {F : Evaluator → Eval α} (hF : Sequential F)
    (h : ∀ q, Asks F (evaluateFully hosts) m q → q.Ends hosts) :
    SettlesTo hosts (fun _ => F) m ((F (evaluateFully hosts)).outcome m) := by
  obtain ⟨d, hd, hout⟩ := hF m
  unfold Asks at h
  unfold SettlesTo
  simp only [hout] at h ⊢
  obtain ⟨levels, hlevels⟩ := Dialogue.exists_enough hhosts hd h
  exact ⟨levels, fun limits hlimits => ⟨trivial, hlevels limits hlimits⟩⟩

/-- Hosts with enough levels agree on the step, whatever evaluator it is given. -/
theorem SettlesTo.of_agree {F G : Host.Limits → Evaluator → Eval α} {m m' : Machine}
    {out : Outcome α} {levels : Nat}
    (hagree : ∀ limits : Host.Limits, hosts levels limits → ∀ ev,
      (F limits ev).outcome m = (G limits ev).outcome m')
    (hG : SettlesTo hosts G m' out) : SettlesTo hosts F m out := by
  obtain ⟨enough, h⟩ := hG
  refine ⟨max levels enough, fun limits hlimits => ?_⟩
  have hsame := hagree limits (hhosts.antitone (Nat.le_max_left levels enough) hlimits)
  have hsettles := h limits (hhosts.antitone (Nat.le_max_right levels enough) hlimits)
  rw [hsame]
  refine ⟨hsettles.1, fun more hmore bottom => ?_⟩
  rw [hsame]
  exact hsettles.2 more (by omega) bottom

/-- One step after another. -/
theorem SettlesTo.bind_ok {F : Host.Limits → Evaluator → Eval α}
    {K : α → Host.Limits → Evaluator → Eval β} {a : α} {m' : Machine} {out : Outcome β}
    (hF : SettlesTo hosts F m (.ok a, m')) (hK : SettlesTo hosts (K a) m' out) :
    SettlesTo hosts (fun limits ev => F limits ev >>= fun a => K a limits ev) m out := by
  obtain ⟨first, hfirst⟩ := hF
  obtain ⟨rest, hrest⟩ := hK
  refine ⟨max first rest, fun limits hlimits => ?_⟩
  obtain ⟨hfull, hlevels⟩ := hfirst limits (hhosts.antitone (Nat.le_max_left first rest) hlimits)
  obtain ⟨hfull', hlevels'⟩ := hrest limits (hhosts.antitone (Nat.le_max_right first rest) hlimits)
  refine ⟨?_, fun more hmore bottom => ?_⟩
  · rw [outcome_bind, hfull]
    exact hfull'
  · rw [outcome_bind, hlevels more (by omega) bottom]
    exact hlevels' more (by omega) bottom

end

theorem SettlesTo.bind_error {F : Host.Limits → Evaluator → Eval α}
    {K : α → Host.Limits → Evaluator → Eval β} {i : Interrupt} {m' : Machine}
    (hF : SettlesTo hosts F m (.error i, m')) :
    SettlesTo hosts (fun limits ev => F limits ev >>= fun a => K a limits ev) m (.error i, m') := by
  obtain ⟨levels, h⟩ := hF
  refine ⟨levels, fun limits hlimits => ?_⟩
  obtain ⟨hfull, hlevels⟩ := h limits hlimits
  exact ⟨outcome_bind_error hfull, fun more hmore bottom =>
    outcome_bind_error (hlevels more hmore bottom)⟩

/-- Whether a step settles to some outcome. -/
def Settles (hosts : Nat → Host.Limits → Prop) (F : Host.Limits → Evaluator → Eval α)
    (m : Machine) : Prop :=
  ∃ out, SettlesTo hosts F m out

theorem Settles.bind (hhosts : HostsSettle hosts) {F : Host.Limits → Evaluator → Eval α}
    {K : α → Host.Limits → Evaluator → Eval β} (hF : Settles hosts F m)
    (hK : ∀ a m', SettlesTo hosts F m (.ok a, m') → Settles hosts (K a) m') :
    Settles hosts (fun limits ev => F limits ev >>= fun a => K a limits ev) m := by
  obtain ⟨⟨r, m'⟩, hF⟩ := hF
  cases r with
  | error i => exact ⟨_, hF.bind_error⟩
  | ok a =>
    obtain ⟨out, hrest⟩ := hK a m' hF
    exact ⟨out, hF.bind_ok hhosts hrest⟩

/-! ### Nodes -/

variable (hhosts : HostsSettle hosts)

include hhosts

/-- A step that all hosts take in the same way settles if some levels are enough for the points that
it asks at. -/
theorem settles_of_same (host : Host.Limits) {F : Host.Limits → Evaluator → Eval α}
    (hsame : ∀ limits ev, (F limits ev).outcome m = (F host ev).outcome m)
    (hF : Sequential (F host))
    (hasks : ∀ q, Asks (F host) (evaluateFully hosts) m q → q.Ends hosts) : Settles hosts F m := by
  have hagree : ∀ limits : Host.Limits, hosts 0 limits → ∀ ev,
      (F limits ev).outcome m = (F host ev).outcome m := fun limits _ => hsame limits
  exact ⟨_, (settlesTo_of_asks hhosts hF hasks).of_agree hhosts hagree⟩

theorem settles_callNative (host : Host.Limits) {config : Config} (f : Native) (args : List Node)
    (hasks : ∀ q, Asks (fun ev => callNative ev config f args) (evaluateFully hosts) m q →
      q.Ends hosts) :
    Settles hosts (fun limits ev => @callNative limits ev config f args) m := by
  have harguments : Sequential fun ev => nativeArguments ev config f args :=
    sequential_nativeArguments config f args
  have happlies : Settles hosts (fun limits ev => nativeArguments ev config f args >>= fun vs =>
      @Native.apply limits f vs) m := by
    refine Settles.bind hhosts (settles_of_same hhosts host (fun _ _ => rfl) harguments
      fun q hq => hasks q ?_) fun vs m' _ => ?_
    · exact (hq.bind_left harguments fun vs => sequential_const (@Native.apply host f vs)).congr
        fun ev => outcome_callNative ev config f args m
    · obtain ⟨levels, out, hout⟩ := hhosts.apply f vs m'
      exact ⟨out, levels, fun limits hlimits =>
        ⟨hout limits hlimits, fun _ _ _ => hout limits hlimits⟩⟩
  obtain ⟨out, hout⟩ := happlies
  have hagree : ∀ limits : Host.Limits, hosts 0 limits → ∀ ev,
      (@callNative limits ev config f args).outcome m =
        (nativeArguments ev config f args >>= fun vs => @Native.apply limits f vs).outcome m :=
    fun limits _ ev => outcome_callNative ev config f args m
  exact ⟨out, hout.of_agree hhosts hagree⟩

section Nodes

variable (host : Host.Limits) (hends : ∀ q, @Leads host p q → q.Ends hosts)

include hends

theorem settles_callNamed {name : String} {args : List Node} {line : Int}
    (hnode : p.node = .call name args line) :
    Settles hosts (fun limits ev => @callNamed limits ev p.config name args) p.machine := by
  have hasks : ∀ q, Asks (fun ev => callNamed ev p.config name args) (evaluateFully hosts)
      p.machine q → q.Ends hosts := fun q hq => hends q <| Asks.leads
    (keepsFrames_evaluateFully hhosts) (hnode ▸ hq)
  cases hname : p.machine.env.get? name with
  | some v =>
    cases v with
    | native f =>
      have hcall : ∀ limits ev, (@callNamed limits ev p.config name args).outcome p.machine =
          (@callNative limits ev p.config f args).outcome p.machine := by
        intro limits ev
        rw [callNamed, outcome_env_bind, hname]
      obtain ⟨out, hout⟩ := settles_callNative hhosts host f args fun q hq =>
        hasks q (hq.congr (hcall host))
      have hagree : ∀ limits : Host.Limits, hosts 0 limits → ∀ ev,
          (@callNamed limits ev p.config name args).outcome p.machine =
            (@callNative limits ev p.config f args).outcome p.machine := fun limits _ => hcall limits
      exact ⟨out, hout.of_agree hhosts hagree⟩
    | _ =>
      refine settles_of_same hhosts host (fun limits ev => ?_) (sequential_callNamed p.config _ _)
        hasks
      unfold callNamed
      rw [outcome_env_bind, outcome_env_bind, hname]
  | none =>
    refine settles_of_same hhosts host (fun limits ev => ?_) (sequential_callNamed p.config _ _) hasks
    unfold callNamed
    rw [outcome_env_bind, outcome_env_bind, hname]

theorem settles_callMember {object : Node} {name : String} {args : List Node} {line : Int}
    (hnode : p.node = .methodCall object name args line) :
    Settles hosts (fun limits ev => @callMember limits ev p.config object name args line)
      p.machine := by
  have hfull := keepsFrames_evaluateFully hhosts
  have hmember : Sequential fun ev => memberOf ev p.config object name :=
    sequential_memberOf p.config object name
  have hasks : ∀ q, Asks (fun ev => callMember ev p.config object name args line)
      (evaluateFully hosts) p.machine q → q.Ends hosts := fun q hq =>
    hends q (Asks.leads hfull (hnode ▸ hq))
  refine Settles.bind hhosts
    (K := fun found limits ev => @callProperty limits ev p.config name args line found)
    (settles_of_same hhosts host (fun _ _ => rfl) hmember fun q hq =>
      hasks q (hq.bind_left hmember (sequential_callProperty p.config name args line)))
    fun found m' hfound => ?_
  have hfirst : (memberOf (evaluateFully hosts) p.config object name).outcome p.machine =
      (.ok found, m') := by
    obtain ⟨levels, hlevels⟩ := hfound
    obtain ⟨limits, hlimits⟩ := hhosts.inhabited levels
    exact (hlevels limits hlimits).1
  have hrest : ∀ q, Asks (fun ev => callProperty ev p.config name args line found)
      (evaluateFully hosts) m' q → q.Ends hosts := fun q hq =>
    hasks q (hq.bind_right hmember (sequential_callProperty p.config name args line) hfirst)
  obtain ⟨a, value⟩ := found
  cases value with
  | native f =>
    have hcall : ∀ limits ev,
        (@callProperty limits ev p.config name args line (a, .native f)).outcome m' =
          (@callNative limits ev p.config f (receiverFirst m'.heap a name args line)).outcome m' :=
      fun _ _ => rfl
    obtain ⟨out, hout⟩ := settles_callNative hhosts host f _ fun q hq =>
      hrest q (hq.congr (hcall host))
    have hagree : ∀ limits : Host.Limits, hosts 0 limits → ∀ ev,
        (@callProperty limits ev p.config name args line (a, .native f)).outcome m' =
          (@callNative limits ev p.config f (receiverFirst m'.heap a name args line)).outcome m' :=
      fun limits _ => hcall limits
    exact ⟨out, hout.of_agree hhosts hagree⟩
  | _ =>
    exact settles_of_same hhosts host (fun _ _ => rfl)
      (sequential_callProperty p.config name args line _) hrest

theorem settles_importing {target : Quotation} {asName : Option String} {line : Int} {levels : Nat}
    (hnode : p.node = .importing target asName line) (hhost : hosts levels host)
    (hparse : ∀ path text, ReadsFile p.config p.machine (.importing target asName line) path text →
      ∀ limits limits' : Host.Limits, hosts levels limits → hosts levels limits' →
        @Source.parse limits text = @Source.parse limits' text) :
    Settles hosts (fun limits ev => @evaluateNode limits ev p.config (.importing target asName line))
      p.machine := by
  have hsequential : Sequential fun ev => evaluateNode ev p.config (.importing target asName line) :=
    sequential_evaluateNode p.config _
  have hasks : ∀ q, Asks (fun ev => evaluateNode ev p.config (.importing target asName line))
      (evaluateFully hosts) p.machine q → q.Ends hosts := fun q hq =>
    hends q (Asks.leads (keepsFrames_evaluateFully hhosts) (hnode ▸ hq))
  have hagree : ∀ limits : Host.Limits, hosts levels limits → ∀ ev,
      (@evaluateNode limits ev p.config (.importing target asName line)).outcome p.machine =
        (@evaluateNode host ev p.config (.importing target asName line)).outcome p.machine :=
    fun limits hlimits ev => outcome_importing_congr limits host ev fun path text hreads =>
      hparse path text hreads limits host hlimits hhost
  exact ⟨_, (settlesTo_of_asks hhosts hsequential hasks).of_agree hhosts hagree⟩

end Nodes

/-- A node settles if some levels are enough for all points that it leads to. -/
theorem settles_evaluateNode (hends : ∀ (_ : Host.Limits) (q : Point), Leads p q → q.Ends hosts) :
    Settles hosts (fun limits ev => @evaluateNode limits ev p.config p.node) p.machine := by
  obtain ⟨host, -⟩ := hhosts.inhabited 0
  have hother : (∀ limits ev, (@evaluateNode limits ev p.config p.node).outcome p.machine =
      (@evaluateNode host ev p.config p.node).outcome p.machine) →
      Settles hosts (fun limits ev => @evaluateNode limits ev p.config p.node) p.machine :=
    fun hsame => settles_of_same hhosts host hsame (sequential_evaluateNode p.config p.node)
      fun q hq => hends host q (hq.leads (keepsFrames_evaluateFully hhosts))
  obtain ⟨config, node, m⟩ := p
  cases node with
  | call name args line =>
    exact settles_callNamed (p := ⟨config, .call name args line, m⟩) hhosts host (hends host) rfl
  | methodCall object name args line =>
    exact settles_callMember (p := ⟨config, .methodCall object name args line, m⟩) hhosts host
      (hends host) rfl
  | importing target asName line =>
    -- The hosts have to be able to follow the file, if there is one.
    obtain ⟨levels, hfile⟩ := exists_levels_of_readsFile config m (.importing target asName line)
      hhosts.parse
    have hparse : ∀ path text, ReadsFile config m (.importing target asName line) path text →
        ∀ limits limits' : Host.Limits, hosts levels limits → hosts levels limits' →
          @Source.parse limits text = @Source.parse limits' text := by
      intro path text hreads limits limits' hlimits hlimits'
      obtain ⟨program, hprogram⟩ := hfile path text hreads
      exact (hprogram limits hlimits).trans (hprogram limits' hlimits').symm
    obtain ⟨host, hhost⟩ := hhosts.inhabited levels
    exact settles_importing (p := ⟨config, .importing target asName line, m⟩) hhosts host (hends host)
      rfl hhost hparse
  | returning value line => cases value <;> exact hother fun _ _ => rfl
  | _ => exact hother fun _ _ => rfl

end Settling

end ModuLang
