import ModuLang.Proofs.EvaluationEffects

/-!
# Where a node leads

A node that is evaluated asks for further nodes on further machines. There are three ways to get to
one. A node inside it is evaluated on the frames that are there; only the count of the innermost
frame may have grown. Or a frame is pushed, which takes room for it. A call pushes one for the body
of a function, which may be any list of nodes, as it is found in the environment or in an object. And
where a file is imported, there is one for the statements of its text, which are evaluated under the
configuration of that file.

`Leads` says so of a point and the points that it asks for. It is shown for each construct by one
pass, which also carries the frames along, since a construct asks for its second node on the frames
that its first one leaves.
-/

namespace ModuLang

open Eval Host

variable {α β : Type} {ev : Evaluator} {config : Config} {m : Machine} {p : Point}

/-- A step leaves the frames but for the count of the innermost one if it keeps the boundary that asks
nothing. -/
theorem framesKept_of_keeps {x x' : Eval α} {P : Nat → α → Prop}
    (hx : Keeps .absent (knownEnv .absent) m x x' P) : FramesKept m.frames (x.outcome m).2.frames := by
  obtain ⟨-, hkept⟩ := hx (fun hdrawn => hdrawn.elim) fun _ _ hdrawn => hdrawn.elim
  exact hkept.grows.frames

/-- Whether an evaluator leaves the frames but for the count of the innermost one. -/
def KeepsFrames (ev : Evaluator) : Prop :=
  ∀ p : Point, FramesKept p.machine.frames (ev.answer p).2.frames

/-- A node that is evaluated as a part of another one: it stands inside it, or it is the receiver of
a method. -/
def Node.HasPart (node part : Node) : Prop :=
  part ∈ node.children ∨ node.children ≠ [] ∧ ∃ v line, part = .literal v line

/-- Whether a machine has one frame more than there was at a point, where there was room for it. -/
structure Entered (p : Point) (m : Machine) : Prop where
  room : (p.machine.frames.length : Int) < p.config.maxCallDepth
  frames : ∃ frame below, m.frames = frame :: below ∧ FramesKept p.machine.frames below

/-- Whether a node is a call. -/
def Node.IsCall : Node → Prop
  | .call _ _ _ | .methodCall _ _ _ _ => True
  | _ => False

/-- The points that a point may lead to: the parts of its node, the body of a function that it calls,
and the statements of a file that it imports. -/
inductive Leads [Host.Limits] (p : Point) : Point → Prop where
  | inner {node : Node} {m : Machine} : p.node.HasPart node →
      FramesKept p.machine.frames m.frames → Leads p ⟨p.config, node, m⟩
  | body {node : Node} {m : Machine} : p.node.IsCall → Entered p m → Leads p ⟨p.config, node, m⟩
  | file {path : Path} {text : String} {node : Node} {m : Machine} :
      ReadsFile p.config p.machine p.node path text → node ∈ (Source.parse text).statements →
      Entered p m → Leads p ⟨p.config.withScript path, node, m⟩

/-- The limit on the number of frames stays. -/
theorem Leads.maxCallDepth_eq [Host.Limits] {q : Point} (h : Leads p q) :
    q.config.maxCallDepth = p.config.maxCallDepth := by
  cases h <;> rfl

/-- A point leads to a part of its node on the frames that are there, or a frame is pushed. -/
theorem Leads.frames_cases [Host.Limits] {q : Point} (h : Leads p q) :
    (p.node.HasPart q.node ∧ FramesKept p.machine.frames q.machine.frames) ∨
      Entered p q.machine := by
  cases h with
  | inner hpart hframes => exact .inl ⟨hpart, hframes⟩
  | body _ hentered => exact .inr hentered
  | file _ _ hentered => exact .inr hentered

theorem Entered.length_eq (h : Entered p m) : m.frames.length = p.machine.frames.length + 1 := by
  obtain ⟨frame, below, hframes, hbelow⟩ := h.frames
  rw [hframes, List.length_cons, hbelow.length_eq]

/-- Counting statements in the innermost frame leaves the frames below it. -/
theorem Entered.mono {m' : Machine} (h : Entered p m) (hkept : FramesKept m.frames m'.frames) :
    Entered p m' := by
  obtain ⟨frame, below, hframes, hbelow⟩ := h.frames
  rw [hframes] at hkept
  obtain ⟨count, -, hafter⟩ := hkept
  exact ⟨h.room, _, below, hafter, hbelow⟩

/-! ### Steps and the points that they ask for -/

/-- What is shown of a step: it leaves the frames but for the count of the innermost one, and it asks
its evaluator only at some points. -/
structure AsksWithin (S : Point → Prop) (F : Evaluator → Eval α) (ev : Evaluator) (m : Machine) :
    Prop where
  frames : FramesKept m.frames ((F ev).outcome m).2.frames
  asks : ∀ q, Asks F ev m q → S q

section Rules

variable {S : Point → Prop} {F G : Evaluator → Eval α} {K : α → Evaluator → Eval β}

/-- A step that has no use for an evaluator, which every such step says of itself by the boundary
that asks nothing. -/
theorem asksWithin_const {x : Eval α} {P : Nat → α → Prop}
    (hx : Keeps .absent (knownEnv .absent) m x x P) : AsksWithin S (fun _ => x) ev m :=
  ⟨framesKept_of_keeps hx, fun _ hq => absurd hq (not_asks_of_outcome fun _ => rfl)⟩

theorem asksWithin_pure (a : α) : AsksWithin S (fun _ => (pure a : Eval α)) ev m :=
  asksWithin_const (keeps_pure (P := fun _ _ => True) trivial)

theorem asksWithin_fail (cause : Cause) : AsksWithin S (fun _ => (fail cause : Eval α)) ev m :=
  asksWithin_const (P := fun _ _ => True) (keeps_fail cause)

theorem asksWithin_throw (failure : Failure) :
    AsksWithin S (fun _ => (throw (.failed failure) : Eval α)) ev m :=
  asksWithin_const (P := fun _ _ => True) (keeps_throw trivial)

theorem asksWithin_env : AsksWithin S (fun _ => Eval.env) ev m :=
  asksWithin_const keeps_env

theorem asksWithin_clone (e : Environment) : AsksWithin S (fun _ => Eval.clone e) ev m :=
  asksWithin_const (keeps_clone fun _ _ hdrawn => hdrawn.elim)

theorem asksWithin_copyValue (v : Value) : AsksWithin S (fun _ => copyValue v) ev m :=
  asksWithin_const (keeps_copyValue fun hdrawn => hdrawn.elim)

theorem asksWithin_define (name : String) (v : Value) :
    AsksWithin S (fun _ => define name v) ev m :=
  asksWithin_const (keeps_define fun hdrawn => hdrawn.elim)

theorem asksWithin_countStatement (statement : Node) :
    AsksWithin S (fun _ => countStatement config statement) ev m :=
  asksWithin_const (keeps_countStatement config statement)

/-- Asking the evaluator. -/
theorem asksWithin_ask (hev : KeepsFrames ev) {node : Node} (h : S ⟨config, node, m⟩) :
    AsksWithin S (fun ev => ev config node) ev m :=
  ⟨hev ⟨config, node, m⟩, fun _ hq => hq.eq_of_ask ▸ h⟩

theorem AsksWithin.ite {c : Prop} [Decidable c] (hF : c → AsksWithin S F ev m)
    (hG : ¬c → AsksWithin S G ev m) : AsksWithin S (fun ev => if c then F ev else G ev) ev m := by
  by_cases hc : c
  · simpa only [if_pos hc] using hF hc
  · simpa only [if_neg hc] using hG hc

/-- One step after another, which starts on the frames that the first one leaves. -/
theorem AsksWithin.bind (hF : AsksWithin S F ev m)
    (hK : ∀ a m', FramesKept m.frames m'.frames → AsksWithin S (K a) ev m') :
    AsksWithin S (fun ev => F ev >>= fun a => K a ev) ev m := by
  constructor
  · have hfirst := hF.frames
    rw [outcome_bind]
    revert hfirst
    obtain ⟨r, m'⟩ := (F ev).outcome m
    intro hfirst
    cases r with
    | error i => exact hfirst
    | ok a => exact hfirst.trans (hK a m' hfirst).frames
  · intro q hq
    rcases hq.bind_cases with hfirst | ⟨a, m', hout, hsecond⟩
    · exact hF.asks q hfirst
    · have hkept := hF.frames
      rw [hout] at hkept
      exact (hK a m' hkept).asks q hsecond

/-- A step whose interrupts are handled without touching the machine. -/
theorem AsksWithin.tryCatch {handler : Interrupt → Eval α} (hF : AsksWithin S F ev m)
    (hhandler : ∀ i m', ((handler i).outcome m').2 = m') :
    AsksWithin S (fun ev => MonadExcept.tryCatch (F ev) handler) ev m := by
  constructor
  · have hfirst := hF.frames
    rw [outcome_tryCatch]
    revert hfirst
    obtain ⟨r, m'⟩ := (F ev).outcome m
    intro hfirst
    cases r with
    | ok a => exact hfirst
    | error i =>
      simp only [hhandler]
      exact hfirst
  · exact fun q hq => hF.asks q hq.of_tryCatch

/-- A step that does on a machine what another one does on a machine with the same frames. -/
theorem AsksWithin.congr {m' : Machine} (hF : AsksWithin S F ev m')
    (h : ∀ ev, (G ev).outcome m = (F ev).outcome m') (hframes : FramesKept m.frames m'.frames) :
    AsksWithin S G ev m := by
  constructor
  · rw [h]
    exact hframes.trans hF.frames
  · rintro q ⟨ev', hagree, hdiffers⟩
    refine hF.asks q ⟨ev', hagree, fun hsame => hdiffers ?_⟩
    rw [h, h, hsame]

theorem AsksWithin.blameFile (hF : AsksWithin S F ev m) (path : Path) :
    AsksWithin S (fun ev => ModuLang.blameFile path (F ev)) ev m := by
  refine hF.tryCatch fun i m' => ?_
  split
  · split <;> rfl
  · rfl

theorem AsksWithin.catchReturn (hF : AsksWithin S F ev m) :
    AsksWithin S (fun ev => Eval.catchReturn (F ev)) ev m := by
  have hok : AsksWithin S (fun ev => F ev >>= fun a => (pure (.ok a) : Eval (Except Value α))) ev m :=
    hF.bind fun a m' _ => asksWithin_pure _
  refine hok.tryCatch fun i m' => ?_
  split <;> rfl

/-- A step in another environment. -/
theorem AsksWithin.inside {e : Environment} (hF : AsksWithin S F ev { m with env := e }) :
    AsksWithin S (fun ev => Eval.inside e (F ev)) ev m := by
  refine ⟨hF.frames, fun q hq => hF.asks q ?_⟩
  obtain ⟨ev', hagree, hdiffers⟩ := hq
  refine ⟨ev', hagree, fun hsame => hdiffers ?_⟩
  rw [outcome_inside, outcome_inside, hsame]

/-- A step in a new frame: it is not taken at all if there is no room for one. -/
theorem AsksWithin.inFrame {name : String} {counted : Bool}
    (hF : (m.frames.length : Int) < config.maxCallDepth →
      AsksWithin S F ev { m with frames := ⟨name, counted, 0⟩ :: m.frames }) :
    AsksWithin S (fun ev => Eval.inFrame config name counted (F ev)) ev m := by
  by_cases hlimit : config.maxCallDepth ≤ m.frames.length
  · have hrefused : ∀ ev, (Eval.inFrame config name counted (F ev)).outcome m =
        (fail .recursionTooDeep : Eval α).outcome m := by
      intro ev
      rw [outcome_inFrame, if_pos hlimit]
    constructor
    · rw [hrefused]
      exact .refl _
    · exact fun q hq => absurd hq (not_asks_of_outcome fun ev' => by rw [hrefused, hrefused])
  · have hF' := hF (by omega)
    let pushed : Machine := { m with frames := ⟨name, counted, 0⟩ :: m.frames }
    have hout : ∀ ev, (Eval.inFrame config name counted (F ev)).outcome m =
        (((F ev).outcome pushed).1,
          { ((F ev).outcome pushed).2 with frames := ((F ev).outcome pushed).2.frames.tail }) := by
      intro ev
      rw [outcome_inFrame, if_neg hlimit]
    constructor
    · -- The frame that was pushed is on top, and it is taken away again.
      obtain ⟨count, -, hframes⟩ := hF'.frames
      rw [hout]
      simp only [pushed, hframes, List.tail_cons]
      exact .refl _
    · intro q hq
      obtain ⟨ev', hagree, hdiffers⟩ := hq
      refine hF'.asks q ⟨ev', hagree, fun hsame => hdiffers ?_⟩
      rw [hout, hout, hsame]

end Rules

/-! ### The constructs of the language -/

section

variable [Host.Limits]

section Constructs

variable (hev : KeepsFrames ev)

include hev

theorem asksWithin_evaluateAll {nodes : List Node} (hnodes : ∀ node ∈ nodes, p.node.HasPart node)
    (hm : FramesKept p.machine.frames m.frames) :
    AsksWithin (Leads p) (fun ev => evaluateAll ev p.config nodes) ev m := by
  induction nodes generalizing m with
  | nil => exact asksWithin_pure _
  | cons node rest ih =>
    have hnode : Leads p ⟨p.config, node, m⟩ := .inner (hnodes node List.mem_cons_self) hm
    refine (asksWithin_ask hev hnode).bind fun value m₁ h₁ => ?_
    have hrest := ih (fun node hnode => hnodes node (List.mem_cons_of_mem _ hnode)) (hm.trans h₁)
    exact hrest.bind fun values _ _ => asksWithin_pure _

theorem asksWithin_runBlock {nodes : List Node} (hnodes : ∀ node ∈ nodes, p.node.HasPart node)
    (hm : FramesKept p.machine.frames m.frames) :
    AsksWithin (Leads p) (fun ev => runBlock ev p.config nodes) ev m := by
  induction nodes generalizing m with
  | nil => exact asksWithin_pure _
  | cons statement rest ih =>
    refine (asksWithin_countStatement statement).bind fun _ m₁ h₁ => ?_
    have hstatement : Leads p ⟨p.config, statement, m₁⟩ :=
      .inner (hnodes statement List.mem_cons_self) (hm.trans h₁)
    refine (asksWithin_ask hev hstatement).bind fun _ m₂ h₂ => ?_
    exact ih (fun node hnode => hnodes node (List.mem_cons_of_mem _ hnode)) ((hm.trans h₁).trans h₂)

/-- The body of a function, which may be any list of nodes, in a frame that was pushed. -/
theorem asksWithin_runBody {passesOver : Bool} {nodes : List Node} (hcall : p.node.IsCall)
    (hm : Entered p m) :
    AsksWithin (Leads p) (fun ev => runBody ev p.config passesOver nodes) ev m := by
  induction nodes generalizing m with
  | nil => exact asksWithin_pure _
  | cons statement rest ih =>
    refine (asksWithin_countStatement statement).bind fun _ m₁ h₁ => ?_
    have hstatement : Leads p ⟨p.config, statement, m₁⟩ := .body hcall (hm.mono h₁)
    refine (asksWithin_ask hev hstatement).catchReturn.bind fun result m₂ h₂ => ?_
    have hrest := ih ((hm.mono h₁).mono h₂)
    cases result with
    | ok _ => exact hrest
    | error value => exact .ite (fun _ => hrest) fun _ => asksWithin_pure _

/-- The statements of a file that is imported, in a frame that was pushed. -/
theorem asksWithin_runStatements {path : Path} {text : String} (failure : Option Failure)
    {nodes : List Node} (hfile : ReadsFile p.config p.machine p.node path text)
    (hnodes : ∀ node ∈ nodes, node ∈ (Source.parse text).statements) (hm : Entered p m) :
    AsksWithin (Leads p) (fun ev => runStatements ev (p.config.withScript path) failure nodes) ev
      m := by
  induction nodes generalizing m with
  | nil =>
    cases failure with
    | none => exact asksWithin_pure _
    | some failure => exact asksWithin_throw failure
  | cons statement rest ih =>
    have hstatement : Leads p ⟨p.config.withScript path, statement, m⟩ :=
      .file hfile (hnodes statement List.mem_cons_self) hm
    refine (asksWithin_ask hev hstatement).bind fun _ m₁ h₁ => ?_
    exact ih (fun node hnode => hnodes node (List.mem_cons_of_mem _ hnode)) (hm.mono h₁)

/-- The arguments of a call are evaluated before its frame is pushed, and the body after it. -/
theorem asksWithin_callFunction {passesOver : Bool} {name : String} {params : List String}
    {body args : List Node} (hcall : p.node.IsCall) (hargs : ∀ arg ∈ args, p.node.HasPart arg)
    (hm : FramesKept p.machine.frames m.frames) :
    AsksWithin (Leads p) (fun ev => callFunction ev p.config passesOver name params body args) ev
      m := by
  unfold callFunction
  refine (asksWithin_const (keeps_checkArity _ _ _)).bind fun _ m₁ h₁ => ?_
  refine asksWithin_env.bind fun e m₂ h₂ => (asksWithin_clone e).bind fun callEnv m₃ h₃ => ?_
  refine (asksWithin_clone callEnv).bind fun argEnv m₄ h₄ => ?_
  have hm₄ : FramesKept p.machine.frames m₄.frames := (((hm.trans h₁).trans h₂).trans h₃).trans h₄
  have hvalues : AsksWithin (Leads p) (fun ev => evaluateAll ev p.config args) ev
      { m₄ with env := argEnv } := asksWithin_evaluateAll hev hargs hm₄
  refine hvalues.inside.bind fun values m₅ h₅ => ?_
  have hbind : Keeps .absent (knownEnv .absent) m₅ (bindArguments callEnv params values)
      (bindArguments callEnv params values) (knownEnv .absent).holds :=
    keeps_bindArguments params (fun _ _ hdrawn => hdrawn.elim) fun _ _ hdrawn => hdrawn.elim
  refine (asksWithin_const hbind).bind fun bodyEnv m₆ h₆ => ?_
  have hm₆ : FramesKept p.machine.frames m₆.frames := (hm₄.trans h₅).trans h₆
  refine AsksWithin.inside (.inFrame fun hroom => asksWithin_runBody hev hcall ⟨?_, _, _, rfl, hm₆⟩)
  have hlength : m₆.frames.length = p.machine.frames.length := hm₆.length_eq
  simp only at hroom
  omega

theorem asksWithin_callNative (f : Native) {args : List Node}
    (hargs : ∀ arg ∈ args, p.node.HasPart arg) (hm : FramesKept p.machine.frames m.frames) :
    AsksWithin (Leads p) (fun ev => callNative ev p.config f args) ev m := by
  unfold callNative
  refine (asksWithin_const (keeps_checkArity _ _ _)).bind fun _ m₁ h₁ => ?_
  cases f.refusal? with
  | some cause => exact asksWithin_fail cause
  | none =>
    refine (asksWithin_evaluateAll hev hargs (hm.trans h₁)).bind fun values m₂ _ => ?_
    exact asksWithin_const (keeps_native f fun _ _ hdrawn => hdrawn.elim)

theorem asksWithin_callNamed (name : String) {args : List Node} (hcall : p.node.IsCall)
    (hargs : ∀ arg ∈ args, p.node.HasPart arg) (hm : FramesKept p.machine.frames m.frames) :
    AsksWithin (Leads p) (fun ev => callNamed ev p.config name args) ev m := by
  refine asksWithin_env.bind fun e m₁ h₁ => ?_
  cases e.get? name with
  | none => exact asksWithin_fail _
  | some value =>
    cases value with
    | function fname params body => exact asksWithin_callFunction hev hcall hargs (hm.trans h₁)
    | native f => exact asksWithin_callNative hev f hargs (hm.trans h₁)
    | _ => exact asksWithin_fail _

theorem asksWithin_resolveObject {node : Node} (hnode : p.node.HasPart node)
    (hm : FramesKept p.machine.frames m.frames) :
    AsksWithin (Leads p) (fun ev => resolveObject ev p.config node) ev m := by
  have hasks : AsksWithin (Leads p) (fun ev => ev p.config node >>= addressOf) ev m := by
    refine (asksWithin_ask hev (.inner hnode hm)).bind fun value m₁ _ => ?_
    exact asksWithin_const (keeps_addressOf fun hdrawn => hdrawn.elim)
  cases node with
  | identifier name line =>
    -- A bare name is looked up without asking, so the evaluator makes no difference.
    exact asksWithin_const (x := resolveObject (evaluate 0) p.config (.identifier name line))
      (keeps_resolveObject (complies_evaluate .absent 0) fun hdrawn => hdrawn.elim)
  | _ => exact hasks

theorem asksWithin_memberOf {node : Node} (name : String) (hnode : p.node.HasPart node)
    (hm : FramesKept p.machine.frames m.frames) :
    AsksWithin (Leads p) (fun ev => memberOf ev p.config node name) ev m := by
  refine (asksWithin_resolveObject hev hnode hm).bind fun a m₁ _ => ?_
  refine (asksWithin_const (keeps_object fun hdrawn => hdrawn.elim)).bind fun o m₂ _ => ?_
  cases o.get? name with
  | none => exact asksWithin_fail _
  | some value => exact asksWithin_pure _

theorem asksWithin_callMember {node : Node} (name : String) {args : List Node} (line : Int)
    (hcall : p.node.IsCall) (hnode : node ∈ p.node.children)
    (hargs : ∀ arg ∈ args, p.node.HasPart arg) (hm : FramesKept p.machine.frames m.frames) :
    AsksWithin (Leads p) (fun ev => callMember ev p.config node name args line) ev m := by
  refine (asksWithin_memberOf hev name (.inl hnode) hm).bind fun member m₁ h₁ => ?_
  obtain ⟨a, member⟩ := member
  cases member with
  | native f =>
    refine (asksWithin_const (keeps_object fun hdrawn => hdrawn.elim)).bind fun o m₂ h₂ => ?_
    refine asksWithin_callNative hev f ?_ ((hm.trans h₁).trans h₂)
    -- The receiver comes first; the node has an object inside it, so it is not a literal itself.
    split
    · intro arg harg
      rcases List.mem_cons.mp harg with rfl | harg
      · exact .inr ⟨List.ne_nil_of_mem hnode, _, _, rfl⟩
      · exact hargs arg harg
    · exact hargs
  | function fname params body => exact asksWithin_callFunction hev hcall hargs (hm.trans h₁)
  | _ => exact asksWithin_fail _

/-- The statements of a file that can be read run in a frame that was pushed, under the configuration
of the file; and nothing is asked where the target is refused. -/
theorem asksWithin_loadFile {target : Quotation} {asName : Option String} {line : Int}
    (hnode : p.node = .importing target asName line)
    (hextension : (Source.unquote target.raw).endsWith sourceExtension = true) :
    AsksWithin (Leads p) (fun ev => loadFile ev p.config (Source.unquote target.raw)) ev
      p.machine := by
  rcases namesFile_or_refused p.config p.machine.world (Source.unquote target.raw) with
    ⟨path, text, hnames⟩ | ⟨failure, hrefused⟩
  · have hfile : ReadsFile p.config p.machine p.node path text := hnode ▸ .importing hextension hnames
    refine AsksWithin.congr (.inside (AsksWithin.bind (.blameFile (.inFrame fun hroom => ?_) path)
      fun _ m₁ _ => asksWithin_env.bind fun e m₂ _ => asksWithin_pure _)) hnames.outcome_loadFile
      (.refl _)
    exact asksWithin_runStatements hev _ hfile (fun node h => h) ⟨hroom, _, _, rfl, .refl _⟩
  · exact (asksWithin_throw failure).congr hrefused.outcome_loadFile (.refl _)

theorem asksWithin_importTarget {target : Quotation} {asName : Option String} {line : Int}
    (hnode : p.node = .importing target asName line) :
    AsksWithin (Leads p) (fun ev => importTarget ev p.config target asName) ev p.machine := by
  have hbind : ∀ {m : Machine} (name : String) (members : List (String × Value)),
      AsksWithin (Leads p) (fun _ => bindImport asName name members) ev m := fun name members =>
    asksWithin_const (keeps_bindImport _ _ fun _ _ hdrawn => hdrawn.elim)
  unfold importTarget
  refine .ite (fun hextension => ?_) fun _ => ?_
  · exact (asksWithin_loadFile hev hnode hextension).bind fun members _ _ => hbind _ members
  · cases importable? p.config (Source.unquote target.raw) with
    | none => exact asksWithin_fail _
    | some members => exact hbind _ members

theorem asksWithin_evaluateProperties {properties : List (String × Node)}
    (hproperties : ∀ property ∈ properties, p.node.HasPart property.2)
    (hm : FramesKept p.machine.frames m.frames) :
    AsksWithin (Leads p) (fun ev => evaluateProperties ev p.config properties) ev m := by
  induction properties generalizing m with
  | nil => exact asksWithin_pure _
  | cons property rest ih =>
    have hnode : Leads p ⟨p.config, property.2, m⟩ :=
      .inner (hproperties property List.mem_cons_self) hm
    refine (asksWithin_ask hev hnode).bind fun value m₁ h₁ => ?_
    refine (asksWithin_copyValue value).bind fun copy m₂ h₂ => ?_
    have hrest := ih (fun property h => hproperties property (List.mem_cons_of_mem _ h))
      ((hm.trans h₁).trans h₂)
    exact hrest.bind fun entries _ _ => asksWithin_pure _

theorem asksWithin_evaluateBinding (name : String) {node : Node} (hnode : p.node.HasPart node)
    (hm : FramesKept p.machine.frames m.frames) :
    AsksWithin (Leads p) (fun ev => evaluateBinding ev p.config name node) ev m := by
  have hbind : ∀ {m : Machine} (value : Value),
      AsksWithin (Leads p) (fun _ => copyValue value >>= define name) ev m := fun value =>
    (asksWithin_copyValue value).bind fun copy _ _ => asksWithin_define name copy
  refine .ite (fun _ => asksWithin_fail _) fun _ => ?_
  cases node with
  | identifier source line =>
    refine asksWithin_env.bind fun e _ _ => AsksWithin.bind (asksWithin_const (P := fun _ _ => True) ?_)
      fun value _ _ => hbind value
    exact keeps_ofCause fun _ _ => trivial
  | _ => exact (asksWithin_ask hev (.inner hnode hm)).bind fun value _ _ => hbind value

/-- A node asks only for the points that it leads to. -/
theorem asksWithin_evaluateNode :
    AsksWithin (Leads p) (fun ev => evaluateNode ev p.config p.node) ev p.machine := by
  obtain ⟨config, node, m⟩ := p
  have hm : FramesKept m.frames m.frames := .refl _
  have hpart : ∀ {child : Node}, child ∈ node.children → node.HasPart child := .inl
  -- Nodes inside this one are asked for on machines that earlier steps have changed. Only their
  -- frames matter to `Leads`, and these are kept: by `hm`, and by what is known behind each step.
  cases node with
  | literal value line => exact asksWithin_pure _
  | text quotation => exact asksWithin_pure _
  | identifier name line => exact asksWithin_env.bind fun e _ _ => asksWithin_pure _
  | record properties line =>
    refine (asksWithin_evaluateProperties (p := ⟨config, .record properties line, m⟩) hev
      (fun property h => hpart (List.mem_map_of_mem h)) hm).bind fun entries _ _ => ?_
    exact asksWithin_const (keeps_alloc fun _ _ hdrawn => hdrawn.elim)
  | binary op left right line =>
    refine (asksWithin_ask hev (.inner (hpart (by simp [Node.children])) hm)).bind fun l m₁ h₁ => ?_
    refine (asksWithin_ask hev (.inner (hpart (by simp [Node.children])) h₁)).bind fun r m₂ _ => ?_
    refine (asksWithin_const keeps_heap).bind fun h _ _ => ?_
    exact asksWithin_const (P := fun _ _ => True) (keeps_ofExcept fun _ _ => trivial)
  | isPresent value line =>
    refine (asksWithin_ask hev (.inner (hpart (by simp [Node.children])) hm)).bind fun v _ _ => ?_
    exact asksWithin_pure _
  | call name args line =>
    exact asksWithin_callNamed (p := ⟨config, .call name args line, m⟩) hev name trivial
      (fun arg harg => hpart harg) hm
  | property object name line =>
    refine (asksWithin_memberOf (p := ⟨config, .property object name line, m⟩) hev name
      (hpart (by simp [Node.children])) hm).bind fun member _ _ => asksWithin_pure _
  | methodCall object name args line =>
    exact asksWithin_callMember (p := ⟨config, .methodCall object name args line, m⟩) hev name line
      trivial (by simp [Node.children]) (fun arg harg => hpart (List.mem_cons_of_mem _ harg)) hm
  | binding name value line =>
    refine (asksWithin_evaluateBinding (p := ⟨config, .binding name value line, m⟩) hev name
      (hpart (by simp [Node.children])) hm).bind fun _ _ _ => asksWithin_pure _
  | importing target asName line =>
    refine (asksWithin_importTarget (p := ⟨config, .importing target asName line, m⟩) hev
      rfl).bind fun _ _ _ => asksWithin_pure _
  | definition name params body line =>
    exact (asksWithin_define name _).bind fun _ _ _ => asksWithin_pure _
  | conditional condition body line =>
    refine (asksWithin_ask hev (.inner (hpart (by simp [Node.children])) hm)).bind fun v m₁ h₁ => ?_
    cases v with
    | bool b =>
      cases b with
      | true =>
        refine (asksWithin_runBlock (p := ⟨config, .conditional condition body line, m⟩) hev
          (fun node hnode => hpart (List.mem_cons_of_mem _ hnode)) h₁).bind fun _ _ _ => ?_
        exact asksWithin_pure _
      | false => exact asksWithin_pure _
    | _ => exact asksWithin_fail _
  | returning value line =>
    cases value with
    | none => exact asksWithin_const (P := fun _ _ => True) (keeps_throw fun hdrawn => hdrawn.elim)
    | some value =>
      refine (asksWithin_ask hev (.inner (hpart (by simp [Node.children])) hm)).bind fun v _ _ => ?_
      exact asksWithin_const (P := fun _ _ => True) (keeps_throw fun hdrawn => hdrawn.elim)
  | unknown => exact asksWithin_fail _

end Constructs

/-- Where evaluating a node asks, the node leads to. -/
theorem Asks.leads {q : Point} (hev : KeepsFrames ev)
    (h : Asks (fun ev => evaluateNode ev p.config p.node) ev p.machine q) : Leads p q :=
  (asksWithin_evaluateNode hev).asks q h

end

/-- A run asks for its statements, on the frames that are there. -/
theorem Asks.of_runTopLevel {failure : Option Failure} {line : Int} {nodes : List Node}
    (hev : KeepsFrames ev) (h : Asks (fun ev => runTopLevel ev config failure line nodes) ev m p) :
    p.config = config ∧ p.node ∈ nodes ∧ FramesKept m.frames p.machine.frames := by
  induction nodes generalizing m line with
  | nil => exact absurd h (not_asks_of_outcome fun _ => rfl)
  | cons statement rest ih =>
    rcases h.runTopLevel_cases with rfl | ⟨v, m', hanswer, hlater⟩
    · exact ⟨rfl, List.mem_cons_self, .refl _⟩
    · have hkept := hev ⟨config, statement, m⟩
      rw [hanswer] at hkept
      obtain ⟨hconfig, hmem, hframes⟩ := ih hlater
      exact ⟨hconfig, List.mem_cons_of_mem _ hmem, hkept.trans hframes⟩

theorem keepsFrames_evaluate [Host.Limits] (levels : Nat) : KeepsFrames
    (evaluate levels) := fun p =>
  framesKept_of_keeps (complies_evaluate .absent levels p.config p.node p.machine
    fun hdrawn => hdrawn.elim)

end ModuLang
