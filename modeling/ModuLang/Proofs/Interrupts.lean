import ModuLang.Proofs.FrameDiscipline
import ModuLang.Proofs.StatementBindings

/-!
# Where interrupts come from

A step is interrupted by a step inside it, or it raises the interrupt itself. The constructs of the
language raise few themselves: an operator and a native function fail on their values, a receiver that
is no object cannot be shown, an import fails to find its file or to read it to the end, and a
`return` returns. Everything else is an error that the program made, or it comes from the nodes
inside.

`Raises` says that all interrupts of a step are among some that are given. The pass over the
constructs below is about any such set that has all errors without a line in it, since a construct
makes no others; what a node raises itself is listed by `RaisesItself`. The body of a function is
allowed to return, because the call catches that.
-/

namespace ModuLang

open Eval Host

variable {α β : Type} {ev : Evaluator} {config : Config} {m m' : Machine} {I J : Interrupt → Prop}

/-- Whether every interrupt that a step ends with on a machine is among the given ones. -/
def Raises (I : Interrupt → Prop) (m : Machine) (x : Eval α) : Prop :=
  ∀ i m', x.outcome m = (.error i, m') → I i

/-! ### Rules -/

section Rules

variable {x y : Eval α}

theorem raises_of_ok {a : α} (h : x.outcome m = (.ok a, m')) : Raises I m x := by
  intro i m'' herror
  rw [h] at herror
  cases herror

theorem raises_throw {i : Interrupt} (hi : I i) : Raises I m (throw i : Eval α) := by
  intro j m' h
  cases h
  exact hi

theorem raises_env : Raises I m Eval.env :=
  raises_of_ok rfl

theorem raises_world : Raises I m Eval.world :=
  raises_of_ok rfl

theorem raises_modifyGet (f : Machine → α × Machine) : Raises I m (modifyGet f : Eval α) :=
  raises_of_ok rfl

theorem raises_clone (e : Environment) : Raises I m (Eval.clone e) :=
  raises_modifyGet _

theorem raises_copyValue (v : Value) : Raises I m (copyValue v) :=
  raises_modifyGet _

theorem raises_alloc (o : Object) : Raises I m (alloc o) :=
  raises_modifyGet _

theorem Raises.mono (h : Raises I m x) (hIJ : ∀ i, I i → J i) : Raises J m x :=
  fun i m' hout => hIJ i (h i m' hout)

theorem Raises.congr (hx : Raises I m' x) (h : y.outcome m = x.outcome m') : Raises I m y := by
  intro i m'' hout
  rw [h] at hout
  exact hx i m'' hout

theorem Raises.bind {k : α → Eval β} (hx : Raises I m x)
    (hk : ∀ a m', x.outcome m = (.ok a, m') → Raises I m' (k a)) : Raises I m (x >>= k) := by
  intro i m' h
  rw [outcome_bind] at h
  revert h
  cases hout : x.outcome m with
  | mk r m₁ =>
    intro h
    cases r with
    | error j =>
      cases h
      exact hx i m' hout
    | ok a => exact hk a m₁ hout i m' h

theorem Raises.tryCatch {handler : Interrupt → Eval α} (hx : Raises J m x)
    (hhandler : ∀ i m', J i → Raises I m' (handler i)) :
    Raises I m (MonadExcept.tryCatch x handler) := by
  intro i m' h
  rw [outcome_tryCatch] at h
  revert h
  cases hout : x.outcome m with
  | mk r m₁ =>
    intro h
    cases r with
    | ok a => cases h
    | error j => exact hhandler j m₁ (hx j m₁ hout) i m' h

theorem Raises.inside {e : Environment} (hx : Raises I { m with env := e } x) :
    Raises I m (Eval.inside e x) := by
  intro i m' h
  have hfirst : (x.outcome { m with env := e }).1 = .error i := congrArg Prod.fst h
  exact hx i _ (Prod.ext hfirst rfl)

end Rules

/-! ### Steps that fail only with errors of the program -/

section Faults

variable (hI : ∀ cause, I (.failed (.fault ⟨cause, 0⟩))) {x : Eval α}

include hI

theorem raises_fail (cause : Cause) : Raises I m (fail cause : Eval α) :=
  raises_throw (hI _)

/-- A step that only computes fails with an error of the program, or the machine gives up on it. -/
theorem raises_ofCause {r : Except Cause α}
    (hcrash : ∀ c, r = .error (.givenUp c) → I (.failed (.crash c))) : Raises I m (ofCause r) := by
  cases r with
  | ok a => exact raises_of_ok rfl
  | error cause =>
    refine raises_throw ?_
    rcases cause.failure_cases with ⟨c, rfl⟩ | hfault
    · exact hcrash c rfl
    · rw [hfault]
      exact hI cause

theorem raises_display {v : Value}
    (hcrash : ∀ c, m.heap.display v = .error (.givenUp c) → I (.failed (.crash c))) :
    Raises I m (display v) :=
  Raises.bind (x := heap) (raises_of_ok rfl) fun h m₁ hheap => by
    cases hheap
    exact raises_ofCause hI hcrash

theorem raises_checkArity (name : String) (params : List String) (count : Nat) :
    Raises I m (checkArity name params count) := by
  unfold checkArity
  split
  · exact raises_of_ok rfl
  · exact raises_fail hI _

theorem raises_countStatement (statement : Node) : Raises I m (countStatement config statement) := by
  unfold countStatement
  refine (raises_of_ok rfl).bind fun m₁ m₂ _ => ?_
  split
  · exact raises_of_ok rfl
  · split
    · refine (raises_of_ok rfl).bind fun _ m₃ _ => ?_
      split
      · exact raises_fail hI _
      · exact raises_of_ok rfl
    · exact raises_of_ok rfl

theorem Raises.blameFile (hx : Raises I m x) (path : Path) :
    Raises I m (ModuLang.blameFile path x) := by
  refine hx.tryCatch fun i m' hi => ?_
  split
  · split
    · exact raises_throw hi
    · exact raises_fail hI _
  · exact raises_throw hi

theorem Raises.inFrame {name : String} {counted : Bool}
    (hx : ¬config.maxCallDepth ≤ m.frames.length →
      Raises I { m with frames := ⟨name, counted, 0⟩ :: m.frames } x) :
    Raises I m (Eval.inFrame config name counted x) := by
  by_cases hfull : config.maxCallDepth ≤ m.frames.length
  · exact (raises_fail hI .recursionTooDeep : Raises I m (fail .recursionTooDeep : Eval α)).congr
      (outcome_inFrame_of_full hfull)
  · intro i m' h
    rw [outcome_inFrame_of_room hfull] at h
    have hfirst : (x.outcome { m with frames := ⟨name, counted, 0⟩ :: m.frames }).1 = .error i :=
      congrArg Prod.fst h
    exact hx hfull i _ (Prod.ext hfirst rfl)

end Faults

/-- An error that gets a line may be any error. -/
theorem Raises.atLine {x : Eval α} (hI : ∀ f, I (.failed (.fault f))) (hx : Raises I m x)
    (line : Int) : Raises I m (Eval.atLine line x) := by
  refine hx.tryCatch fun i m' hi => ?_
  split
  · exact raises_throw (hI _)
  · exact raises_throw hi

/-- The given interrupts, and all returns. -/
def orReturned (I : Interrupt → Prop) (i : Interrupt) : Prop :=
  I i ∨ ∃ v, i = .returned v

theorem Raises.catchReturn {x : Eval α} (hx : Raises (orReturned I) m x) :
    Raises I m (Eval.catchReturn x) := by
  refine (hx.bind fun _ _ _ => raises_of_ok rfl).tryCatch fun i m' hi => ?_
  split
  · exact raises_of_ok rfl
  · next hother =>
    rcases hi with hi | ⟨v, rfl⟩
    · exact raises_throw hi
    · exact absurd rfl (hother v)

/-! ### What a node raises itself -/

/-- The node whose value is asked for a property. -/
def Node.receiver? : Node → Option Node
  | .property object _ _ | .methodCall object _ _ _ => some object
  | _ => none

/-- The interrupts that a node raises itself, by means of an evaluator for the nodes inside it. -/
inductive RaisesItself [Host.Limits] (ev : Evaluator) (config : Config) (m : Machine) :
    Node → Interrupt → Prop where
  | operator {op : BinaryOperator} {left right : Node} {line : Int} {l r : Value} {m₁ m₂ : Machine}
      {failure : Failure} :
      (ev config left).outcome m = (.ok l, m₁) → (ev config right).outcome m₁ = (.ok r, m₂) →
      op.apply m₂.heap l r = .error failure →
      RaisesItself ev config m (.binary op left right line) (.failed failure)
  | native {node : Node} {f : Native} {vs : List Value} {m' m'' : Machine} {i : Interrupt} :
      Applies ev config m node f vs m' → (f.apply vs).outcome m' = (.error i, m'') →
      RaisesItself ev config m node i
  | receiver {node object : Node} {v : Value} {m' m'' : Machine} {c : Crash} :
      node.receiver? = some object → (receiverOf ev config object).outcome m = (.ok v, m') →
      (addressOf v).outcome m' = (.error (.failed (.crash c)), m'') →
      RaisesItself ev config m node (.failed (.crash c))
  | target {target : Quotation} {asName : Option String} {line : Int} {failure : Failure} :
      (Source.unquote target.raw).endsWith sourceExtension = true →
      RefusesTarget config m.world (Source.unquote target.raw) failure →
      RaisesItself ev config m (.importing target asName line) (.failed failure)
  | text {target : Quotation} {asName : Option String} {line : Int} {path : Path} {text : String}
      {m' : Machine} {failure : Failure} :
      (Source.unquote target.raw).endsWith sourceExtension = true →
      NamesFile config m.world (Source.unquote target.raw) path text →
      ¬config.maxCallDepth ≤ m.frames.length →
      (runStatements ev (config.withScript path) none (Source.parse text).statements).outcome
        (moduleStart m path) = (.ok (), m') →
      (Source.parse text).failure = some failure →
      RaisesItself ev config m (.importing target asName line) (.failed failure)
  | returning {value : Option Node} {line : Int} {v : Value} :
      RaisesItself ev config m (.returning value line) (.returned v)

/-! ### The constructs of the language -/

section Constructs

variable (hI : ∀ cause, I (.failed (.fault ⟨cause, 0⟩)))

theorem raises_evaluateAll {nodes : List Node}
    (hnodes : ∀ node ∈ nodes, ∀ m, Raises I m (ev config node)) :
    Raises I m (evaluateAll ev config nodes) := by
  induction nodes generalizing m with
  | nil => exact raises_of_ok rfl
  | cons node rest ih =>
    refine (hnodes node List.mem_cons_self m).bind fun value m₁ _ => ?_
    exact (ih fun node hnode => hnodes node (List.mem_cons_of_mem _ hnode)).bind fun _ _ _ =>
      raises_of_ok rfl

theorem raises_evaluateProperties {properties : List (String × Node)}
    (hproperties : ∀ property ∈ properties, ∀ m, Raises I m (ev config property.2)) :
    Raises I m (evaluateProperties ev config properties) := by
  induction properties generalizing m with
  | nil => exact raises_of_ok rfl
  | cons property rest ih =>
    refine (hproperties property List.mem_cons_self m).bind fun value m₁ _ => ?_
    refine (raises_copyValue value).bind fun copy m₂ _ => ?_
    exact (ih fun p hp => hproperties p (List.mem_cons_of_mem _ hp)).bind fun _ _ _ =>
      raises_of_ok rfl

/-- The statements of a text, which may end in a failure of the text to be read. -/
theorem raises_runStatements {failure : Option Failure} {nodes : List Node}
    (hnodes : ∀ node ∈ nodes, ∀ m, Raises I m (ev config node))
    (hfailure : ∀ f m', failure = some f →
      (runStatements ev config none nodes).outcome m = (.ok (), m') → I (.failed f)) :
    Raises I m (runStatements ev config failure nodes) := by
  induction nodes generalizing m with
  | nil =>
    cases failure with
    | none => exact raises_of_ok rfl
    | some f => exact raises_throw (hfailure f m rfl rfl)
  | cons statement rest ih =>
    refine (hnodes statement List.mem_cons_self m).bind fun value m₁ hvalue => ?_
    refine ih (fun node hnode => hnodes node (List.mem_cons_of_mem _ hnode)) fun f m' hf hrest => ?_
    refine hfailure f m' hf ?_
    rw [runStatements, outcome_bind, hvalue]
    exact hrest

include hI

theorem raises_runBlock {nodes : List Node}
    (hnodes : ∀ node ∈ nodes, ∀ m, Raises I m (ev config node)) :
    Raises I m (runBlock ev config nodes) := by
  induction nodes generalizing m with
  | nil => exact raises_of_ok rfl
  | cons statement rest ih =>
    refine (raises_countStatement hI statement).bind fun _ m₁ _ => ?_
    refine (hnodes statement List.mem_cons_self m₁).bind fun _ m₂ _ => ?_
    exact ih fun node hnode => hnodes node (List.mem_cons_of_mem _ hnode)

/-- A body may return, which ends it or is passed over. -/
theorem raises_runBody {passesOver : Bool} {nodes : List Node}
    (hbody : ∀ node m, Raises (orReturned I) m (ev config node)) :
    Raises I m (runBody ev config passesOver nodes) := by
  induction nodes generalizing m with
  | nil => exact raises_of_ok rfl
  | cons statement rest ih =>
    refine (raises_countStatement hI statement).bind fun _ m₁ _ => ?_
    refine (hbody statement m₁).catchReturn.bind fun result m₂ _ => ?_
    cases result with
    | ok _ => exact ih
    | error value =>
      cases passesOver with
      | true => exact ih
      | false => exact raises_of_ok rfl

theorem raises_callFunction (passesOver : Bool) (name : String) (params : List String)
    {body args : List Node} (hargs : ∀ arg ∈ args, ∀ m, Raises I m (ev config arg))
    (hbody : ∀ node m, Raises (orReturned I) m (ev config node)) :
    Raises I m (callFunction ev config passesOver name params body args) := by
  refine (raises_checkArity hI _ _ _).bind fun _ m₁ _ => ?_
  refine raises_env.bind fun e m₂ _ => (raises_clone e).bind fun callEnv m₃ _ => ?_
  refine (raises_clone callEnv).bind fun argEnv m₄ _ => ?_
  refine (raises_evaluateAll hargs).inside.bind fun values m₅ _ => ?_
  have hbind : Raises I m₅ (bindArguments callEnv params values) := by
    unfold bindArguments
    split
    · exact (raises_alloc _).bind fun _ _ _ => raises_of_ok rfl
    · exact raises_of_ok rfl
  exact hbind.bind fun bodyEnv m₆ _ => (Raises.inFrame hI fun _ => raises_runBody hI hbody).inside

theorem raises_nativeArguments (f : Native) {args : List Node}
    (hargs : ∀ arg ∈ args, ∀ m, Raises I m (ev config arg)) :
    Raises I m (nativeArguments ev config f args) := by
  refine (raises_checkArity hI _ _ _).bind fun _ m₁ _ => ?_
  split
  · exact raises_fail hI _
  · exact raises_evaluateAll hargs

/-- A native function that is called raises what its arguments do, and what it raises when it is
applied. -/
theorem raises_callNative [Host.Limits] (f : Native) {args : List Node}
    (hargs : ∀ arg ∈ args, ∀ m, Raises I m (ev config arg))
    (happly : ∀ vs m', (nativeArguments ev config f args).outcome m = (.ok vs, m') →
      Raises I m' (f.apply vs)) :
    Raises I m (callNative ev config f args) :=
  Raises.congr ((raises_nativeArguments hI f hargs).bind happly) (outcome_callNative ev config f args m)

/-- What a value is asked for its address for may be an error of the program, or the value cannot be
shown in it. -/
theorem raises_addressOf {v : Value}
    (hcrash : ∀ c m', (addressOf v).outcome m = (.error (.failed (.crash c)), m') →
      I (.failed (.crash c))) : Raises I m (addressOf v) := by
  cases v with
  | object a => exact raises_of_ok rfl
  | _ =>
    refine (raises_display hI fun c hc => hcrash c m ?_).bind fun _ _ _ => raises_fail hI _
    rw [outcome_addressOf (by simp), hc]
    rfl

theorem raises_receiverOf {node : Node} (hnode : ∀ m, Raises I m (ev config node)) :
    Raises I m (receiverOf ev config node) := by
  unfold receiverOf
  split
  · refine raises_env.bind fun e m₁ _ => ?_
    split
    · exact raises_of_ok rfl
    · exact raises_fail hI _
  · exact hnode m

section

variable [Host.Limits]

theorem raises_memberOf {node object : Node} (name : String) (hobject : node.receiver? = some object)
    (hnode : ∀ m, Raises I m (ev config object))
    (hown : ∀ i, RaisesItself ev config m node i → I i) :
    Raises I m (memberOf ev config object name) := by
  have hresolves : Raises I m (resolveObject ev config object) := by
    rw [resolveObject_eq]
    refine (raises_receiverOf hI hnode).bind fun v m₁ hv => raises_addressOf hI fun c m₂ hcrash => ?_
    exact hown _ (.receiver hobject hv hcrash)
  refine hresolves.bind fun a m₁ _ => (raises_of_ok rfl).bind fun o m₂ _ => ?_
  split
  · exact raises_of_ok rfl
  · exact raises_fail hI _

/-- An import of a file raises what the statements of the file do, and what it raises itself: where
there is no such file, or where its text cannot be read to the end. -/
theorem raises_loadFile {target : String}
    (hfile : ∀ path text, ∀ s ∈ (Source.parse text).statements, ∀ m,
      Raises I m (ev (config.withScript path) s))
    (htarget : ∀ failure, RefusesTarget config m.world target failure → I (.failed failure))
    (htext : ∀ path text m' failure, NamesFile config m.world target path text →
      ¬config.maxCallDepth ≤ m.frames.length →
      (runStatements ev (config.withScript path) none (Source.parse text).statements).outcome
        (moduleStart m path) = (.ok (), m') →
      (Source.parse text).failure = some failure → I (.failed failure)) :
    Raises I m (loadFile ev config target) := by
  rcases namesFile_or_refused config m.world target with ⟨path, text, hnames⟩ | ⟨failure, hrefused⟩
  · refine Raises.congr (Raises.inside ?_) (hnames.outcome_loadFile ev)
    refine Raises.bind (Raises.blameFile hI (Raises.inFrame hI fun hroom => ?_) path)
      fun _ m₁ _ => raises_of_ok rfl
    exact raises_runStatements (hfile path text) fun f m' hf hrun =>
      htext path text m' f hnames hroom hrun hf
  · exact (raises_throw (htarget failure hrefused) : Raises I m (throw _ : Eval _)).congr
      (hrefused.outcome_loadFile ev)

theorem raises_callNamed (name : String) {args : List Node} {line : Int}
    (hargs : ∀ arg ∈ args, ∀ m, Raises I m (ev config arg))
    (hbody : ∀ node m, Raises (orReturned I) m (ev config node))
    (hown : ∀ i, RaisesItself ev config m (.call name args line) i → I i) :
    Raises I m (callNamed ev config name args) := by
  unfold callNamed
  refine Raises.bind (x := env) raises_env fun e m₁ he => ?_
  cases he
  split
  · exact raises_fail hI _
  · exact raises_callFunction hI _ _ _ hargs hbody
  · next f hname =>
    refine raises_callNative hI f hargs fun vs m' hvs i m'' happly => ?_
    exact hown i (.native (.named hname hvs) happly)
  · exact raises_fail hI _

theorem raises_callMember {node : Node} (name : String) {args : List Node} (line : Int)
    (hnode : ∀ m, Raises I m (ev config node))
    (hargs : ∀ arg ∈ args, ∀ m, Raises I m (ev config arg))
    (hliteral : ∀ v line m, Raises I m (ev config (.literal v line)))
    (hbody : ∀ node m, Raises (orReturned I) m (ev config node))
    (hown : ∀ i, RaisesItself ev config m (.methodCall node name args line) i → I i) :
    Raises I m (callMember ev config node name args line) := by
  refine (raises_memberOf hI name rfl hnode hown).bind fun member m₁ hmember => ?_
  obtain ⟨a, member⟩ := member
  simp only
  split
  · next f =>
    refine Raises.bind (x := Eval.object a) (raises_of_ok rfl) fun o m₂ ho => ?_
    cases ho
    refine raises_callNative hI f (fun arg harg => ?_) fun vs m' hvs i m'' happly => ?_
    · -- A method gets its object as a literal in front of its arguments.
      split at harg
      · rcases List.mem_cons.mp harg with rfl | harg
        · exact hliteral _ _
        · exact hargs arg harg
      · exact hargs arg harg
    · exact hown i (.native (.property hmember hvs) happly)
  · exact raises_callFunction hI _ _ _ hargs hbody
  · exact raises_fail hI _

end

/-- A name that is not bound is an error of the program. -/
theorem raises_require {e : Environment} (what name : String) :
    Raises I m (ofCause (e.require what name)) := by
  unfold Environment.require
  split
  · exact raises_of_ok rfl
  · exact raises_fail hI _

theorem raises_evaluateBinding (name : String) {node : Node}
    (hnode : ∀ m, Raises I m (ev config node)) :
    Raises I m (evaluateBinding ev config name node) := by
  rw [evaluateBinding_eq]
  split
  · exact raises_fail hI _
  · refine Raises.bind ?_ fun v m₁ _ => raises_of_ok rfl
    unfold boundValue
    split
    · refine raises_env.bind fun e m₁ _ => (raises_require hI _ _).bind fun v m₂ _ => ?_
      exact raises_copyValue v
    · exact (hnode m).bind fun v m₁ _ => raises_copyValue v

variable [Host.Limits]

theorem raises_importTarget {target : Quotation} {asName : Option String} {line : Int}
    (hfile : ∀ path text, ∀ s ∈ (Source.parse text).statements, ∀ m,
      Raises I m (ev (config.withScript path) s))
    (hown : ∀ i, RaisesItself ev config m (.importing target asName line) i → I i) :
    Raises I m (importTarget ev config target asName) := by
  rw [importTarget_eq]
  refine Raises.bind ?_ fun members m₁ _ => raises_of_ok (outcome_bindImport _ _ _)
  unfold importedMembers
  split
  · next hextension =>
    exact raises_loadFile hI hfile (fun failure hrefused => hown _ (.target hextension hrefused))
      fun path text m' failure hnames hroom hrun hfailure =>
        hown _ (.text hextension hnames hroom hrun hfailure)
  · -- A package is bound, or it is not there, which is an error without a line.
    split
    · exact raises_fail hI _
    · exact raises_of_ok rfl

/-- A node raises what the nodes inside it do, and what it raises itself. -/
theorem raises_evaluateNode {node : Node}
    (hchildren : ∀ c ∈ node.children, ∀ m, Raises I m (ev config c))
    (hliteral : ∀ v line m, Raises I m (ev config (.literal v line)))
    (hbody : ∀ node m, Raises (orReturned I) m (ev config node))
    (hfile : ∀ path text, ∀ s ∈ (Source.parse text).statements, ∀ m,
      Raises I m (ev (config.withScript path) s))
    (hown : ∀ i, RaisesItself ev config m node i → I i) :
    Raises I m (evaluateNode ev config node) := by
  cases node with
  | literal | text => exact raises_of_ok rfl
  | identifier name line => exact raises_env.bind fun _ _ _ => raises_of_ok rfl
  | definition name params body line => exact raises_of_ok rfl
  | unknown => exact raises_fail hI _
  | record properties line =>
    refine (raises_evaluateProperties fun p hp => ?_).bind fun _ m₁ _ => raises_alloc _
    exact hchildren p.2 (List.mem_map_of_mem hp)
  | binary op left right line =>
    refine (hchildren left (by simp [Node.children]) m).bind fun l m₁ hl => ?_
    refine (hchildren right (by simp [Node.children]) m₁).bind fun r m₂ hr => ?_
    refine Raises.bind (x := heap) (raises_of_ok rfl) fun h m₃ hheap => ?_
    cases hheap
    cases happly : op.apply m₂.heap l r with
    | ok v => exact raises_of_ok rfl
    | error failure => exact raises_throw (hown _ (.operator hl hr happly))
  | isPresent value line =>
    exact (hchildren value (by simp [Node.children]) m).bind fun _ _ _ => raises_of_ok rfl
  | call name args line => exact raises_callNamed hI name hchildren hbody hown
  | property object name line =>
    exact (raises_memberOf hI name rfl (hchildren object (by simp [Node.children])) hown).bind
      fun _ _ _ => raises_of_ok rfl
  | methodCall object name args line =>
    have hargs : ∀ arg ∈ args, ∀ m, Raises I m (ev config arg) := fun arg harg =>
      hchildren arg (List.mem_cons_of_mem _ harg)
    exact raises_callMember hI name line (hchildren object (by simp [Node.children])) hargs hliteral
      hbody hown
  | binding name value line =>
    exact (raises_evaluateBinding hI name (hchildren value (by simp [Node.children]))).bind
      fun _ _ _ => raises_of_ok rfl
  | importing target asName line =>
    exact (raises_importTarget hI hfile hown).bind fun _ _ _ => raises_of_ok rfl
  | conditional condition body line =>
    refine (hchildren condition (by simp [Node.children]) m).bind fun value m₁ _ => ?_
    split
    · refine (raises_runBlock hI fun s hs => ?_).bind fun _ _ _ => raises_of_ok rfl
      exact hchildren s (List.mem_cons_of_mem _ hs)
    · exact raises_of_ok rfl
    · exact raises_fail hI _
  | returning value line =>
    cases value with
    | none => exact raises_throw (hown _ .returning)
    | some value =>
      refine (hchildren value (by simp [Node.children]) m).bind fun v m₁ _ => ?_
      exact raises_throw (hown _ .returning)

end Constructs

end ModuLang
