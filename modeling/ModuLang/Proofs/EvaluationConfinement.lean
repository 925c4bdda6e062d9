import ModuLang.Interpreter
import ModuLang.Proofs.NativeConfinement

/-!
# Evaluation keeps every boundary

A node is evaluated by means of an evaluator for the nodes inside it. If that evaluator keeps a
boundary, then so does every construct of the language, and by induction on the levels the whole
evaluation does. Each construct is taken with two evaluators that agree where the boundary is kept.
-/

namespace ModuLang

open Eval Library

variable {R : Boundary} {E : EnvRule} {m : Machine} {ev ev' : Evaluator} {config : Config}

/-- Two evaluators agree on the nodes that fit, and keep the boundary there. -/
def Complies (R : Boundary) (ev ev' : Evaluator) : Prop :=
  ∀ config node m, Fit R m.heap.size node →
    Keeps R (knownEnv R) m (ev config node) (ev' config node) (Known R)

/-! ### Nodes and environments -/

theorem fit_of_plain {node : Node} {n : Nat} (h : R.drawn → node.Plain) : Fit R n node :=
  fun hdrawn => .inl (h hdrawn)

/-- A node that fits and is no literal is plain. -/
theorem Fit.plain {node : Node} {n : Nat} (h : Fit R n node)
    (hne : ∀ v line, node ≠ .literal v line) (hdrawn : R.drawn) : node.Plain := by
  rcases h hdrawn with h | ⟨v, line, heq, -⟩
  · exact h
  · exact absurd heq (hne v line)

/-- The nodes inside a node that fits and is no literal fit. -/
theorem Fit.child {node child : Node} {n n' : Nat} (h : Fit R n node)
    (hne : ∀ v line, node ≠ .literal v line) (hchild : child ∈ node.children) : Fit R n' child :=
  fit_of_plain fun hdrawn => (h.plain hne hdrawn).children hchild

theorem knownEnv_get? {e : Environment} {n : Nat} {name : String} {v : Value}
    (he : (knownEnv R).holds n e) (h : e.get? name = some v) : Known R n v :=
  Environment.All.get? he h

theorem knownEnv_lookup {e : Environment} {n : Nat} (he : (knownEnv R).holds n e) (name : String) :
    Known R n (e.lookup name) :=
  Environment.All.lookup (known_of_isPrimitive trivial) he name

theorem knownEnv_define {e : Environment} {n : Nat} {name : String} {v : Value}
    (he : (knownEnv R).holds n e) (hv : Known R n v) : (knownEnv R).holds n (e.define name v) :=
  Environment.All.define he hv

theorem knownEnv_update {e : Environment} {n : Nat} {bindings : List (String × Value)}
    (he : (knownEnv R).holds n e) (hbindings : ∀ b ∈ bindings, Known R n b.2) :
    (knownEnv R).holds n (e.update bindings) :=
  Environment.All.update he hbindings

theorem knownEnv_boundSinceCreation {e : Environment} {n : Nat} (he : (knownEnv R).holds n e) :
    ∀ b ∈ e.boundSinceCreation, Known R n b.2 :=
  Environment.All.boundSinceCreation he

theorem keeps_define {name : String} {v : Value} (hv : Known R m.heap.size v) :
    Keeps R (knownEnv R) m (define name v) (define name v) fun _ _ => True :=
  keeps_modifyEnv (f := fun e => e.define name v) fun _ he => knownEnv_define he hv

theorem knownEnv_bindParameters {e : Environment} {n : Nat} (names : List String)
    {values : List Value} (he : (knownEnv R).holds n e) (hvalues : ∀ v ∈ values, Known R n v) :
    (knownEnv R).holds n (bindParameters e names values) :=
  Environment.All.bindParameters (known_of_isPrimitive trivial) names he hvalues

/-! ### Sequences of nodes -/

theorem keeps_evaluateAll (hev : Complies R ev ev') {nodes : List Node}
    (hnodes : ∀ node ∈ nodes, Fit R m.heap.size node) :
    Keeps R (knownEnv R) m (evaluateAll ev config nodes) (evaluateAll ev' config nodes)
      fun n vs => ∀ v ∈ vs, Known R n v := by
  induction nodes generalizing m with
  | nil => exact keeps_pure fun v hv => absurd hv List.not_mem_nil
  | cons node rest ih =>
    refine (hev config node m (hnodes node List.mem_cons_self)).bind fun value m₁ h₁ hvalue => ?_
    have hrest : ∀ node ∈ rest, Fit R m₁.heap.size node := fun node hnode =>
      (hnodes node (List.mem_cons_of_mem _ hnode)).mono h₁.size
    refine (ih hrest).bind fun values m₂ h₂ hvalues => keeps_pure fun v hv => ?_
    rcases List.mem_cons.mp hv with rfl | hv
    · exact hvalue.mono h₂.size
    · exact hvalues v hv

theorem keeps_runBlock (hev : Complies R ev ev') {nodes : List Node}
    (hnodes : R.drawn → ∀ node ∈ nodes, node.Plain) :
    Keeps R (knownEnv R) m (runBlock ev config nodes) (runBlock ev' config nodes)
      fun _ _ => True := by
  induction nodes generalizing m with
  | nil => exact keeps_pure trivial
  | cons statement rest ih =>
    refine (keeps_countStatement config statement).bind fun _ m₁ _ _ => ?_
    have hstatement : Fit R m₁.heap.size statement :=
      fit_of_plain fun hdrawn => hnodes hdrawn statement List.mem_cons_self
    refine (hev config statement m₁ hstatement).bind fun _ _ _ _ => ?_
    exact ih fun hdrawn node hnode => hnodes hdrawn node (List.mem_cons_of_mem _ hnode)

theorem keeps_runBody (hev : Complies R ev ev') {passesOver : Bool} {nodes : List Node}
    (hnodes : R.drawn → ∀ node ∈ nodes, node.Plain) :
    Keeps R (knownEnv R) m (runBody ev config passesOver nodes) (runBody ev' config passesOver nodes)
      (Known R) := by
  induction nodes generalizing m with
  | nil => exact keeps_null
  | cons statement rest ih =>
    refine (keeps_countStatement config statement).bind fun _ m₁ _ _ => ?_
    have hstatement : Fit R m₁.heap.size statement :=
      fit_of_plain fun hdrawn => hnodes hdrawn statement List.mem_cons_self
    have hrest := fun {m} => ih (m := m) fun hdrawn node hnode =>
      hnodes hdrawn node (List.mem_cons_of_mem _ hnode)
    refine (keeps_catchReturn (hev config statement m₁ hstatement)).bind fun result _ _ hresult => ?_
    -- A value that is returned ends the body, unless returns are passed over.
    cases result with
    | ok _ => exact hrest
    | error value =>
      cases passesOver with
      | true => exact hrest
      | false => exact keeps_pure hresult

theorem keeps_runStatements (hev : Complies R ev ev') (failure : Option Failure) {nodes : List Node}
    (hnodes : R.drawn → ∀ node ∈ nodes, node.Plain) :
    Keeps R (knownEnv R) m (runStatements ev config failure nodes)
      (runStatements ev' config failure nodes) fun _ _ => True := by
  induction nodes generalizing m with
  | nil =>
    cases failure with
    | none => exact keeps_pure trivial
    | some failure => exact keeps_throw trivial
  | cons statement rest ih =>
    have hstatement : Fit R m.heap.size statement :=
      fit_of_plain fun hdrawn => hnodes hdrawn statement List.mem_cons_self
    refine (hev config statement m hstatement).bind fun _ _ _ _ => ?_
    exact ih fun hdrawn node hnode => hnodes hdrawn node (List.mem_cons_of_mem _ hnode)

theorem keeps_overflowAt {α : Type} {P : Nat → α → Prop} {x x' : Eval α} (line : Int)
    (hx : Keeps R E m x x' P) : Keeps R E m (overflowAt line x) (overflowAt line x') P := by
  refine hx.tryCatch fun i _ _ hi => ?_
  split
  · exact keeps_throw trivial
  · exact keeps_throw hi

theorem keeps_runTopLevel (hev : Complies R ev ev') (failure : Option Failure) {line : Int}
    {nodes : List Node} (hnodes : R.drawn → ∀ node ∈ nodes, node.Plain) :
    Keeps R (knownEnv R) m (runTopLevel ev config failure line nodes)
      (runTopLevel ev' config failure line nodes) fun _ _ => True := by
  induction nodes generalizing m line with
  | nil =>
    cases failure with
    | none => exact keeps_pure trivial
    | some failure => exact keeps_overflowAt line (keeps_throw trivial)
  | cons statement rest ih =>
    have hstatement : Fit R m.heap.size statement :=
      fit_of_plain fun hdrawn => hnodes hdrawn statement List.mem_cons_self
    refine (keeps_overflowAt _ (hev config statement m hstatement)).bind fun _ _ _ _ => ?_
    exact ih fun hdrawn node hnode => hnodes hdrawn node (List.mem_cons_of_mem _ hnode)

/-! ### Calls -/

/-- The values of the arguments of a call, which are evaluated in a clone of its environment. -/
def argumentValues (ev : Evaluator) (config : Config) (callEnv : Environment) (args : List Node) :
    Eval (List Value) := do
  let argEnv ← clone callEnv
  inside argEnv (evaluateAll ev config args)

/-- The values of the arguments of a call, and the environment that its body starts in. -/
def bindCall (ev : Evaluator) (config : Config) (params : List String) (args : List Node)
    (callEnv : Environment) : Eval (List Value × Environment) := do
  let values ← argumentValues ev config callEnv args
  let bodyEnv ← bindArguments callEnv params values
  return (values, bodyEnv)

/-- A call inside its own environment: its arguments are bound, and the body runs. -/
def callInside (ev : Evaluator) (config : Config) (passesOver : Bool) (name : String)
    (params : List String) (body args : List Node) (callEnv : Environment) : Eval Value := do
  let bound ← bindCall ev config params args callEnv
  inside bound.2 (inFrame config name true (runBody ev config passesOver body))

/-- A call of a function works on a clone of the environment. -/
theorem callFunction_eq (passesOver : Bool) (name : String) (params : List String)
    (body args : List Node) :
    callFunction ev config passesOver name params body args =
      (do
        checkArity name params args.length
        let callEnv ← clone (← env)
        callInside ev config passesOver name params body args callEnv) := by
  unfold callFunction callInside bindCall argumentValues
  simp only [bind_assoc, pure_bind]

theorem keeps_checkArity (name : String) (params : List String) (count : Nat) :
    Keeps R E m (checkArity name params count) (checkArity name params count) fun _ _ => True := by
  unfold checkArity
  split
  · exact keeps_pure trivial
  · exact keeps_fail _

theorem keeps_argumentValues (hev : Complies R ev ev') {callEnv : Environment} {args : List Node}
    (hcall : (knownEnv R).holds m.heap.size callEnv) (hargs : R.drawn → ∀ a ∈ args, a.Plain) :
    Keeps R E m (argumentValues ev config callEnv args) (argumentValues ev' config callEnv args)
      fun n vs => ∀ v ∈ vs, Known R n v := by
  refine (keeps_clone hcall).bind fun argEnv m₁ _ hargEnv => ?_
  refine keeps_inside hargEnv (keeps_evaluateAll hev fun node hnode => ?_)
  exact fit_of_plain fun hdrawn => hargs hdrawn node hnode

theorem keeps_bindArguments {callEnv : Environment} (params : List String) {values : List Value}
    (hcall : (knownEnv R).holds m.heap.size callEnv) (hvalues : ∀ v ∈ values, Known R m.heap.size v) :
    Keeps R E m (bindArguments callEnv params values) (bindArguments callEnv params values)
      (knownEnv R).holds := by
  unfold bindArguments
  -- The last parameter of a variadic function gets what is left over, in a new array.
  split
  · have hrest : ∀ v ∈ values.drop params.dropLast.length, Known R m.heap.size v := fun v hv =>
      hvalues v (List.mem_of_mem_drop hv)
    refine (keeps_alloc (objectKnown_ofElements hrest)).bind fun rest m₁ h₁ hrest => keeps_pure ?_
    exact knownEnv_define ((knownEnv R).mono h₁.size (knownEnv_bindParameters _ hcall hvalues)) hrest
  · exact keeps_pure (knownEnv_bindParameters _ hcall hvalues)

theorem keeps_bindCall (hev : Complies R ev ev') (params : List String) {args : List Node}
    {callEnv : Environment} (hcall : (knownEnv R).holds m.heap.size callEnv)
    (hargs : R.drawn → ∀ a ∈ args, a.Plain) :
    Keeps R E m (bindCall ev config params args callEnv) (bindCall ev' config params args callEnv)
      fun n bound => (∀ v ∈ bound.1, Known R n v) ∧ (knownEnv R).holds n bound.2 := by
  refine (keeps_argumentValues hev hcall hargs).bind fun values m₁ h₁ hvalues => ?_
  refine (keeps_bindArguments params ((knownEnv R).mono h₁.size hcall) hvalues).bind
    fun bodyEnv m₂ h₂ hbodyEnv => keeps_pure ⟨fun v hv => ?_, hbodyEnv⟩
  exact (hvalues v hv).mono h₂.size

/-- A call inside its own environment keeps every boundary that this environment is known behind,
whatever the environment around it. -/
theorem keeps_callInside (hev : Complies R ev ev') {passesOver : Bool} {name : String}
    (params : List String) {body args : List Node} {callEnv : Environment}
    (hcall : (knownEnv R).holds m.heap.size callEnv) (hbody : R.drawn → ∀ n ∈ body, n.Plain)
    (hargs : R.drawn → ∀ a ∈ args, a.Plain) :
    Keeps R E m (callInside ev config passesOver name params body args callEnv)
      (callInside ev' config passesOver name params body args callEnv) (Known R) := by
  refine (keeps_bindCall hev params hcall hargs).bind fun bound m₁ _ hbound => ?_
  exact keeps_inside hbound.2 (keeps_inFrame (keeps_runBody hev hbody))

theorem keeps_callFunction (hev : Complies R ev ev') {passesOver : Bool} {name : String}
    (params : List String) {body args : List Node} (hbody : R.drawn → ∀ n ∈ body, n.Plain)
    (hargs : R.drawn → ∀ a ∈ args, a.Plain) :
    Keeps R (knownEnv R) m (callFunction ev config passesOver name params body args)
      (callFunction ev' config passesOver name params body args) (Known R) := by
  rw [callFunction_eq, callFunction_eq]
  refine (keeps_checkArity _ _ _).bind fun _ m₁ _ _ => keeps_env.bind fun e m₂ _ he => ?_
  refine (keeps_clone he).bind fun callEnv m₃ _ hcall => ?_
  exact keeps_callInside hev params hcall hbody hargs

theorem keeps_callNative [Host.Limits] (hev : Complies R ev ev') (f : Native) {args : List Node}
    (hargs : ∀ a ∈ args, Fit R m.heap.size a) :
    Keeps R (knownEnv R) m (callNative ev config f args) (callNative ev' config f args)
      (Known R) := by
  unfold callNative
  refine (keeps_checkArity _ _ _).bind fun _ m₁ h₁ _ => ?_
  split
  · exact keeps_fail _
  · refine (keeps_evaluateAll hev fun a ha => (hargs a ha).mono h₁.size).bind
      fun values _ _ hvalues => ?_
    exact keeps_native f hvalues

theorem keeps_callNamed [Host.Limits] (hev : Complies R ev ev') (name : String) {args : List Node}
    (hargs : R.drawn → ∀ a ∈ args, a.Plain) :
    Keeps R (knownEnv R) m (callNamed ev config name args) (callNamed ev' config name args)
      (Known R) := by
  unfold callNamed
  refine keeps_env.bind fun e m₁ _ he => ?_
  split
  · exact keeps_fail _
  · next fname params body hname =>
    exact keeps_callFunction hev params (fun hdrawn => knownEnv_get? he hname hdrawn) hargs
  · exact keeps_callNative hev _ fun a ha => fit_of_plain fun hdrawn => hargs hdrawn a ha
  · exact keeps_fail _

/-- The address of a value that has to be an object. -/
def addressOf (value : Value) : Eval Address := do
  match value with
  | .object a => return a
  | value => fail (.notAnObject (← display value))

/-- The value that a property is asked of; a bare name has to be bound. -/
def receiverOf (ev : Evaluator) (config : Config) (node : Node) : Eval Value :=
  match node with
  | .identifier name _ => do
    match (← env).get? name with
    | some value => pure value
    | none => fail (.notFound "Object" name)
  | node => ev config node

theorem resolveObject_eq (ev : Evaluator) (config : Config) (node : Node) :
    resolveObject ev config node = receiverOf ev config node >>= addressOf := by
  cases node with
  | identifier name line =>
    rw [resolveObject, receiverOf, bind_assoc]
    refine bind_congr fun e => ?_
    cases e.get? name <;> rfl
  | _ => rfl

/-- A value that is no object has no address, and it is shown in the error. -/
theorem outcome_addressOf {v : Value} (hv : ∀ a, v ≠ .object a) :
    (addressOf v).outcome m =
      (ofCause (m.heap.display v) >>= fun shown => fail (.notAnObject shown)).outcome m := by
  cases v with
  | object a => exact absurd rfl (hv a)
  | _ => rfl

theorem keeps_addressOf {value : Value} (hvalue : Known R m.heap.size value) :
    Keeps R E m (addressOf value) (addressOf value) fun n a => Known R n (.object a) := by
  unfold addressOf
  split
  · exact keeps_pure hvalue
  · exact (keeps_display _).bind fun _ _ _ _ => keeps_fail _

theorem keeps_resolveObject (hev : Complies R ev ev') {node : Node}
    (hnode : Fit R m.heap.size node) :
    Keeps R (knownEnv R) m (resolveObject ev config node) (resolveObject ev' config node)
      fun n a => Known R n (.object a) := by
  unfold resolveObject
  split
  · refine keeps_env.bind fun e _ _ he => ?_
    split
    · next value hname =>
      exact (keeps_pure (knownEnv_get? he hname)).bind fun _ _ _ hvalue => keeps_addressOf hvalue
    · exact (keeps_fail (P := Known R) _).bind fun _ _ _ hvalue => keeps_addressOf hvalue
  · exact (hev config _ m hnode).bind fun _ _ _ hvalue => keeps_addressOf hvalue

theorem keeps_memberOf (hev : Complies R ev ev') {node : Node} (name : String)
    (hnode : Fit R m.heap.size node) :
    Keeps R (knownEnv R) m (memberOf ev config node name) (memberOf ev' config node name)
      fun n member => Known R n (.object member.1) ∧ Known R n member.2 := by
  refine (keeps_resolveObject hev hnode).bind fun a m₁ _ ha => ?_
  refine (keeps_object ha).bind fun o m₂ h₂ ho => ?_
  split
  · next value hvalue => exact keeps_pure ⟨ha.mono h₂.size, ho.get? hvalue⟩
  · exact keeps_fail _

theorem keeps_callMember [Host.Limits] (hev : Complies R ev ev') {node : Node} (name : String)
    {args : List Node}
    (line : Int) (hnode : Fit R m.heap.size node) (hargs : R.drawn → ∀ a ∈ args, a.Plain) :
    Keeps R (knownEnv R) m (callMember ev config node name args line)
      (callMember ev' config node name args line) (Known R) := by
  refine (keeps_memberOf hev name hnode).bind fun member m₁ _ hmember => ?_
  obtain ⟨a, member⟩ := member
  have hfit : ∀ n, ∀ arg ∈ args, Fit R n arg := fun n arg harg =>
    fit_of_plain fun hdrawn => hargs hdrawn arg harg
  simp only
  split
  · refine (keeps_object hmember.1).bind fun o m₂ h₂ _ => keeps_callNative hev _ ?_
    split
    · -- The receiver comes first, as a literal of an object that may be met.
      intro arg harg
      rcases List.mem_cons.mp harg with rfl | harg
      · exact fun _ => .inr ⟨_, line, rfl, hmember.1.mono h₂.size⟩
      · exact hfit _ arg harg
    · exact hfit _
  · next fname params body =>
    exact keeps_callFunction hev params (fun hdrawn => hmember.2 hdrawn) hargs
  · exact keeps_fail _

/-! ### Imports -/

theorem keeps_readSource (p : Host.Path) :
    Keeps R E m (readSource p) (readSource p) fun _ _ => True := by
  refine keeps_world.bind fun w _ _ _ => ?_
  split
  · exact keeps_fail _
  · split
    · exact keeps_pure trivial
    · exact keeps_fail _

theorem keeps_blameFile {α : Type} {P : Nat → α → Prop} {x x' : Eval α} (p : Host.Path)
    (hx : Keeps R E m x x' P) : Keeps R E m (blameFile p x) (blameFile p x') P := by
  refine hx.tryCatch fun i _ _ hi => ?_
  split
  · split
    · exact keeps_throw trivial
    · exact keeps_fail _
  · exact keeps_throw hi

theorem keeps_loadFile [Host.Limits] (hev : Complies R ev ev') (target : String) :
    Keeps R (knownEnv R) m (loadFile ev config target) (loadFile ev' config target)
      fun n members => ∀ member ∈ members, Known R n member.2 := by
  unfold loadFile
  split
  · exact keeps_crash _
  · refine keeps_world.bind fun w _ _ _ => ?_
    split
    · exact keeps_crash _
    · next p _ =>
      refine (keeps_readSource p).bind fun source _ _ _ => keeps_env.bind fun e _ _ he => ?_
      refine (keeps_clone he).bind fun moduleEnv _ _ hmodule => keeps_inside hmodule ?_
      refine (keeps_blameFile p (keeps_inFrame (keeps_runStatements hev _ ?_))).bind
        fun _ _ _ _ => keeps_env.bind fun e _ _ he => ?_
      -- The statements come from a text, so all their literals are primitive.
      · exact fun _ => Source.parse_plain source
      · exact keeps_pure (knownEnv_boundSinceCreation he)

theorem keeps_bindImport (asName : Option String) (name : String) {members : List (String × Value)}
    (hmembers : ∀ member ∈ members, Known R m.heap.size member.2) :
    Keeps R (knownEnv R) m (bindImport asName name members) (bindImport asName name members)
      fun _ _ => True := by
  unfold bindImport
  split
  · exact keeps_modifyEnv (f := fun e => e.update members) fun _ he => knownEnv_update he hmembers
  · exact (keeps_alloc (objectKnown_ofList hmembers)).bind fun _ _ _ hvalue => keeps_define hvalue

/-- The members of a package are native functions and floats. -/
theorem importable_cases {name : String} {members : List (String × Value)}
    (h : importable? config name = some members) :
    ∀ member ∈ members, (∃ f, member.2 = .native f) ∨ ∃ x, member.2 = .float x := by
  have hnatives : ∀ fs, ∀ member ∈ byName fs,
      (∃ f, member.2 = .native f) ∨ ∃ x, member.2 = .float x := by
    intro fs member hmember
    obtain ⟨f, -, rfl⟩ := List.mem_map.mp hmember
    exact .inl ⟨f, rfl⟩
  unfold importable? at h
  split at h
  · cases h
  · unfold packageMembers? at h
    split at h
    · cases h
      intro member hmember
      rcases List.mem_append.mp hmember with hmember | hmember
      · exact hnatives _ member hmember
      · rcases List.mem_cons.mp hmember with rfl | hmember
        · exact .inr ⟨_, rfl⟩
        · rw [List.mem_singleton.mp hmember]
          exact .inr ⟨_, rfl⟩
    all_goals first
      | (cases h; exact hnatives _)
      | cases h

theorem known_importable {n : Nat} {name : String} {members : List (String × Value)}
    (h : importable? config name = some members) : ∀ member ∈ members, Known R n member.2 := by
  intro member hmember
  rcases importable_cases h member hmember with ⟨f, hf⟩ | ⟨x, hx⟩
  · rw [hf]
    exact known_native f
  · rw [hx]
    exact known_of_isPrimitive trivial

theorem keeps_importTarget [Host.Limits] (hev : Complies R ev ev') (target : Quotation)
    (asName : Option String) :
    Keeps R (knownEnv R) m (importTarget ev config target asName)
      (importTarget ev' config target asName) fun _ _ => True := by
  unfold importTarget
  simp only
  split
  · exact (keeps_loadFile hev _).bind fun members _ _ hmembers => keeps_bindImport _ _ hmembers
  · split
    · exact keeps_fail _
    · next members hmembers => exact keeps_bindImport _ _ (known_importable hmembers)

/-! ### Nodes -/

theorem keeps_evaluateProperties (hev : Complies R ev ev') {properties : List (String × Node)}
    (hproperties : R.drawn → ∀ p ∈ properties, p.2.Plain) :
    Keeps R (knownEnv R) m (evaluateProperties ev config properties)
      (evaluateProperties ev' config properties) fun n entries =>
      ∀ entry ∈ entries, Known R n entry.2 := by
  induction properties generalizing m with
  | nil => exact keeps_pure fun entry hentry => absurd hentry List.not_mem_nil
  | cons property rest ih =>
    obtain ⟨key, node⟩ := property
    have hnode : Fit R m.heap.size node :=
      fit_of_plain fun hdrawn => hproperties hdrawn (key, node) List.mem_cons_self
    refine (hev config node m hnode).bind fun value _ _ hvalue => ?_
    refine (keeps_copyValue hvalue).bind fun copy m₂ _ hcopy => ?_
    refine (ih fun hdrawn p hp => hproperties hdrawn p (List.mem_cons_of_mem _ hp)).bind
      fun entries m₃ h₃ hentries => keeps_pure fun entry hentry => ?_
    rcases List.mem_cons.mp hentry with rfl | hentry
    · exact hcopy.mono h₃.size
    · exact hentries entry hentry

theorem keeps_evaluateBinding (hev : Complies R ev ev') (name : String) {node : Node}
    (hnode : Fit R m.heap.size node) :
    Keeps R (knownEnv R) m (evaluateBinding ev config name node)
      (evaluateBinding ev' config name node) fun _ _ => True := by
  have hbind : ∀ {m : Machine} {value : Value}, Known R m.heap.size value →
      Keeps R (knownEnv R) m (copyValue value >>= fun copy => define name copy)
        (copyValue value >>= fun copy => define name copy) fun _ _ => True :=
    fun hvalue => (keeps_copyValue hvalue).bind fun _ _ _ hcopy => keeps_define hcopy
  unfold evaluateBinding
  split
  · exact keeps_fail _
  · split
    · refine keeps_env.bind fun e _ _ he => ?_
      refine (keeps_ofCause (P := Known R) fun value hvalue => ?_).bind fun _ _ _ hvalue => hbind hvalue
      unfold Environment.require at hvalue
      split at hvalue
      · next v hv =>
        cases hvalue
        exact knownEnv_get? he hv
      · cases hvalue
    · exact (hev config _ m hnode).bind fun _ _ _ hvalue => hbind hvalue

variable [Host.Limits]

/-- A node keeps every boundary that the evaluator for the nodes inside it keeps. -/
theorem keeps_evaluateNode (hev : Complies R ev ev') {node : Node}
    (hnode : Fit R m.heap.size node) :
    Keeps R (knownEnv R) m (evaluateNode ev config node) (evaluateNode ev' config node)
      (Known R) := by
  cases node with
  | literal value line =>
    -- A literal that is not primitive is the receiver of a method, which may be met.
    refine keeps_pure fun hdrawn => ?_
    rcases hnode hdrawn with hplain | ⟨v, l, heq, hv⟩
    · exact known_of_isPrimitive hplain.primitive hdrawn
    · cases heq
      exact hv hdrawn
  | text quotation => exact keeps_str _
  | identifier name line => exact keeps_env.bind fun e _ _ he => keeps_pure (knownEnv_lookup he name)
  | record properties line =>
    refine (keeps_evaluateProperties hev fun hdrawn p hp => ?_).bind fun _ _ _ hentries =>
      keeps_alloc (objectKnown_ofList hentries)
    exact (hnode.plain (by simp) hdrawn).children (List.mem_map.mpr ⟨p, hp, rfl⟩)
  | binary op left right line =>
    have hleft : ∀ {n}, Fit R n left := hnode.child (by simp) (by simp [Node.children])
    have hright : ∀ {n}, Fit R n right := hnode.child (by simp) (by simp [Node.children])
    refine (hev config left m hleft).bind fun l _ _ hl => ?_
    refine (hev config right _ hright).bind fun r _ h₂ _ => keeps_heap.bind fun h _ h₃ _ => ?_
    refine keeps_ofExcept fun v hv => ?_
    -- The value of an operator is its left operand, or it is primitive.
    rcases operator_cases hv with rfl | hv
    · exact (hl.mono h₂.size).mono h₃.size
    · exact known_of_isPrimitive hv
  | isPresent value line =>
    have hvalue : Fit R m.heap.size value := hnode.child (by simp) (by simp [Node.children])
    exact (hev config value m hvalue).bind fun _ _ _ _ => keeps_pure (known_of_isPrimitive trivial)
  | call name args line =>
    exact keeps_callNamed hev name fun hdrawn a ha => (hnode.plain (by simp) hdrawn).children ha
  | property object name line =>
    have hobject : Fit R m.heap.size object := hnode.child (by simp) (by simp [Node.children])
    exact (keeps_memberOf hev name hobject).bind fun _ _ _ hmember => keeps_pure hmember.2
  | methodCall object name args line =>
    have hobject : Fit R m.heap.size object := hnode.child (by simp) (by simp [Node.children])
    refine keeps_callMember hev name line hobject fun hdrawn a ha => ?_
    exact (hnode.plain (by simp) hdrawn).children (List.mem_cons_of_mem _ ha)
  | binding name value line =>
    have hvalue : Fit R m.heap.size value := hnode.child (by simp) (by simp [Node.children])
    exact (keeps_evaluateBinding hev name hvalue).bind fun _ _ _ _ => keeps_null
  | importing target asName line =>
    exact (keeps_importTarget hev target asName).bind fun _ _ _ _ => keeps_null
  | definition name params body line =>
    have hbody : Known R m.heap.size (.function name params body) := fun hdrawn n hn =>
      (hnode.plain (by simp) hdrawn).children hn
    exact (keeps_define hbody).bind fun _ _ _ _ => keeps_null
  | conditional condition body line =>
    have hcondition : Fit R m.heap.size condition := hnode.child (by simp) (by simp [Node.children])
    refine (hev config condition m hcondition).bind fun value _ _ _ => ?_
    -- The block runs in the environment of the conditional, so nothing is cloned.
    split
    · refine (keeps_runBlock hev fun hdrawn n hn => ?_).bind fun _ _ _ _ => keeps_null
      exact (hnode.plain (by simp) hdrawn).children (List.mem_cons_of_mem _ hn)
    · exact keeps_null
    · exact keeps_fail _
  | returning value line =>
    cases value with
    | none =>
      have hnull : Known R m.heap.size .null := known_of_isPrimitive trivial
      exact keeps_throw hnull
    | some value =>
      have hvalue : Fit R m.heap.size value := hnode.child (by simp) (by simp [Node.children])
      exact (hev config value m hvalue).bind fun _ _ _ hvalue => keeps_throw hvalue
  | unknown => exact keeps_fail _

/-- Evaluation keeps every boundary. -/
theorem complies_evaluate (R : Boundary) (levels : Nat) :
    Complies R (evaluate levels) (evaluate levels) := by
  induction levels with
  | zero => exact fun config node m _ => keeps_crash _
  | succ levels ih =>
    intro config node m hnode
    exact keeps_atLine _ (keeps_evaluateNode ih hnode)

/-! ### Calls of functions of the program -/

/-- A function of the program and the arguments that it is called with. -/
structure UserCall where
  passesOver : Bool
  name : String
  params : List String
  body : List Node
  args : List Node

/-- The call that a node makes on a machine, and the machine that it is made on: a named function is
called at once, and for a property the object is evaluated first. -/
inductive Calls (ev : Evaluator) (config : Config) (m : Machine) :
    Node → UserCall → Machine → Prop where
  | named {callee name : String} {params : List String} {body args : List Node} {line : Int} :
      m.env.get? callee = some (.function name params body) →
      Calls ev config m (.call callee args line) ⟨false, name, params, body, args⟩ m
  | property {object : Node} {callee name : String} {params : List String} {body args : List Node}
      {line : Int} {a : Address} {m' : Machine} :
      (memberOf ev config object callee).outcome m = (.ok (a, .function name params body), m') →
      Calls ev config m (.methodCall object callee args line)
        ⟨!config.returnFromMethods, name, params, body, args⟩ m'

/-- A node that calls a function of the program does nothing else from there on. -/
theorem Calls.outcome_eq {node : Node} {call : UserCall} {m' : Machine}
    (h : Calls ev config m node call m') :
    (evaluateNode ev config node).outcome m =
      (callFunction ev config call.passesOver call.name call.params call.body call.args).outcome m' := by
  cases h with
  | @named callee _ _ _ args _ hname =>
    change (callNamed ev config callee args).outcome m = _
    unfold callNamed
    rw [outcome_env_bind, hname]
  | @property object callee _ _ _ args line _ _ hmember =>
    -- A function of the program gets no receiver, so the arguments are those of the node.
    change (callMember ev config object callee args line).outcome m = _
    unfold callMember
    rw [outcome_bind, hmember]

end ModuLang
