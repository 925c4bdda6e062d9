import ModuLang.Proofs.RunEffects

/-!
# What statements bind

Expressions bind nothing: a call works on a clone of the environment, and nothing else in an
expression touches it. Of the statements `let`, `fn` and `import` bind names, and a conditional binds
what its body does. `bindingsOf` lists these bindings in order, as they are made; it says nothing of
the names that an environment remembers.

A program that was read from a text has expressions only where expressions belong. Its statements
change their environment by the listed bindings and in no other way.
-/

namespace ModuLang

open Eval Host Library

variable {α β : Type} {ev : Evaluator} {config : Config} {m m' : Machine}

/-! ### Expressions and statements -/

/-- The forms of expressions. -/
def Node.IsExpressionForm : Node → Prop
  | .literal _ _ | .text _ | .identifier _ _ | .record _ _ | .binary _ _ _ _ | .isPresent _ _
  | .call _ _ _ | .property _ _ _ | .methodCall _ _ _ _ => True
  | _ => False

/-- Whether a node is an expression, with expressions alone inside it. -/
inductive Node.Expression : Node → Prop where
  | intro {n : Node} (hform : n.IsExpressionForm) (hchildren : ∀ c ∈ n.children, c.Expression) :
      Expression n

/-- Whether a node is a statement with expressions where these belong; a `return` stands in a function
alone. -/
inductive Node.Statement : Bool → Node → Prop where
  | expression {f : Bool} {n : Node} : n.Expression → Statement f n
  | binding {f : Bool} {name : String} {value : Node} {line : Int} : value.Expression →
      Statement f (.binding name value line)
  | importing {f : Bool} {target : Quotation} {asName : Option String} {line : Int} :
      Statement f (.importing target asName line)
  | definition {f : Bool} {name : String} {params : List String} {body : List Node} {line : Int} :
      (∀ s ∈ body, Statement true s) → Statement f (.definition name params body line)
  | conditional {f : Bool} {condition : Node} {body : List Node} {line : Int} :
      condition.Expression → (∀ s ∈ body, Statement f s) →
      Statement f (.conditional condition body line)
  | returning {line : Int} : Statement true (.returning none line)
  | returningValue {value : Node} {line : Int} : value.Expression →
      Statement true (.returning (some value) line)

theorem Node.Expression.form {n : Node} (h : n.Expression) : n.IsExpressionForm := by
  cases h with
  | intro hform _ => exact hform

theorem Node.Expression.children {n c : Node} (h : n.Expression) (hc : c ∈ n.children) :
    c.Expression := by
  cases h with
  | intro _ hchildren => exact hchildren c hc

theorem Node.expression_leaf {n : Node} (hform : n.IsExpressionForm) (hleaf : n.children = []) :
    n.Expression :=
  .intro hform fun _ hc => absurd (hleaf ▸ hc) List.not_mem_nil

theorem Node.expression_literal (v : Value) (line : Int) : (Node.literal v line).Expression :=
  Node.expression_leaf trivial rfl

theorem Node.expression_single {n child : Node} (hform : n.IsExpressionForm)
    (hone : n.children = [child]) (hchild : child.Expression) : n.Expression := by
  refine .intro hform fun c hc => ?_
  rw [hone] at hc
  rw [List.mem_singleton.mp hc]
  exact hchild

theorem Node.expression_binary {op : BinaryOperator} {l r : Node} (hl : l.Expression)
    (hr : r.Expression) (line : Int) : (Node.binary op l r line).Expression := by
  refine .intro trivial fun c hc => ?_
  rcases List.mem_cons.mp hc with rfl | hc
  · exact hl
  · rw [List.mem_singleton.mp hc]
    exact hr

namespace Source

/-- What a phrase stands for has expressions where these belong. -/
def Phrase.SortedTree : (p : Phrase) → p.Tree → Prop
  | .expr, n | .operand, n | .term, n | .reference, n => Node.Expression n
  | .args, ns | .items, ns => ∀ n ∈ ns, Node.Expression n
  | .stmt f, n => Node.Statement f n
  | .stmts f, ns | .body f, ns => ∀ n ∈ ns, Node.Statement f n
  | .pair, p => p.2.Expression
  | .pairs, ps | .members, ps => ∀ p ∈ ps, p.2.Expression
  | .params, _ => True

/-- The trees of the grammar have expressions where these belong. -/
theorem Derives.sorted {p : Phrase} {ts : List Token} {v : p.Tree} (h : Derives p ts v) :
    p.SortedTree v := by
  -- Signs make binary nodes of expressions, and a lone condition is asked for its presence; the
  -- nodes that are no expressions come from the rules for statements only.
  induction h with
  | exprOperand _ ih | operandTerm _ ih | termReference _ ih => exact ih
  | expression _ ih => exact .expression ih
  | exprSum _ _ _ ihl ihr => exact Node.expression_binary ihl ihr _
  | operandMinus _ _ ih => exact Node.expression_binary (Node.expression_literal _ _) ih _
  | termNumber | termFloat | termBoolean | termString | bareName =>
    exact Node.expression_leaf trivial rfl
  | termObject _ _ _ ih =>
    refine .intro trivial fun c hc => ?_
    obtain ⟨p, hp, rfl⟩ := List.mem_map.mp hc
    exact ih p hp
  | call _ _ ih => exact .intro trivial ih
  | property _ _ _ ih => exact Node.expression_single trivial rfl ih
  | methodCall _ _ _ _ ih iha =>
    refine .intro trivial fun c hc => ?_
    rcases List.mem_cons.mp hc with rfl | hc
    · exact ih
    · exact iha c hc
  | noArgs | noStmts => exact fun n hn => absurd hn List.not_mem_nil
  | noMembers => exact fun n hn => absurd hn List.not_mem_nil
  | someArgs _ _ _ _ ih | someMembers _ _ ih | membersComma _ _ _ _ ih | body _ _ _ ih => exact ih
  | lastItem _ _ ih | lastPair _ ih | lastStmt _ _ ih =>
    intro n hn
    rw [List.mem_singleton.mp hn]
    exact ih
  | moreItems _ _ _ _ _ ih ihmore | morePairs _ _ _ _ ih ihmore | moreStmts _ _ _ _ ih ihmore =>
    intro n hn
    rcases List.mem_cons.mp hn with rfl | hn
    · exact ih
    · exact ihmore n hn
  | pair _ _ _ _ _ ih => exact ih
  | lastParam | moreParams => trivial
  | binding _ _ _ _ ih => exact .binding ih
  | importing | importingAs => exact .importing
  | definition _ _ _ _ _ ih | definitionParams _ _ _ _ _ _ _ ih => exact .definition ih
  | conditional _ _ _ ih ihb =>
    exact .conditional (Node.expression_single trivial rfl ih) ihb
  | conditionalComparison _ _ _ _ _ ihl ihr ihb =>
    exact .conditional (Node.expression_binary ihl ihr _) ihb
  | returning => exact .returning
  | returningValue _ _ ih => exact .returningValue ih

/-- The statements that are read from a text have expressions where these belong, and no `return`
outside of functions. -/
theorem parse_statements [Host.Limits] (source : String) :
    ∀ n ∈ (parse source).statements, n.Statement false := by
  intro n hn
  obtain ⟨used, hused, -⟩ := programStatements_forall stackLimit _ n hn
  exact hused.sorted

end Source

/-! ### Steps that touch the heap and the world -/

/-- Whether a step touches the heap and the world alone. -/
def TouchesData (x : Eval α) : Prop :=
  ∀ m, ∃ h w, (x.outcome m).2 = { m with heap := h, world := w }

theorem TouchesData.bind {x : Eval α} {k : α → Eval β} (hx : TouchesData x)
    (hk : ∀ a, TouchesData (k a)) : TouchesData (x >>= k) := by
  intro m
  have hm := hx m
  rw [outcome_bind]
  revert hm
  obtain ⟨r, m'⟩ := x.outcome m
  rintro ⟨h, w, rfl⟩
  cases r with
  | error i => exact ⟨h, w, rfl⟩
  | ok a =>
    obtain ⟨h', w', hrest⟩ := hk a { m with heap := h, world := w }
    exact ⟨h', w', hrest⟩

theorem Worldly.touchesData {P : α → Prop} {x : Eval α} (hx : Worldly x P) : TouchesData x := by
  intro m
  obtain ⟨⟨w, hw⟩, -⟩ := hx m
  exact ⟨m.heap, w, hw⟩

theorem touchesData_pure (a : α) : TouchesData (pure a : Eval α) := fun m => ⟨m.heap, m.world, rfl⟩

theorem touchesData_throw (i : Interrupt) : TouchesData (throw i : Eval α) :=
  fun m => ⟨m.heap, m.world, rfl⟩

theorem touchesData_fail (cause : Cause) : TouchesData (fail cause : Eval α) := touchesData_throw _

theorem touchesData_env : TouchesData Eval.env := fun m => ⟨m.heap, m.world, rfl⟩

theorem touchesData_object (a : Address) : TouchesData (object a) := fun m => ⟨m.heap, m.world, rfl⟩

theorem touchesData_alloc (o : Object) : TouchesData (alloc o) := fun m => ⟨_, m.world, rfl⟩

theorem touchesData_setObject (a : Address) (o : Object) : TouchesData (setObject a o) :=
  fun m => ⟨_, m.world, rfl⟩

theorem touchesData_copyValue (v : Value) : TouchesData (copyValue v) := fun m => ⟨_, m.world, rfl⟩

theorem touchesData_clone (e : Environment) : TouchesData (Eval.clone e) := fun m => ⟨_, m.world, rfl⟩

theorem touchesData_ofExcept (r : Except Failure α) : TouchesData (ofExcept r) := by
  cases r with
  | ok a => exact touchesData_pure a
  | error failure => exact touchesData_throw _

theorem touchesData_ofCause (r : Except Cause α) : TouchesData (ofCause r) := by
  cases r with
  | ok a => exact touchesData_pure a
  | error cause => exact touchesData_throw _

theorem touchesData_checkArity (name : String) (params : List String) (count : Nat) :
    TouchesData (checkArity name params count) := by
  unfold checkArity
  split
  · exact touchesData_pure _
  · exact touchesData_fail _

theorem touchesData_addressOf (v : Value) : TouchesData (addressOf v) := by
  unfold addressOf
  split
  · exact touchesData_pure _
  · exact (worldly_display _).touchesData.bind fun _ => touchesData_fail _

theorem touchesData_bindArguments (e : Environment) (params : List String) (values : List Value) :
    TouchesData (bindArguments e params values) := by
  unfold bindArguments
  split
  · exact (touchesData_alloc _).bind fun _ => touchesData_pure _
  · exact touchesData_pure _

theorem touchesData_arrayAddress (function : String) (v : Value) :
    TouchesData (arrayAddress function v) := by
  unfold arrayAddress
  split
  · exact touchesData_pure _
  · exact touchesData_fail _

theorem touchesData_applyArray (f : ArrayFunction) (args : List Value) :
    TouchesData (applyArray f args) := by
  have hadd : ∀ function operation array item,
      TouchesData (arrayAdd function operation array item) := by
    intro function operation array item
    refine (touchesData_arrayAddress _ _).bind fun a => (touchesData_copyValue _).bind fun copy => ?_
    refine (touchesData_object a).bind fun o => (touchesData_ofCause _).bind fun changed => ?_
    exact (touchesData_setObject a changed).bind fun _ => touchesData_pure _
  have htake : ∀ function operation array, TouchesData (arrayTake function operation array) := by
    intro function operation array
    refine (touchesData_arrayAddress _ _).bind fun a => (touchesData_object a).bind fun o => ?_
    refine (touchesData_ofCause _).bind fun taken => ?_
    exact (touchesData_setObject a taken.2).bind fun _ => touchesData_pure _
  unfold applyArray
  split
  · exact touchesData_alloc _
  · exact (worldly_arrayAt _ _).touchesData
  · exact hadd _ _ _ _
  · exact htake _ _ _
  · exact htake _ _ _
  · exact hadd _ _ _ _
  · exact touchesData_pure _

theorem touchesData_jsonSet (receiver key value : Value) :
    TouchesData (jsonSet receiver key value) := by
  unfold jsonSet
  split
  · refine (touchesData_object _).bind fun o => ?_
    split
    · exact touchesData_fail _
    · refine (touchesData_copyValue _).bind fun copy => (touchesData_object _).bind fun o => ?_
      exact (touchesData_setObject _ _).bind fun _ => touchesData_pure _
  · exact touchesData_fail _
  · exact touchesData_fail _

theorem touchesData_jsonParse [Host.Limits] (v : Value) : TouchesData (jsonParse v) := by
  unfold jsonParse
  split
  · refine (touchesData_ofExcept _).bind fun j => ?_
    split
    · exact fun m => ⟨_, m.world, rfl⟩
    · exact fun m => ⟨_, m.world, rfl⟩
    · exact touchesData_fail _
  · exact touchesData_fail _

theorem touchesData_applyJson [Host.Limits] (f : JsonFunction) (args : List Value) :
    TouchesData (applyJson f args) := by
  unfold applyJson
  split
  · exact touchesData_alloc _
  · exact (worldly_jsonStringify _).touchesData
  · exact touchesData_jsonParse _
  · exact touchesData_jsonSet _ _ _
  · exact touchesData_pure _

theorem touchesData_native [Host.Limits] (f : Native) (args : List Value) : TouchesData
    (f.apply args) := by
  cases f with
  | json f => exact touchesData_applyJson f args
  | array f => exact touchesData_applyArray f args
  | _ => exact Worldly.touchesData (worldly_native (by trivial) args)

/-! ### Steps that leave a part of the machine -/

/-- Whether a step leaves a part of the machine as it is, however it ends. -/
def Leaves {γ : Type} (part : Machine → γ) (x : Eval α) : Prop :=
  ∀ m, part (x.outcome m).2 = part m

/-- Whether a part of the machine is neither in its heap nor in its world. -/
def Apart {γ : Type} (part : Machine → γ) : Prop :=
  ∀ m h w, part { m with heap := h, world := w } = part m

section Parts

variable {γ : Type} {part : Machine → γ}

theorem TouchesData.leaves {x : Eval α} (hx : TouchesData x) (hpart : Apart part) :
    Leaves part x := by
  intro m
  obtain ⟨h, w, hm⟩ := hx m
  rw [hm, hpart]

theorem Leaves.bind {x : Eval α} {k : α → Eval β} (hx : Leaves part x)
    (hk : ∀ a, Leaves part (k a)) : Leaves part (x >>= k) := by
  intro m
  have hm := hx m
  rw [outcome_bind]
  revert hm
  obtain ⟨r, m'⟩ := x.outcome m
  intro hm
  cases r with
  | error i => exact hm
  | ok a => exact (hk a m').trans hm

theorem Leaves.atLine {x : Eval α} (hx : Leaves part x) (line : Int) :
    Leaves part (atLine line x) := by
  intro m
  rw [machine_atLine]
  exact hx m

/-! An expression leaves every part that is neither in the heap nor in the world, if calls of functions
do whose arguments do. -/

variable (hpart : Apart part)

include hpart

theorem leaves_evaluateAll {nodes : List Node} (h : ∀ node ∈ nodes, Leaves part (ev config node)) :
    Leaves part (evaluateAll ev config nodes) := by
  induction nodes with
  | nil => exact (touchesData_pure _).leaves hpart
  | cons node rest ih =>
    refine (h node List.mem_cons_self).bind fun value => ?_
    refine (ih fun node hnode => h node (List.mem_cons_of_mem _ hnode)).bind fun _ => ?_
    exact (touchesData_pure _).leaves hpart

theorem leaves_callNative [Host.Limits] (f : Native) {args : List Node}
    (hargs : ∀ arg ∈ args, Leaves part (ev config arg)) :
    Leaves part (callNative ev config f args) := by
  refine ((touchesData_checkArity _ _ _).leaves hpart).bind fun _ => ?_
  split
  · exact (touchesData_fail _).leaves hpart
  · exact (leaves_evaluateAll hpart hargs).bind fun values => (touchesData_native f values).leaves hpart

theorem leaves_resolveObject {node : Node} (hnode : Leaves part (ev config node)) :
    Leaves part (resolveObject ev config node) := by
  have haddress : ∀ v, Leaves part (addressOf v) := fun v => (touchesData_addressOf v).leaves hpart
  unfold resolveObject
  split
  · refine (touchesData_env.leaves hpart).bind fun e => ?_
    split
    · exact ((touchesData_pure _).leaves hpart).bind haddress
    · exact ((touchesData_fail _).leaves hpart).bind haddress
  · exact hnode.bind haddress

theorem leaves_memberOf {node : Node} (name : String) (hnode : Leaves part (ev config node)) :
    Leaves part (memberOf ev config node name) := by
  refine (leaves_resolveObject hpart hnode).bind fun a => ?_
  refine ((touchesData_object a).leaves hpart).bind fun o => ?_
  split
  · exact (touchesData_pure _).leaves hpart
  · exact (touchesData_fail _).leaves hpart

theorem leaves_evaluateProperties {properties : List (String × Node)}
    (h : ∀ property ∈ properties, Leaves part (ev config property.2)) :
    Leaves part (evaluateProperties ev config properties) := by
  induction properties with
  | nil => exact (touchesData_pure _).leaves hpart
  | cons property rest ih =>
    refine (h property List.mem_cons_self).bind fun value => ?_
    refine ((touchesData_copyValue value).leaves hpart).bind fun _ => ?_
    refine (ih fun p hp => h p (List.mem_cons_of_mem _ hp)).bind fun _ => ?_
    exact (touchesData_pure _).leaves hpart

variable (hcall : ∀ passesOver name params body args,
    (∀ arg ∈ args, Leaves part (ev config arg)) →
      Leaves part (callFunction ev config passesOver name params body args))

include hcall

variable [Host.Limits]

theorem leaves_callNamed (name : String) {args : List Node}
    (hargs : ∀ arg ∈ args, Leaves part (ev config arg)) :
    Leaves part (callNamed ev config name args) := by
  refine (touchesData_env.leaves hpart).bind fun e => ?_
  split
  · exact (touchesData_fail _).leaves hpart
  · exact hcall _ _ _ _ _ hargs
  · exact leaves_callNative hpart _ hargs
  · exact (touchesData_fail _).leaves hpart

theorem leaves_callMember {node : Node} (name : String) {args : List Node} (line : Int)
    (hnode : Leaves part (ev config node)) (hargs : ∀ arg ∈ args, Leaves part (ev config arg))
    (hliteral : ∀ v line, Leaves part (ev config (.literal v line))) :
    Leaves part (callMember ev config node name args line) := by
  refine (leaves_memberOf hpart name hnode).bind fun member => ?_
  obtain ⟨a, member⟩ := member
  simp only
  split
  · refine ((touchesData_object a).leaves hpart).bind fun o => leaves_callNative hpart _ ?_
    split
    · intro arg harg
      rcases List.mem_cons.mp harg with rfl | harg
      · exact hliteral _ _
      · exact hargs arg harg
    · exact hargs
  · exact hcall _ _ _ _ _ hargs
  · exact (touchesData_fail _).leaves hpart

/-- An expression leaves a part of the machine if the expressions inside it do. -/
theorem leaves_evaluateNode {node : Node} (hnode : node.Expression)
    (hev : ∀ n, n.Expression → Leaves part (ev config n)) :
    Leaves part (evaluateNode ev config node) := by
  have hchild : ∀ c ∈ node.children, Leaves part (ev config c) := fun c hc =>
    hev c (hnode.children hc)
  have hpure : ∀ v : Value, Leaves part (pure v : Eval Value) := fun v =>
    (touchesData_pure v).leaves hpart
  cases node with
  | literal | text => exact hpure _
  | identifier name line => exact (touchesData_env.leaves hpart).bind fun _ => hpure _
  | record properties line =>
    refine (leaves_evaluateProperties hpart fun p hp => ?_).bind fun _ =>
      (touchesData_alloc _).leaves hpart
    exact hchild p.2 (List.mem_map_of_mem hp)
  | binary op left right line =>
    refine (hchild left (by simp [Node.children])).bind fun l => ?_
    refine (hchild right (by simp [Node.children])).bind fun r => ?_
    exact (worldly_heap.touchesData.leaves hpart).bind fun h => (touchesData_ofExcept _).leaves hpart
  | isPresent value line =>
    exact (hchild value (by simp [Node.children])).bind fun _ => hpure _
  | call name args line => exact leaves_callNamed hpart hcall name hchild
  | property object name line =>
    exact (leaves_memberOf hpart name (hchild object (by simp [Node.children]))).bind fun _ =>
      hpure _
  | methodCall object name args line =>
    refine leaves_callMember hpart hcall name line (hchild object (by simp [Node.children]))
      (fun arg harg => ?_) fun v line => hev _ (Node.expression_literal v line)
    exact hchild arg (List.mem_cons_of_mem _ harg)
  | binding | importing | definition | conditional | returning | unknown =>
    exact absurd hnode.form not_false

end Parts

/-- An expression leaves a part of the machine that is neither in the heap nor in the world, if calls
of functions do whose arguments do. -/
theorem Node.Expression.leaves [Host.Limits] {γ : Type} {part : Machine → γ} (hpart : Apart part)
    (hcall : ∀ levels config passesOver name params body args,
      (∀ arg ∈ args, Leaves part (evaluate levels config arg)) →
        Leaves part (callFunction (evaluate levels) config passesOver name params body args))
    {node : Node} (hnode : node.Expression) (levels : Nat) (config : Config) :
    Leaves part (evaluate levels config node) := by
  induction levels generalizing node with
  | zero => exact (touchesData_throw _).leaves hpart
  | succ levels ih =>
    refine Leaves.atLine ?_ _
    exact leaves_evaluateNode hpart (hcall levels config) hnode fun n hn => ih hn

/-! ### The environment -/

/-- Whether a step leaves the environment as it is, however it ends. -/
def LeavesEnv (x : Eval α) : Prop :=
  ∀ m, (x.outcome m).2.env = m.env

theorem apart_env : Apart Machine.env := fun _ _ _ => rfl

theorem TouchesData.leavesEnv {x : Eval α} (hx : TouchesData x) : LeavesEnv x :=
  hx.leaves apart_env

theorem LeavesEnv.bind {x : Eval α} {k : α → Eval β} (hx : LeavesEnv x) (hk : ∀ a, LeavesEnv (k a)) :
    LeavesEnv (x >>= k) :=
  Leaves.bind hx hk

/-- A call works on clones, whatever its arguments and its body do. -/
theorem leavesEnv_callFunction (passesOver : Bool) (name : String) (params : List String)
    (body args : List Node) : LeavesEnv (callFunction ev config passesOver name params body args) := by
  have hinside : ∀ {α : Type} (e : Environment) (x : Eval α), LeavesEnv (inside e x) :=
    fun _ _ _ => rfl
  refine (touchesData_checkArity _ _ _).leavesEnv.bind fun _ => touchesData_env.leavesEnv.bind fun e => ?_
  refine (touchesData_clone e).leavesEnv.bind fun callEnv => ?_
  refine (touchesData_clone callEnv).leavesEnv.bind fun argEnv => (hinside argEnv _).bind fun values => ?_
  refine (touchesData_bindArguments _ _ _).leavesEnv.bind fun bodyEnv => hinside bodyEnv _

/-- An expression leaves the environment as it is. -/
theorem Node.Expression.leavesEnv [Host.Limits] {node : Node} (hnode : node.Expression)
    (levels : Nat) (config : Config) : LeavesEnv (evaluate levels config node) :=
  hnode.leaves apart_env (fun _ _ _ _ _ _ _ _ => leavesEnv_callFunction _ _ _ _ _) levels config

theorem leavesEnv_loadFile [Host.Limits] (ev : Evaluator) (config : Config) (target : String) :
    LeavesEnv (loadFile ev config target) := by
  intro m
  rcases namesFile_or_refused config m.world target with ⟨path, text, hfile⟩ | ⟨failure, hrefused⟩
  · rw [hfile.outcome_loadFile]
    rfl
  · rw [hrefused.outcome_loadFile]

/-! ### The bindings of a statement -/

/-- The value that a `let` binds: a copy of the value of its node. -/
def boundValue (ev : Evaluator) (config : Config) (node : Node) : Eval Value := do
  let value ←
    match node with
    | .identifier source _ => do ofCause ((← env).require "Variable" source)
    | node => ev config node
  copyValue value

theorem evaluateBinding_eq (name : String) (node : Node) :
    evaluateBinding ev config name node =
      if isReservedName name then fail (.reservedName name)
      else boundValue ev config node >>= define name := by
  unfold evaluateBinding boundValue
  split
  · rfl
  · cases node <;> simp only [bind_assoc]

/-- The members that an import gives. -/
def importedMembers [Host.Limits] (ev : Evaluator) (config : Config) (target : String) :
    Eval (List (String × Value)) :=
  if target.endsWith sourceExtension then loadFile ev config target
  else
    match importable? config target with
    | none => fail (.packageNotFound target)
    | some members => pure members

/-- The name that an import gives to its object unless it is told another one. -/
def importedName (target : String) : String :=
  if target.endsWith sourceExtension then (Path.ofString target).stem else target

theorem importTarget_eq [Host.Limits] (target : Quotation) (asName : Option String) :
    importTarget ev config target asName = (do
      let members ← importedMembers ev config (Source.unquote target.raw)
      bindImport asName (importedName (Source.unquote target.raw)) members) := by
  unfold importTarget importedMembers importedName
  simp only
  split
  · rfl
  · cases importable? config (Source.unquote target.raw) with
    | none => rfl
    | some members => rfl

/-- The bindings of an import on a heap: all members with the name `*`, and else one object. -/
def importBindings (asName : Option String) (name : String) (members : List (String × Value))
    (h : Heap) : List (String × Value) :=
  if asName == some "*" then members
  else [((asName.filter fun a => !a.isEmpty).getD name, .object h.size)]

/-- The heap where an import is bound: one object is new, unless all members are bound. -/
def importHeap (asName : Option String) (members : List (String × Value)) (h : Heap) : Heap :=
  if asName == some "*" then h else (h.alloc { properties := Table.ofList members }).2

theorem outcome_bindImport (asName : Option String) (name : String)
    (members : List (String × Value)) :
    (bindImport asName name members).outcome m =
      (.ok (), { m with
        env := m.env.update (importBindings asName name members m.heap)
        heap := importHeap asName members m.heap }) := by
  unfold bindImport importBindings importHeap
  split
  · rfl
  · rfl

/-- The bindings of statements that come one after the other, each on the machine that the ones
before it leave; `begin` is what happens before a statement begins. -/
def bindingsAlong (step : Node → Eval Value) (begin : Node → Machine → Machine)
    (bindings : Node → Machine → List (String × Value)) :
    List Node → Machine → List (String × Value)
  | [], _ => []
  | s :: rest, m =>
    bindings s (begin s m) ++
      bindingsAlong step begin bindings rest ((step s).outcome (begin s m)).2

/-- The machine where a statement of a block begins: it is counted. -/
def countedIn (config : Config) (s : Node) (m : Machine) : Machine :=
  ((countStatement config s).outcome m).2

theorem env_countedIn (config : Config) (s : Node) (m : Machine) : (countedIn config s m).env = m.env := by
  unfold countedIn countStatement
  rw [outcome_get_bind]
  split
  · rfl
  · split
    · rw [outcome_modify_bind]
      split <;> rfl
    · rfl

/-- The bindings that a statement makes in its environment, in order. -/
def bindingsOf [Host.Limits] : Nat → Config → Node → Machine → List (String × Value)
  | levels + 1, config, .binding name value _, m =>
    match ((boundValue (evaluate levels) config value).outcome m).1 with
    | .ok v => [(name, v)]
    | .error _ => []
  | _ + 1, _, .definition name params body _, _ => [(name, .function name params body)]
  | levels + 1, config, .importing target asName _, m =>
    let name := Source.unquote target.raw
    match (importedMembers (evaluate levels) config name).outcome m with
    | (.ok members, m') => importBindings asName (importedName name) members m'.heap
    | (.error _, _) => []
  | levels + 1, config, .conditional condition body _, m =>
    match (evaluate levels config condition).outcome m with
    | (.ok (.bool true), m') =>
      bindingsAlong (evaluate levels config) (countedIn config) (bindingsOf levels config) body m'
    | _ => []
  | _, _, _, _ => []

/-! ### Statements change their environment by their bindings -/

theorem Environment.update_append (e : Environment) (bs cs : List (String × Value)) :
    e.update (bs ++ cs) = (e.update bs).update cs :=
  List.foldl_append

theorem outcome_of_atLine_ok {x : Eval α} {a : α} {line : Int}
    (h : (atLine line x).outcome m = (.ok a, m')) : x.outcome m = (.ok a, m') := by
  refine outcome_of_tryCatch_eq_ok h fun i m₁ hi => ?_
  split at hi <;> cases hi

theorem bindingsOf_expression [Host.Limits] {node : Node} (h : node.Expression) (levels : Nat)
    (config : Config) (m : Machine) : bindingsOf levels config node m = [] := by
  have hform := h.form
  cases levels with
  | zero => cases node <;> rfl
  | succ levels =>
    cases node with
    | binding | importing | definition | conditional | returning | unknown =>
      exact absurd hform not_false
    | _ => rfl

/-- What a statement does to its environment when it ends well. -/
def BindsAs (step : Node → Eval Value) (bindings : Node → Machine → List (String × Value))
    (s : Node) : Prop :=
  ∀ m v m', (step s).outcome m = (.ok v, m') → m'.env = m.env.update (bindings s m)

/-- The statements of a block change the environment by their bindings, if each of them does. -/
theorem env_of_runBlock {bindings : Node → Machine → List (String × Value)} {nodes : List Node}
    (hnodes : ∀ s ∈ nodes, BindsAs (ev config) bindings s)
    (h : (runBlock ev config nodes).outcome m = (.ok (), m')) :
    m'.env = m.env.update (bindingsAlong (ev config) (countedIn config) bindings nodes m) := by
  induction nodes generalizing m with
  | nil =>
    cases h
    rfl
  | cons s rest ih =>
    rw [runBlock] at h
    obtain ⟨_, m₁, hcount, h⟩ := outcome_bind_eq_ok h
    obtain ⟨v, m₂, hstep, h⟩ := outcome_bind_eq_ok h
    have hbegin : countedIn config s m = m₁ := congrArg Prod.snd hcount
    have hcounted : m₁.env = m.env := by
      rw [← hbegin]
      exact env_countedIn config s m
    have hfirst : m₂.env = m₁.env.update (bindings s m₁) :=
      hnodes s List.mem_cons_self m₁ v m₂ hstep
    have hrest := ih (fun s hs => hnodes s (List.mem_cons_of_mem _ hs)) h
    rw [hrest, hfirst, hcounted, bindingsAlong, Environment.update_append, hbegin, hstep]

/-- The statements of a file change the environment by their bindings, if each of them does. -/
theorem env_of_runStatements {bindings : Node → Machine → List (String × Value)}
    {failure : Option Failure} {nodes : List Node}
    (hnodes : ∀ s ∈ nodes, BindsAs (ev config) bindings s)
    (h : (runStatements ev config failure nodes).outcome m = (.ok (), m')) :
    m'.env = m.env.update (bindingsAlong (ev config) (fun _ m => m) bindings nodes m) := by
  induction nodes generalizing m with
  | nil =>
    cases failure with
    | none =>
      cases h
      rfl
    | some failure => cases h
  | cons s rest ih =>
    rw [runStatements] at h
    obtain ⟨v, m₁, hstep, h⟩ := outcome_bind_eq_ok h
    have hfirst : m₁.env = m.env.update (bindings s m) := hnodes s List.mem_cons_self m v m₁ hstep
    have hrest := ih (fun s hs => hnodes s (List.mem_cons_of_mem _ hs)) h
    rw [hrest, hfirst, bindingsAlong, Environment.update_append, hstep]

theorem leaves_boundValue {γ : Type} {part : Machine → γ} (hpart : Apart part) {node : Node}
    (hnode : Leaves part (ev config node)) : Leaves part (boundValue ev config node) := by
  have hcopy : ∀ v, Leaves part (copyValue v) := fun v => (touchesData_copyValue v).leaves hpart
  unfold boundValue
  split
  · refine (touchesData_env.leaves hpart).bind fun e => ?_
    exact ((touchesData_ofCause _).leaves hpart).bind hcopy
  · exact hnode.bind hcopy

variable [Host.Limits]

theorem leavesEnv_importedMembers (ev : Evaluator) (config : Config) (target : String) :
    LeavesEnv (importedMembers ev config target) := by
  unfold importedMembers
  split
  · exact leavesEnv_loadFile ev config target
  · split
    · exact (touchesData_fail _).leavesEnv
    · exact (touchesData_pure _).leavesEnv

/-- A statement that ends well changes its environment by the bindings that it makes. -/
theorem Node.Statement.bindsAs {f : Bool} {s : Node} (hs : s.Statement f) (levels : Nat)
    (config : Config) : BindsAs (evaluate levels config) (bindingsOf levels config) s := by
  induction levels generalizing f s with
  | zero =>
    intro m v m' h
    cases h
  | succ levels ih =>
    intro m v m' h
    have hok : (evaluateNode (evaluate levels) config s).outcome m = (.ok v, m') :=
      outcome_of_atLine_ok h
    cases hs with
    | expression hexpr =>
      have hleaves := hexpr.leavesEnv (levels + 1) config m
      rw [h] at hleaves
      rw [bindingsOf_expression hexpr]
      exact hleaves
    | @binding _ name value line hvalue =>
      obtain ⟨_, m₁, hbinding, hnull⟩ := outcome_bind_eq_ok hok
      cases hnull
      rw [evaluateBinding_eq] at hbinding
      split at hbinding
      · cases hbinding
      · obtain ⟨w, m₂, hvalued, hdefined⟩ := outcome_bind_eq_ok hbinding
        have hleaves := leaves_boundValue apart_env (hvalue.leavesEnv levels config) m
        rw [hvalued] at hleaves
        cases hdefined
        simp only [bindingsOf, hvalued]
        exact congrArg (·.define name w) hleaves
    | @importing _ target asName line =>
      obtain ⟨_, m₁, himport, hnull⟩ := outcome_bind_eq_ok hok
      cases hnull
      rw [importTarget_eq] at himport
      obtain ⟨members, m₂, hmembers, hbound⟩ := outcome_bind_eq_ok himport
      have hleaves := leavesEnv_importedMembers (evaluate levels) config (Source.unquote target.raw) m
      rw [hmembers] at hleaves
      rw [outcome_bindImport] at hbound
      cases hbound
      simp only [bindingsOf, hmembers]
      simp only at hleaves
      rw [hleaves]
    | definition _ =>
      cases hok
      rfl
    | @conditional _ condition body line hcondition hbody =>
      obtain ⟨value, m₁, hvalue, hblock⟩ := outcome_bind_eq_ok hok
      have hleaves := hcondition.leavesEnv levels config m
      rw [hvalue] at hleaves
      -- Only a condition that holds lets the body run, in the environment of the conditional.
      split at hblock
      · obtain ⟨_, m₂, hrun, hnull⟩ := outcome_bind_eq_ok hblock
        cases hnull
        have henv := env_of_runBlock (fun s hs => ih (hbody s hs)) hrun
        simp only [bindingsOf, hvalue]
        simp only at hleaves
        rw [henv, hleaves]
      · cases hblock
        simp only [bindingsOf, hvalue]
        exact hleaves
      · cases hblock
    | returning => cases hok
    | returningValue _ =>
      obtain ⟨_, _, -, hthrow⟩ := outcome_bind_eq_ok hok
      cases hthrow

end ModuLang
