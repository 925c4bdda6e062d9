import ModuLang.Proofs.Dialogue
import ModuLang.Proofs.NameSeparation

/-!
# What evaluation does to the heap and the names

Every construct of the language changes the heap only in the ways that are listed as effects, and
leaves the names of its environment separate if they were. This is shown for each construct by means
of an evaluator for the nodes inside it, and so it holds of every evaluation: but for the properties
that the program sets, which have to be permitted.

What is permitted is asked of a run at its own points only. An evaluator that exits at all other
points does nothing that is not permitted, and a run cannot tell it from the one that goes on,
since it never asks there.
-/

namespace ModuLang

open Eval Library

variable {α β : Type} {permits : Permission} {m m' : Machine} {ev : Evaluator} {config : Config}

/-- What a step does: the heap goes through some changes, and separate names stay separate. -/
structure Moved (permits : Permission) (m m' : Machine) : Prop where
  effects : Effects permits m.heap m'.heap
  separate : NamesSeparate m.heap m.env → NamesSeparate m'.heap m'.env

theorem Moved.refl (permits : Permission) (m : Machine) : Moved permits m m :=
  ⟨.refl, id⟩

theorem Moved.trans {m₁ m₂ m₃ : Machine} (h : Moved permits m₁ m₂) (h' : Moved permits m₂ m₃) :
    Moved permits m₁ m₃ :=
  ⟨h.effects.trans h'.effects, h'.separate ∘ h.separate⟩

/-- Where the environment stays as it is, the heap may change. -/
theorem Moved.of_effects (he : Effects permits m.heap m'.heap) (henv : m'.env = m.env)
    (hheap : HeapKnown .clear m.heap) (hknown : (knownEnv .clear).holds m.heap.size m.env) :
    Moved permits m m' :=
  ⟨he, fun hsep => henv ▸ hsep.effects he hheap hknown⟩

/-- Whether a step moves a machine, if all that can be met from there is there. -/
def Moves (permits : Permission) (m : Machine) (x : Eval α) : Prop :=
  HeapKnown .clear m.heap → (knownEnv .clear).holds m.heap.size m.env →
    Moved permits m (x.outcome m).2

/-- A step that is known to keep the boundary which hides nothing. -/
abbrev KeepsClear (m : Machine) (x : Eval α) (P : Nat → α → Prop) : Prop :=
  Keeps .clear (knownEnv .clear) m x x P

section Rules

variable {x : Eval α} {k : α → Eval β} {P : Nat → α → Prop}

/-- A step that touches neither the heap nor the environment. -/
theorem moves_of_same (hheap : (x.outcome m).2.heap = m.heap) (henv : (x.outcome m).2.env = m.env) :
    Moves permits m x := by
  intro _ _
  refine ⟨?_, ?_⟩
  · rw [hheap]
    exact .refl
  · rw [hheap, henv]
    exact id

theorem moves_pure (a : α) : Moves permits m (pure a : Eval α) := moves_of_same rfl rfl

theorem moves_throw (i : Interrupt) : Moves permits m (throw i : Eval α) := moves_of_same rfl rfl

theorem moves_fail (cause : Cause) : Moves permits m (fail cause : Eval α) := moves_of_same rfl rfl

theorem moves_crash (c : Crash) : Moves permits m (crash c : Eval α) := moves_of_same rfl rfl

theorem moves_env : Moves permits m Eval.env := moves_of_same rfl rfl

theorem moves_world : Moves permits m Eval.world := moves_of_same rfl rfl

theorem moves_heap : Moves permits m Eval.heap := moves_of_same rfl rfl

theorem moves_object (a : Address) : Moves permits m (object a) := moves_of_same rfl rfl

theorem moves_ofExcept (x : Except Failure α) : Moves permits m (ofExcept x) := by
  cases x with
  | ok a => exact moves_pure a
  | error failure => exact moves_throw _

theorem moves_ofCause (x : Except Cause α) : Moves permits m (ofCause x) := by
  cases x with
  | ok a => exact moves_pure a
  | error cause => exact moves_throw _

/-- One step after another. What the first one gives is known from the boundary that it keeps. -/
theorem Moves.bind (hx : Moves permits m x) (hkeeps : KeepsClear m x P)
    (hk : ∀ a m', x.outcome m = (.ok a, m') → Grows .clear m m' → P m'.heap.size a →
      Moves permits m' (k a)) : Moves permits m (x >>= k) := by
  intro hheap henv
  have hmoved := hx hheap henv
  obtain ⟨-, hkept⟩ := hkeeps hheap henv
  rw [outcome_bind]
  revert hmoved hkept
  cases hout : x.outcome m with
  | mk r m' =>
    intro hmoved hkept
    cases r with
    | error i => exact hmoved
    | ok a => exact hmoved.trans (hk a m' hout hkept.grows hkept.ends hkept.heap hkept.env)

/-- A step whose interrupts are handled without touching the machine. -/
theorem Moves.tryCatch {handler : Interrupt → Eval α} (hx : Moves permits m x)
    (hhandler : ∀ i m', ((handler i).outcome m').2 = m') :
    Moves permits m (MonadExcept.tryCatch x handler) := by
  intro hheap henv
  have hmoved := hx hheap henv
  rw [outcome_tryCatch]
  revert hmoved
  obtain ⟨r, m'⟩ := x.outcome m
  intro hmoved
  cases r with
  | ok a => exact hmoved
  | error i =>
    simp only [hhandler]
    exact hmoved

theorem Moves.atLine (hx : Moves permits m x) (line : Int) : Moves permits m (atLine line x) := by
  refine hx.tryCatch fun i m' => ?_
  cases i with
  | failed failure => cases failure <;> rfl
  | _ => rfl

theorem Moves.overflowAt (hx : Moves permits m x) (line : Int) :
    Moves permits m (overflowAt line x) := by
  refine hx.tryCatch fun i m' => ?_
  split <;> rfl

theorem Moves.blameFile (hx : Moves permits m x) (p : Host.Path) :
    Moves permits m (blameFile p x) := by
  refine hx.tryCatch fun i m' => ?_
  split
  · split <;> rfl
  · rfl

theorem Moves.catchReturn (hx : Moves permits m x) (hkeeps : KeepsClear m x P) :
    Moves permits m (catchReturn x) := by
  refine (hx.bind hkeeps fun a _ _ _ _ => moves_pure _).tryCatch fun i m' => ?_
  cases i <;> rfl

/-- A step in another environment, which is given up. -/
theorem Moves.inside {e : Environment} (hx : Moves permits { m with env := e } x)
    (he : (knownEnv .clear).holds m.heap.size e) : Moves permits m (inside e x) := by
  intro hheap henv
  exact .of_effects (hx hheap he).effects rfl hheap henv

theorem Moves.inFrame {name : String} {counted : Bool}
    (hx : Moves permits { m with frames := ⟨name, counted, 0⟩ :: m.frames } x) :
    Moves permits m (inFrame config name counted x) := by
  intro hheap henv
  unfold Eval.inFrame
  rw [outcome_get_bind]
  by_cases hlimit : config.maxCallDepth ≤ m.frames.length
  · rw [if_pos hlimit]
    exact .refl permits m
  · rw [if_neg hlimit]
    have hmoved := hx hheap henv
    exact ⟨hmoved.effects, hmoved.separate⟩

theorem moves_countStatement (statement : Node) :
    Moves permits m (countStatement config statement) := by
  refine moves_of_same ?_ ?_
  all_goals
    unfold countStatement
    rw [outcome_get_bind]
    split
    · rfl
    · split
      · rw [outcome_modify_bind]
        split <;> rfl
      · rfl

theorem moves_checkArity (name : String) (params : List String) (count : Nat) :
    Moves permits m (checkArity name params count) := by
  unfold checkArity
  split
  · exact moves_pure _
  · exact moves_fail _

theorem moves_display (v : Value) : Moves permits m (display v) :=
  moves_heap.bind keeps_heap fun _ _ _ _ _ => moves_ofCause _

/-- A step that makes an object. -/
theorem moves_alloc {o : Object} (ho : ObjectKnown .clear m.heap.size o)
    (harray : o.isArray = true → ∃ items, o = Object.ofElements items) :
    Moves permits m (alloc o) :=
  fun hheap henv => .of_effects (effects_alloc ho harray) rfl hheap henv

theorem moves_copyValue {v : Value} (hv : Known .clear m.heap.size v) :
    Moves permits m (copyValue v) :=
  fun hheap henv => .of_effects (effects_copyValue hv) rfl hheap henv

theorem moves_clone {e : Environment} (he : (knownEnv .clear).holds m.heap.size e) :
    Moves permits m (clone e) := by
  intro hheap henv
  refine .of_effects (.single (.copy fun v hv => ?_)) rfl hheap henv
  obtain ⟨binding, hbinding, rfl⟩ := List.mem_map.mp hv
  exact he binding hbinding

/-- A name is bound to something that is separate from all other names. -/
theorem moves_define {name : String} {v : Value}
    (hv : ∀ y w, y ≠ name → m.env.get? y = some w → Separate m.heap v w) :
    Moves permits m (define name v) :=
  fun _ _ => ⟨.refl, fun hsep => hsep.define hv⟩

/-- A name is bound to a copy. -/
theorem moves_bindCopy {name : String} {v : Value} (hv : Known .clear m.heap.size v) :
    Moves permits m (copyValue v >>= define name) := by
  intro hheap henv
  have he : Effects permits m.heap (m.heap.copyValue v).2 := effects_copyValue hv
  refine ⟨he, fun hsep => (hsep.effects he hheap henv).define ?_⟩
  exact fun y w _ hw => separate_copyValue hheap hv (knownEnv_get? henv hw)

theorem moves_bindArguments {callEnv : Environment} (params : List String) {values : List Value}
    (hvalues : ∀ v ∈ values, Known .clear m.heap.size v) :
    Moves permits m (bindArguments callEnv params values) := by
  unfold bindArguments
  split
  · have hrest : ObjectKnown .clear m.heap.size
        (Object.ofElements (values.drop params.dropLast.length)) :=
      objectKnown_ofElements fun v hv => hvalues v (List.mem_of_mem_drop hv)
    exact (moves_alloc hrest fun _ => ⟨_, rfl⟩).bind (keeps_alloc hrest) fun _ _ _ _ _ => moves_pure _
  · exact moves_pure _

theorem moves_readSource (p : Host.Path) : Moves permits m (readSource p) := by
  refine moves_world.bind keeps_world fun w _ _ _ _ => ?_
  split
  · exact moves_fail _
  · split
    · exact moves_pure _
    · exact moves_fail _

end Rules

/-! ### Files that are loaded -/

theorem Eval.outcome_world_bind (k : Host.World → Eval α) (m : Machine) :
    (Eval.world >>= k).outcome m = (k m.world).outcome m :=
  rfl

theorem machine_readSource (p : Host.Path) : ((readSource p).outcome m).2 = m := by
  unfold readSource
  rw [outcome_world_bind]
  split
  · rfl
  · split <;> rfl

theorem exists_of_inside {e : Environment} {x : Eval α} {a : α}
    (h : (inside e x).outcome m = (.ok a, m')) :
    ∃ m₁, x.outcome { m with env := e } = (.ok a, m₁) ∧ m' = { m₁ with env := m.env } := by
  rw [outcome_inside] at h
  obtain ⟨hresult, hmachine⟩ := Prod.mk.inj h
  exact ⟨(x.outcome { m with env := e }).2, Prod.ext hresult rfl, hmachine.symm⟩

section

variable [Host.Limits]

/-- Runs the statements of a source file in the environment that is there. -/
def runModule (ev : Evaluator) (config : Config) (p : Host.Path) (source : String) : Eval Unit :=
  blameFile p (inFrame config p.name false
    (runStatements ev config (Source.parse source).failure (Source.parse source).statements))

theorem keeps_runModule {R : Boundary} {ev' : Evaluator} (hev : Complies R ev ev') (p : Host.Path)
    (source : String) :
    Keeps R (knownEnv R) m (runModule ev config p source) (runModule ev' config p source)
      fun _ _ => True :=
  keeps_blameFile p (keeps_inFrame (keeps_runStatements hev _ fun _ => Source.parse_plain source))

/-- The machine where the statements of a file begin: in a clone of the environment, and in a frame of
their own. -/
def moduleStart (m : Machine) (path : Host.Path) : Machine :=
  { m with
    env := (m.env.clone m.heap).1
    heap := (m.env.clone m.heap).2
    frames := ⟨path.name, false, 0⟩ :: m.frames }

/-- Whether a target names a file in a world that can be read: its path and its text. -/
structure NamesFile (config : Config) (w : Host.World) (target : String) (path : Host.Path)
    (text : String) : Prop where
  isHostText : isHostText target = true
  path_eq : resolveSource config w (Host.Path.ofString target) = .ok path
  text_eq : ∃ bytes, w.files.read path = .ok bytes ∧ decodeText bytes = .ok text

/-- The file that a node imports on a machine, if there is one that can be read: its path and its
text. -/
inductive ReadsFile (config : Config) (m : Machine) : Node → Host.Path → String → Prop where
  | importing {target : Quotation} {asName : Option String} {line : Int} {path : Host.Path}
      {text : String} : (Source.unquote target.raw).endsWith sourceExtension = true →
      NamesFile config m.world (Source.unquote target.raw) path text →
      ReadsFile config m (.importing target asName line) path text

/-- A file that can be read is run in a clone of the environment. -/
theorem NamesFile.outcome_loadFile {target text : String} {path : Host.Path}
    (h : NamesFile config m.world target path text) (ev : Evaluator) :
    (loadFile ev config target).outcome m =
      (inside (m.env.clone m.heap).1 (do
        runModule ev (config.withScript path) path text
        return (← env).boundSinceCreation)).outcome
        { m with heap := (m.env.clone m.heap).2 } := by
  obtain ⟨bytes, hread, hdecode⟩ := h.text_eq
  have htext : (readSource path).outcome m = (.ok text, m) := by
    unfold readSource
    rw [outcome_world_bind, hread]
    simp only [hdecode]
    rfl
  unfold loadFile
  simp only [h.isHostText, Bool.not_true, Bool.false_eq_true, if_false]
  rw [outcome_world_bind, h.path_eq]
  simp only
  rw [outcome_bind, htext]
  rfl

/-- How a target fails to name a file in a world that can be read. -/
inductive RefusesTarget (config : Config) (w : Host.World) (target : String) : Failure → Prop where
  /-- It is no text of the host. -/
  | text : isHostText target = false → RefusesTarget config w target (.crash .unreadableText)
  /-- It has a name that is too long for the host. -/
  | name {e : OsError} : isHostText target = true →
      resolveSource config w (Host.Path.ofString target) = .error e →
      RefusesTarget config w target (.crash (.os e))
  /-- There is no such file. -/
  | unreadable {path : Host.Path} {e : OsError} : isHostText target = true →
      resolveSource config w (Host.Path.ofString target) = .ok path → w.files.read path = .error e →
      RefusesTarget config w target (.fault ⟨.sourceUnreadable e, 0⟩)
  /-- The file is no text. -/
  | undecodable {path : Host.Path} {bytes : List UInt8} {defect : Text.Utf8Defect} :
      isHostText target = true → resolveSource config w (Host.Path.ofString target) = .ok path →
      w.files.read path = .ok bytes → decodeText bytes = .error defect →
      RefusesTarget config w target (.fault ⟨.sourceUndecodable path.text defect, 0⟩)

/-- An import of a target that is refused fails before anything is done. -/
theorem RefusesTarget.outcome_loadFile {target : String} {failure : Failure}
    (h : RefusesTarget config m.world target failure) (ev : Evaluator) :
    (loadFile ev config target).outcome m = (.error (.failed failure), m) := by
  unfold loadFile
  cases h with
  | text hhost =>
    rw [hhost]
    rfl
  | name hhost hpath =>
    simp only [hhost, Bool.not_true, Bool.false_eq_true, if_false, outcome_world_bind, hpath]
    rfl
  | unreadable hhost hpath hread =>
    simp only [hhost, Bool.not_true, Bool.false_eq_true, if_false, outcome_world_bind, hpath,
      readSource, bind_assoc, hread]
    rfl
  | undecodable hhost hpath hread hdecode =>
    simp only [hhost, Bool.not_true, Bool.false_eq_true, if_false, outcome_world_bind, hpath,
      readSource, bind_assoc, hread, hdecode]
    rfl

end

theorem NamesFile.eq {w : Host.World} {target text text' : String} {path path' : Host.Path}
    (h : NamesFile config w target path text) (h' : NamesFile config w target path' text') :
    path = path' ∧ text = text' := by
  obtain rfl : path = path' := Except.ok.inj (h.path_eq.symm.trans h'.path_eq)
  obtain ⟨bytes, hread, hdecode⟩ := h.text_eq
  obtain ⟨bytes', hread', hdecode'⟩ := h'.text_eq
  obtain rfl : bytes = bytes' := Except.ok.inj (hread.symm.trans hread')
  exact ⟨rfl, Except.ok.inj (hdecode.symm.trans hdecode')⟩

/-- A target names a file that can be read, or it is refused. -/
theorem namesFile_or_refused (config : Config) (w : Host.World) (target : String) :
    (∃ path text, NamesFile config w target path text) ∨
      ∃ failure, RefusesTarget config w target failure := by
  cases hhost : isHostText target with
  | false => exact .inr ⟨_, .text hhost⟩
  | true =>
    cases hpath : resolveSource config w (Host.Path.ofString target) with
    | error e => exact .inr ⟨_, .name hhost hpath⟩
    | ok path =>
      cases hread : w.files.read path with
      | error e => exact .inr ⟨_, .unreadable hhost hpath hread⟩
      | ok bytes =>
        cases hdecode : decodeText bytes with
        | ok text => exact .inl ⟨path, text, hhost, hpath, bytes, hread, hdecode⟩
        | error defect => exact .inr ⟨_, .undecodable hhost hpath hread hdecode⟩

/-- A file that is loaded leaves the environment as it was, and gives what is bound where its
statements end. -/
theorem exists_of_loadFile [Host.Limits] {target : String} {members : List (String × Value)}
    (h : (loadFile ev config target).outcome m = (.ok members, m')) :
    ∃ config' p source m₁,
      (runModule ev config' p source).outcome
        { m with env := (m.env.clone m.heap).1, heap := (m.env.clone m.heap).2 } = (.ok (), m₁) ∧
      members = m₁.env.boundSinceCreation ∧ m'.heap = m₁.heap ∧ m'.env = m.env := by
  unfold loadFile at h
  split at h
  · cases h
  · obtain ⟨w, _, hw, h⟩ := outcome_bind_eq_ok h
    cases hw
    split at h
    · cases h
    · next p _ =>
      obtain ⟨source, m₂, hsource, h⟩ := outcome_bind_eq_ok h
      obtain rfl : m = m₂ := (machine_readSource p).symm.trans (congrArg Prod.snd hsource)
      obtain ⟨_, _, henv, h⟩ := outcome_bind_eq_ok h
      cases henv
      obtain ⟨_, _, hclone, h⟩ := outcome_bind_eq_ok h
      cases hclone
      obtain ⟨m₃, hinside, hmachine⟩ := exists_of_inside h
      obtain ⟨_, m₁, hrun, hbound⟩ := outcome_bind_eq_ok hinside
      cases hbound
      subst hmachine
      exact ⟨config.withScript p, p, source, _, hrun, rfl, rfl, rfl⟩

/-! ### Native functions that are called -/

/-- The values of the arguments of a native function, if it may be called. -/
def nativeArguments (ev : Evaluator) (config : Config) (f : Native) (args : List Node) :
    Eval (List Value) := do
  checkArity f.name f.params args.length
  match f.refusal? with
  | some cause => fail cause
  | none => evaluateAll ev config args

/-- A native function is applied to the values of its arguments. -/
theorem outcome_callNative [Host.Limits] (ev : Evaluator) (config : Config) (f : Native)
    (args : List Node) (m : Machine) :
    (callNative ev config f args).outcome m =
      (nativeArguments ev config f args >>= f.apply).outcome m := by
  unfold callNative nativeArguments
  rw [bind_assoc]
  congr 2
  funext _
  cases f.refusal? with
  | some cause => rfl
  | none => rfl

theorem keeps_nativeArguments {R : Boundary} {ev' : Evaluator} (hev : Complies R ev ev')
    (f : Native) {args : List Node} (hargs : ∀ a ∈ args, Fit R m.heap.size a) :
    Keeps R (knownEnv R) m (nativeArguments ev config f args) (nativeArguments ev' config f args)
      fun n vs => ∀ v ∈ vs, Known R n v := by
  refine (keeps_checkArity _ _ _).bind fun _ m₁ h₁ _ => ?_
  cases f.refusal? with
  | some cause => exact keeps_fail _
  | none => exact keeps_evaluateAll hev fun a ha => (hargs a ha).mono h₁.size

/-- The arguments of a native function that is called as a property: a method gets its object first. -/
def receiverFirst (h : Heap) (a : Address) (name : String) (args : List Node) (line : Int) :
    List Node :=
  if (h.get a).methods.contains name then .literal (.object a) line :: args else args

theorem fit_receiverFirst {h : Heap} {a : Address} {name : String} {args : List Node} {line : Int}
    {n : Nat} (ha : Known .clear n (.object a)) (hargs : ∀ arg ∈ args, arg.Plain) :
    ∀ arg ∈ receiverFirst h a name args line, Fit .clear n arg := by
  intro arg harg
  unfold receiverFirst at harg
  split at harg
  · rcases List.mem_cons.mp harg with rfl | harg
    · exact fun _ => .inr ⟨_, line, rfl, ha⟩
    · exact fit_of_plain fun _ => hargs arg harg
  · exact fit_of_plain fun _ => hargs arg harg

/-- The native function that a node applies on a machine, the values that it is applied to, and the
machine that it is applied on. -/
inductive Applies (ev : Evaluator) (config : Config) (m : Machine) :
    Node → Native → List Value → Machine → Prop where
  | named {callee : String} {f : Native} {args : List Node} {line : Int} {vs : List Value}
      {m' : Machine} :
      m.env.get? callee = some (.native f) →
      (nativeArguments ev config f args).outcome m = (.ok vs, m') →
      Applies ev config m (.call callee args line) f vs m'
  | property {object : Node} {callee : String} {f : Native} {args : List Node} {line : Int}
      {a : Address} {vs : List Value} {m₁ m' : Machine} :
      (memberOf ev config object callee).outcome m = (.ok (a, .native f), m₁) →
      (nativeArguments ev config f (receiverFirst m₁.heap a callee args line)).outcome m₁ =
        (.ok vs, m') →
      Applies ev config m (.methodCall object callee args line) f vs m'

/-- A node that applies a native function does what the function does. -/
theorem Applies.outcome_evaluateNode [Host.Limits] {node : Node} {f : Native} {vs : List Value}
    (h : Applies ev config m node f vs m') :
    (evaluateNode ev config node).outcome m = (f.apply vs).outcome m' := by
  cases h with
  | @named callee _ args line _ _ hname hargs =>
    change (callNamed ev config callee args).outcome m = _
    rw [callNamed, outcome_env_bind, hname]
    simp only
    rw [outcome_callNative, outcome_bind, hargs]
  | @property object callee _ args line a _ m₁ _ hmember hargs =>
    change (callMember ev config object callee args line).outcome m = _
    rw [callMember, outcome_bind, hmember]
    simp only
    rw [outcome_object_bind, outcome_callNative]
    change (nativeArguments ev config f (receiverFirst m₁.heap a callee args line) >>=
      f.apply).outcome m₁ = _
    rw [outcome_bind, hargs]

/-! ### What an import binds -/

/-- An object with the members of an import is separate from what its members are separate from. -/
theorem separate_namespace {h : Heap} {members : List (String × Value)} {w : Value}
    (hheap : HeapKnown .clear h) (hw : Known .clear h.size w)
    (hmembers : ∀ member ∈ members, Known .clear h.size member.2)
    (hsep : ∀ member ∈ members, Separate h member.2 w) :
    Separate (h.alloc { properties := Table.ofList members }).2 (.object h.size) w := by
  rintro a b c ha rfl hac hbc
  cases ha
  have hold : ∀ {d c}, Known .clear h.size (.object d) →
      ((h.alloc { properties := Table.ofList members }).2.Reaches d c ↔ h.Reaches d c) := fun hd =>
    Heap.reaches_iff fun c hdc => Heap.get?_alloc_of_lt _ (hheap.reaches hd hdc trivial).1
  have hbc := (hold hw).mp hbc
  rcases Relation.ReflTransGen.cases_head hac with rfl | ⟨d, hd, hdc⟩
  · exact Nat.lt_irrefl _ (hheap.reaches hw hbc trivial).1
  · -- What the object refers to is a member.
    unfold Heap.RefersTo at hd
    rw [Heap.get_alloc_self] at hd
    obtain ⟨entry, hentry, hvalue⟩ := Object.mem_references.mp hd
    have hmem := Table.mem_ofList hentry
    have hdknown : Known .clear h.size (.object d) := hvalue ▸ hmembers entry hmem
    exact hsep entry hmem d b c hvalue rfl ((hold hdknown).mp hdc) hbc

/-- What an import binds stays separate, if its members are. -/
theorem moved_bindImport (asName : Option String) (name : String) {members : List (String × Value)}
    (hheap : HeapKnown .clear m.heap) (henv : (knownEnv .clear).holds m.heap.size m.env)
    (hmembers : ∀ member ∈ members, Known .clear m.heap.size member.2)
    (houter : ∀ x v y w, (x, v) ∈ members → m.env.get? y = some w → Separate m.heap v w) :
    Effects permits m.heap ((bindImport asName name members).outcome m).2.heap ∧
      (NamesSeparate m.heap m.env →
        (∀ x v y w, x ≠ y → (x, v) ∈ members → (y, w) ∈ members → Separate m.heap v w) →
        NamesSeparate ((bindImport asName name members).outcome m).2.heap
          ((bindImport asName name members).outcome m).2.env) := by
  unfold bindImport
  split
  · exact ⟨.refl, fun hsep hinner => hsep.update hinner houter⟩
  · have he : Effects permits m.heap (m.heap.alloc { properties := Table.ofList members }).2 :=
      .single (.make (objectKnown_ofList hmembers) fun harray => by cases harray)
    refine ⟨he, fun hsep _ => (hsep.effects he hheap henv).define fun y w _ hw => ?_⟩
    refine separate_namespace hheap (knownEnv_get? henv hw) hmembers fun member hmember => ?_
    exact houter member.1 member.2 y w hmember hw

/-- The members of a package are no objects. -/
theorem ne_object_of_importable {name : String} {members : List (String × Value)}
    (h : importable? config name = some members) :
    ∀ member ∈ members, ∀ a, member.2 ≠ .object a := by
  -- They may be met behind the boundary that hides all objects.
  intro member hmember a ha
  have hknown : Known (.only fun _ => False) 0 member.2 := known_importable h member hmember
  rw [ha] at hknown
  exact Nat.not_lt_zero a (hknown trivial).1

/-! ### Constructs -/

/-- An evaluator that keeps every boundary, and moves the machine from where all that can be met is
there. -/
structure Advances (permits : Permission) (ev : Evaluator) : Prop where
  complies : ∀ R, Complies R ev ev
  moved : ∀ p : Point, p.Known → Moved permits p.machine (ev.answer p).2

section Constructs

variable (hev : Advances permits ev)

include hev

theorem Advances.moves {node : Node} (hnode : Fit .clear m.heap.size node) :
    Moves permits m (ev config node) :=
  fun hheap henv => hev.moved ⟨config, node, m⟩ ⟨hnode, hheap, henv⟩

theorem moves_evaluateAll {nodes : List Node} (hnodes : ∀ n ∈ nodes, Fit .clear m.heap.size n) :
    Moves permits m (evaluateAll ev config nodes) := by
  induction nodes generalizing m with
  | nil => exact moves_pure _
  | cons node rest ih =>
    have hnode := hnodes node List.mem_cons_self
    refine (hev.moves hnode).bind (hev.complies _ _ _ _ hnode) fun _ m₁ _ h₁ _ => ?_
    have hrest : ∀ n ∈ rest, Fit .clear m₁.heap.size n := fun n hn =>
      (hnodes n (List.mem_cons_of_mem _ hn)).mono h₁.size
    exact (ih hrest).bind (keeps_evaluateAll (hev.complies _) hrest) fun _ _ _ _ _ => moves_pure _

theorem moves_runBlock {nodes : List Node} (hnodes : ∀ n ∈ nodes, n.Plain) :
    Moves permits m (runBlock ev config nodes) := by
  induction nodes generalizing m with
  | nil => exact moves_pure _
  | cons statement rest ih =>
    refine (moves_countStatement statement).bind (keeps_countStatement _ _) fun _ m₁ _ _ _ => ?_
    have hstatement : Fit .clear m₁.heap.size statement :=
      fit_of_plain fun _ => hnodes statement List.mem_cons_self
    refine (hev.moves hstatement).bind (hev.complies _ _ _ _ hstatement) fun _ _ _ _ _ => ?_
    exact ih fun n hn => hnodes n (List.mem_cons_of_mem _ hn)

theorem moves_runBody {passesOver : Bool} {nodes : List Node} (hnodes : ∀ n ∈ nodes, n.Plain) :
    Moves permits m (runBody ev config passesOver nodes) := by
  induction nodes generalizing m with
  | nil => exact moves_pure _
  | cons statement rest ih =>
    refine (moves_countStatement statement).bind (keeps_countStatement _ _) fun _ m₁ _ _ _ => ?_
    have hstatement : Fit .clear m₁.heap.size statement :=
      fit_of_plain fun _ => hnodes statement List.mem_cons_self
    have hkeeps := hev.complies .clear config statement m₁ hstatement
    have hrest := fun {m} => ih (m := m) fun n hn => hnodes n (List.mem_cons_of_mem _ hn)
    refine ((hev.moves hstatement).catchReturn hkeeps).bind (keeps_catchReturn hkeeps)
      fun result _ _ _ _ => ?_
    cases result with
    | ok _ => exact hrest
    | error value =>
      cases passesOver with
      | true => exact hrest
      | false => exact moves_pure _

theorem moves_runStatements (failure : Option Failure) {nodes : List Node}
    (hnodes : ∀ n ∈ nodes, n.Plain) : Moves permits m (runStatements ev config failure nodes) := by
  induction nodes generalizing m with
  | nil =>
    cases failure with
    | none => exact moves_pure _
    | some failure => exact moves_throw _
  | cons statement rest ih =>
    have hstatement : Fit .clear m.heap.size statement :=
      fit_of_plain fun _ => hnodes statement List.mem_cons_self
    refine (hev.moves hstatement).bind (hev.complies _ _ _ _ hstatement) fun _ _ _ _ _ => ?_
    exact ih fun n hn => hnodes n (List.mem_cons_of_mem _ hn)

theorem moves_runTopLevel (failure : Option Failure) {line : Int} {nodes : List Node}
    (hnodes : ∀ n ∈ nodes, n.Plain) :
    Moves permits m (runTopLevel ev config failure line nodes) := by
  induction nodes generalizing m line with
  | nil =>
    cases failure with
    | none => exact moves_pure _
    | some failure => exact (moves_throw _).overflowAt line
  | cons statement rest ih =>
    have hstatement : Fit .clear m.heap.size statement :=
      fit_of_plain fun _ => hnodes statement List.mem_cons_self
    refine ((hev.moves hstatement).overflowAt _).bind
      (keeps_overflowAt _ (hev.complies _ _ _ _ hstatement)) fun _ _ _ _ _ => ?_
    exact ih fun n hn => hnodes n (List.mem_cons_of_mem _ hn)

/-! ### Calls -/

theorem moves_callFunction {passesOver : Bool} {name : String} (params : List String)
    {body args : List Node} (hbody : ∀ n ∈ body, n.Plain) (hargs : ∀ a ∈ args, a.Plain) :
    Moves permits m (callFunction ev config passesOver name params body args) := by
  unfold callFunction
  refine (moves_checkArity _ _ _).bind (keeps_checkArity _ _ _) fun _ m₁ _ _ _ => ?_
  refine moves_env.bind keeps_env fun e m₂ _ _ he => ?_
  refine (moves_clone he).bind (keeps_clone he) fun callEnv m₃ _ _ hcall => ?_
  refine (moves_clone hcall).bind (keeps_clone hcall) fun argEnv m₄ _ h₄ harg => ?_
  have hfit : ∀ a ∈ args, Fit .clear m₄.heap.size a := fun a ha => fit_of_plain fun _ => hargs a ha
  refine ((moves_evaluateAll hev (m := { m₄ with env := argEnv }) hfit).inside harg).bind
    (keeps_inside harg (keeps_evaluateAll (hev.complies _) hfit)) fun values m₅ _ h₅ hvalues => ?_
  have hcall₅ := (knownEnv .clear).mono (Nat.le_trans h₄.size h₅.size) hcall
  refine (moves_bindArguments params hvalues).bind (keeps_bindArguments params hcall₅ hvalues)
    fun bodyEnv m₆ _ _ hbodyEnv => ?_
  exact (moves_runBody hev hbody).inFrame.inside hbodyEnv

theorem moves_nativeArguments (f : Native) {args : List Node}
    (hargs : ∀ a ∈ args, Fit .clear m.heap.size a) :
    Moves permits m (nativeArguments ev config f args) := by
  refine (moves_checkArity _ _ _).bind (keeps_checkArity _ _ _) fun _ m₁ _ h₁ _ => ?_
  cases f.refusal? with
  | some cause => exact moves_fail _
  | none => exact moves_evaluateAll hev fun a ha => (hargs a ha).mono h₁.size

theorem moves_callNative [Host.Limits] (f : Native) {args : List Node}
    (hargs : ∀ a ∈ args, Fit .clear m.heap.size a)
    (hpermits : ∀ vs m', (nativeArguments ev config f args).outcome m = (.ok vs, m') →
      permits.allows m'.heap f vs) : Moves permits m (callNative ev config f args) := by
  have happly := (moves_nativeArguments hev f hargs).bind
    (keeps_nativeArguments (hev.complies _) f hargs) (k := f.apply)
    fun vs m' hout _ hvs hheap henv => by
      obtain ⟨-, hkept⟩ := keeps_native (E := sameEnv m'.env) f hvs hheap rfl
      exact .of_effects (effects_native f hheap hvs (hpermits vs m' hout)) hkept.env hheap henv
  intro hheap henv
  rw [outcome_callNative]
  exact happly hheap henv

theorem moves_callNamed [Host.Limits] (name : String) {args : List Node} {line : Int}
    (hargs : ∀ a ∈ args, a.Plain)
    (hpermits : ∀ f vs m', Applies ev config m (.call name args line) f vs m' →
      permits.allows m'.heap f vs) : Moves permits m (callNamed ev config name args) := by
  intro hheap henv
  unfold callNamed
  rw [outcome_env_bind]
  revert hheap henv
  change Moves permits m _
  split
  · exact moves_fail _
  · next fname params body hname =>
    intro hheap henv
    have hbody := knownEnv_get? henv hname trivial
    exact moves_callFunction hev params hbody hargs hheap henv
  · next f hname =>
    refine moves_callNative hev f (fun a ha => fit_of_plain fun _ => hargs a ha) ?_
    exact fun vs m' hout => hpermits f vs m' (.named hname hout)
  · exact moves_fail _

theorem moves_resolveObject {node : Node} (hnode : Fit .clear m.heap.size node) :
    Moves permits m (resolveObject ev config node) := by
  have haddress : ∀ {m} value, Moves permits m (addressOf value) := by
    intro m value
    unfold addressOf
    split
    · exact moves_pure _
    · exact (moves_display _).bind (keeps_display _) fun _ _ _ _ _ => moves_fail _
  unfold resolveObject
  split
  · refine moves_env.bind keeps_env fun e _ _ _ _ => ?_
    split
    · exact haddress _
    · exact moves_fail _
  · exact (hev.moves hnode).bind (hev.complies _ _ _ _ hnode) fun value _ _ _ _ => haddress value

theorem moves_memberOf {node : Node} (name : String) (hnode : Fit .clear m.heap.size node) :
    Moves permits m (memberOf ev config node name) := by
  refine (moves_resolveObject hev hnode).bind (keeps_resolveObject (hev.complies _) hnode)
    fun a m₁ _ _ ha => ?_
  refine (moves_object a).bind (keeps_object ha) fun o _ _ _ _ => ?_
  split
  · exact moves_pure _
  · exact moves_fail _

/-- Up to where a native function is applied there are only effects, and all that can be met there is
there, as are the values that it is applied to. -/
theorem Applies.moved {node : Node} {f : Native} {vs : List Value}
    (h : Applies ev config m node f vs m') (hnode : Fit .clear m.heap.size node)
    (hheap : HeapKnown .clear m.heap) (henv : (knownEnv .clear).holds m.heap.size m.env) :
    Moved permits m m' ∧ (knownEnv .clear).holds m'.heap.size m'.env ∧
      HeapKnown .clear m'.heap ∧ ∀ v ∈ vs, Known .clear m'.heap.size v := by
  have hplain : node.Plain := by
    cases h <;> exact hnode.plain (by simp) trivial
  have happlied : ∀ {m₁ args}, (∀ arg ∈ args, Fit .clear m₁.heap.size arg) →
      HeapKnown .clear m₁.heap → (knownEnv .clear).holds m₁.heap.size m₁.env →
      (nativeArguments ev config f args).outcome m₁ = (.ok vs, m') →
      Moved permits m₁ m' ∧ (knownEnv .clear).holds m'.heap.size m'.env ∧
        HeapKnown .clear m'.heap ∧ ∀ v ∈ vs, Known .clear m'.heap.size v := by
    intro m₁ args hargs hheap henv harguments
    have hmoves : Moves permits m₁ (nativeArguments ev config f args) :=
      moves_nativeArguments hev f hargs
    have hkeeps : KeepsClear m₁ (nativeArguments ev config f args) _ :=
      keeps_nativeArguments (hev.complies .clear) f hargs
    have hmoved := hmoves hheap henv
    obtain ⟨-, hkept⟩ := hkeeps hheap henv
    rw [harguments] at hmoved hkept
    exact ⟨hmoved, hkept.env, hkept.heap, hkept.ends⟩
  cases h with
  | named _ harguments =>
    exact happlied (fun a ha => fit_of_plain fun _ => hplain.children ha) hheap henv harguments
  | @property object name _ args line a _ m₁ _ hmember harguments =>
    have hobject : Fit .clear m.heap.size object :=
      fit_of_plain fun _ => hplain.children List.mem_cons_self
    have hmoves : Moves permits m (memberOf ev config object name) :=
      moves_memberOf hev name hobject
    have hkeeps : KeepsClear m (memberOf ev config object name) _ :=
      keeps_memberOf (hev.complies .clear) name hobject
    have hmoved := hmoves hheap henv
    obtain ⟨-, hkept⟩ := hkeeps hheap henv
    rw [hmember] at hmoved hkept
    have hargs : ∀ arg ∈ args, arg.Plain := fun a ha => hplain.children (List.mem_cons_of_mem _ ha)
    obtain ⟨hmoved', hknown⟩ := happlied (fit_receiverFirst hkept.ends.1 hargs) hkept.heap hkept.env
      harguments
    exact ⟨hmoved.trans hmoved', hknown⟩

section

variable [Host.Limits]

theorem moves_callMember {node : Node} (name : String) {args : List Node} (line : Int)
    (hnode : Fit .clear m.heap.size node) (hargs : ∀ a ∈ args, a.Plain)
    (hpermits : ∀ f vs m', Applies ev config m (.methodCall node name args line) f vs m' →
      permits.allows m'.heap f vs) : Moves permits m (callMember ev config node name args line) := by
  refine (moves_memberOf hev name hnode).bind (keeps_memberOf (hev.complies _) name hnode)
    fun member m₁ hmember _ hknown => ?_
  obtain ⟨a, member⟩ := member
  cases member with
  | native f =>
    have hcall : Moves permits m₁ (callNative ev config f (receiverFirst m₁.heap a name args line)) := by
      exact moves_callNative hev f (fit_receiverFirst hknown.1 hargs) fun vs m' hout =>
        hpermits f vs m' (.property hmember hout)
    exact hcall
  | function fname params body => exact moves_callFunction hev params (hknown.2 trivial) hargs
  | _ => exact moves_fail _

/-! ### Imports -/

theorem moves_runModule (p : Host.Path) (source : String) :
    Moves permits m (runModule ev config p source) :=
  (moves_runStatements hev _ (Source.parse_plain source)).inFrame.blameFile p

theorem moves_loadFile (target : String) : Moves permits m (loadFile ev config target) := by
  unfold loadFile
  split
  · exact moves_crash _
  · refine moves_world.bind keeps_world fun w _ _ _ _ => ?_
    split
    · exact moves_crash _
    · next p _ =>
      refine (moves_readSource p).bind (keeps_readSource p) fun source _ _ _ _ => ?_
      refine moves_env.bind keeps_env fun e _ _ _ he => ?_
      refine (moves_clone he).bind (keeps_clone he) fun moduleEnv m₃ _ _ hmodule => ?_
      refine Moves.inside ?_ hmodule
      refine (moves_runModule hev p source).bind (keeps_runModule (hev.complies _) p source)
        fun _ _ _ _ _ => ?_
      exact moves_env.bind keeps_env fun _ _ _ _ _ => moves_pure _

/-- What a file binds is separate from everything that the environment holds, and its names are
separate if those of the environment are. -/
theorem separate_of_loadFile {target : String} {members : List (String × Value)}
    (hheap : HeapKnown .clear m.heap) (henv : (knownEnv .clear).holds m.heap.size m.env)
    (h : (loadFile ev config target).outcome m = (.ok members, m')) :
    m'.env = m.env ∧
      (∀ x v y w, (x, v) ∈ members → m.env.get? y = some w → Separate m'.heap v w) ∧
      (NamesSeparate m.heap m.env →
        ∀ x v y w, x ≠ y → (x, v) ∈ members → (y, w) ∈ members → Separate m'.heap v w) := by
  obtain ⟨config', p, source, m₁, hrun, rfl, hheap', henv'⟩ := exists_of_loadFile h
  have hbound : ∀ {x v}, (x, v) ∈ m₁.env.boundSinceCreation → m₁.env.get? x = some v := by
    intro x v hmem
    obtain ⟨name, -, hname⟩ := List.mem_filterMap.mp hmem
    obtain ⟨w, hw, heq⟩ := Option.map_eq_some_iff.mp hname
    cases heq
    exact hw
  have hvs : ∀ v ∈ m.env.vars.entries.map Prod.snd, Known .clear m.heap.size v := by
    intro v hv
    obtain ⟨binding, hbinding, rfl⟩ := List.mem_map.mp hv
    exact henv binding hbinding
  have hobjects := hheap.copied hvs trivial
  rw [hheap']
  refine ⟨henv', fun x v y w hx hw => ?_, fun hsep x v y w hxy hx hy => ?_⟩
  · -- The file runs behind the boundary that hides all objects there were.
    have hkeeps : Keeps (.below m.heap.size) (knownEnv (.below m.heap.size))
        { m with env := (m.env.clone m.heap).1, heap := (m.env.clone m.heap).2 }
        (runModule ev config' p source) (runModule ev config' p source) fun _ _ => True :=
      keeps_runModule (hev.complies _) p source
    obtain ⟨-, hkept⟩ := hkeeps ((heapKnown_below m.heap).copy fun _ => hobjects).known
      (knownEnv_clone (fun _ _ ha => ha) fun _ => henv)
    rw [hrun] at hkept
    have hold : ∀ d, d < m.heap.size → m₁.heap.get? d = m.heap.get? d := fun d hd =>
      (hkept.grows.hidden trivial d hd).trans (Heap.get?_copy_of_lt hd)
    refine separate_of_lt_of_le (n := m.heap.size) (fun a c ha hac => ?_) fun b c hb hbc => ?_
    · have hv : Known (.below m.heap.size) m₁.heap.size (.object a) :=
        ha ▸ knownEnv_get? hkept.env (hbound hx)
      exact Nat.le_of_not_lt (hkept.heap.reaches hv hac trivial).2
    · have hw' : Known .clear m.heap.size (.object b) := hb ▸ knownEnv_get? henv hw
      refine Heap.lt_of_reaches hold (fun d hbd => ?_) hbc
      exact (hheap.reaches hw' hbd trivial).1
  · have hmoves : Moves permits
        { m with env := (m.env.clone m.heap).1, heap := (m.env.clone m.heap).2 }
        (runModule ev config' p source) := moves_runModule hev p source
    have hmoved := hmoves (hheap.copy fun _ => hobjects).known
      (knownEnv_clone (fun hdrawn => (hheap hdrawn).1) fun _ => henv)
    rw [hrun] at hmoved
    have hclone := hsep.clone hheap henv
    exact hmoved.separate hclone x y v w hxy (hbound hx) (hbound hy)

theorem moves_importTarget (target : Quotation) (asName : Option String) :
    Moves permits m (importTarget ev config target asName) := by
  intro hheap henv
  unfold importTarget
  simp only
  split
  · have hmoves : Moves permits m (loadFile ev config (Source.unquote target.raw)) :=
      moves_loadFile hev _
    have hkeeps : KeepsClear m (loadFile ev config (Source.unquote target.raw)) _ :=
      keeps_loadFile (hev.complies .clear) _
    have hmoved := hmoves hheap henv
    obtain ⟨-, hkept⟩ := hkeeps hheap henv
    rw [outcome_bind]
    revert hmoved hkept
    -- The file leaves the environment as it was, so the members are bound beside all that it holds.
    cases hload : (loadFile ev config (Source.unquote target.raw)).outcome m with
    | mk r m₁ =>
      intro hmoved hkept
      cases r with
      | error i => exact hmoved
      | ok members =>
        obtain ⟨henv₁, houter, hinner⟩ := separate_of_loadFile hev hheap henv hload
        rw [← henv₁] at houter
        obtain ⟨he, hsep⟩ := moved_bindImport asName _ hkept.heap hkept.env hkept.ends houter
        exact ⟨hmoved.effects.trans he, fun h => hsep (hmoved.separate h) (hinner h)⟩
  · split
    · exact moves_fail _ hheap henv
    · next members hmembers =>
      have hne := ne_object_of_importable hmembers
      obtain ⟨he, hsep⟩ := moved_bindImport asName _ hheap henv (known_importable hmembers)
        fun x v y w hx _ => separate_of_ne_object (hne (x, v) hx)
      exact ⟨he, fun h => hsep h fun x v y w _ hx _ => separate_of_ne_object (hne (x, v) hx)⟩

end

/-! ### Nodes -/

theorem moves_evaluateProperties {properties : List (String × Node)}
    (hproperties : ∀ p ∈ properties, p.2.Plain) :
    Moves permits m (evaluateProperties ev config properties) := by
  induction properties generalizing m with
  | nil => exact moves_pure _
  | cons property rest ih =>
    obtain ⟨key, node⟩ := property
    have hnode : Fit .clear m.heap.size node :=
      fit_of_plain fun _ => hproperties (key, node) List.mem_cons_self
    have hrest : ∀ p ∈ rest, p.2.Plain := fun p hp => hproperties p (List.mem_cons_of_mem _ hp)
    refine (hev.moves hnode).bind (hev.complies _ _ _ _ hnode) fun value _ _ _ hvalue => ?_
    refine (moves_copyValue hvalue).bind (keeps_copyValue hvalue) fun copy _ _ _ _ => ?_
    exact (ih hrest).bind (keeps_evaluateProperties (hev.complies _) fun _ => hrest)
      fun _ _ _ _ _ => moves_pure _

theorem moves_evaluateBinding (name : String) {node : Node} (hnode : Fit .clear m.heap.size node) :
    Moves permits m (evaluateBinding ev config name node) := by
  unfold evaluateBinding
  split
  · exact moves_fail _
  · split
    · refine moves_env.bind keeps_env fun e _ _ _ he => ?_
      refine (moves_ofCause _).bind (keeps_ofCause (P := Known .clear) fun value hvalue => ?_)
        fun _ _ _ _ hvalue => moves_bindCopy hvalue
      unfold Environment.require at hvalue
      split at hvalue
      · next v hv =>
        cases hvalue
        exact knownEnv_get? he hv
      · cases hvalue
    · exact (hev.moves hnode).bind (hev.complies _ _ _ _ hnode) fun _ _ _ _ hvalue =>
        moves_bindCopy hvalue

/-- A node moves the machine, if the evaluator for the nodes inside it does and the native function
that it applies is permitted. -/
theorem moves_evaluateNode [Host.Limits] {node : Node} (hnode : Fit .clear m.heap.size node)
    (hpermits : ∀ f vs m', Applies ev config m node f vs m' → permits.allows m'.heap f vs) :
    Moves permits m (evaluateNode ev config node) := by
  -- Every step is given twice: by what it does to the machine, and by the boundary that it keeps,
  -- which is what the step behind it may start from.
  cases node with
  | literal value line => exact moves_pure _
  | text quotation => exact moves_pure _
  | identifier name line => exact moves_env.bind keeps_env fun _ _ _ _ _ => moves_pure _
  | record properties line =>
    have hproperties : ∀ p ∈ properties, p.2.Plain := fun p hp =>
      (hnode.plain (by simp) trivial).children (List.mem_map.mpr ⟨p, hp, rfl⟩)
    refine (moves_evaluateProperties hev hproperties).bind
      (keeps_evaluateProperties (hev.complies _) fun _ => hproperties) fun _ _ _ _ hentries => ?_
    exact moves_alloc (objectKnown_ofList hentries) fun harray => by cases harray
  | binary op left right line =>
    have hleft : ∀ {n}, Fit .clear n left := hnode.child (by simp) (by simp [Node.children])
    have hright : ∀ {n}, Fit .clear n right := hnode.child (by simp) (by simp [Node.children])
    refine (hev.moves hleft).bind (hev.complies _ _ _ _ hleft) fun _ _ _ _ _ => ?_
    refine (hev.moves hright).bind (hev.complies _ _ _ _ hright) fun _ _ _ _ _ => ?_
    exact moves_heap.bind keeps_heap fun _ _ _ _ _ => moves_ofExcept _
  | isPresent value line =>
    have hvalue : Fit .clear m.heap.size value := hnode.child (by simp) (by simp [Node.children])
    exact (hev.moves hvalue).bind (hev.complies _ _ _ _ hvalue) fun _ _ _ _ _ => moves_pure _
  | call name args line =>
    exact moves_callNamed hev name (fun a ha => (hnode.plain (by simp) trivial).children ha) hpermits
  | property object name line =>
    have hobject : Fit .clear m.heap.size object := hnode.child (by simp) (by simp [Node.children])
    exact (moves_memberOf hev name hobject).bind (keeps_memberOf (hev.complies _) name hobject)
      fun _ _ _ _ _ => moves_pure _
  | methodCall object name args line =>
    have hobject : Fit .clear m.heap.size object := hnode.child (by simp) (by simp [Node.children])
    refine moves_callMember hev name line hobject (fun a ha => ?_) hpermits
    exact (hnode.plain (by simp) trivial).children (List.mem_cons_of_mem _ ha)
  | binding name value line =>
    have hvalue : Fit .clear m.heap.size value := hnode.child (by simp) (by simp [Node.children])
    exact (moves_evaluateBinding hev name hvalue).bind
      (keeps_evaluateBinding (hev.complies _) name hvalue) fun _ _ _ _ _ => moves_pure _
  | importing target asName line =>
    exact (moves_importTarget hev target asName).bind
      (keeps_importTarget (hev.complies _) target asName) fun _ _ _ _ _ => moves_pure _
  | definition name params body line =>
    have hbody : Known .clear m.heap.size (.function name params body) := fun _ n hn =>
      (hnode.plain (by simp) trivial).children hn
    refine (moves_define fun y w _ _ => separate_of_ne_object ?_).bind (keeps_define hbody)
      fun _ _ _ _ _ => moves_pure _
    exact fun a => by simp
  | conditional condition body line =>
    have hcondition : Fit .clear m.heap.size condition :=
      hnode.child (by simp) (by simp [Node.children])
    have hbody : ∀ n ∈ body, n.Plain := fun n hn =>
      (hnode.plain (by simp) trivial).children (List.mem_cons_of_mem _ hn)
    refine (hev.moves hcondition).bind (hev.complies _ _ _ _ hcondition) fun value _ _ _ _ => ?_
    split
    · exact (moves_runBlock hev hbody).bind (keeps_runBlock (hev.complies _) fun _ => hbody)
        fun _ _ _ _ _ => moves_pure _
    · exact moves_pure _
    · exact moves_fail _
  | returning value line =>
    cases value with
    | none => exact moves_throw _
    | some value =>
      have hvalue : Fit .clear m.heap.size value := hnode.child (by simp) (by simp [Node.children])
      exact (hev.moves hvalue).bind (hev.complies _ _ _ _ hvalue) fun _ _ _ _ _ => moves_throw _
  | unknown => exact moves_fail _

end Constructs

end ModuLang
