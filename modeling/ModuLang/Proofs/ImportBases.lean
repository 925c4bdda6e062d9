import ModuLang.Proofs.EvaluationEffects
import ModuLang.Proofs.StatementBindings

/-!
# The directory that imports start from

A program meets the path of its script in one place: an import looks for its file next to the script
first. So two configurations that differ in the script alone give the same runs, provided that both
scripts lie in one directory. Which directory that is depends on the working directory if a path is
relative, and no step leaves the working directory: a command that does so does it in a process of its
own.

`AgreesIn` relates two steps that have one outcome on every machine with the given working directory and
stay in it. Each construct of the language is taken once, with both configurations, and by induction on
the levels the whole evaluation is. An imported file is where the induction needs all pairs of
configurations: it is run with its own path as the script, and there the two become one.
-/

namespace ModuLang

open Eval Host Library

variable {α β : Type}

/-- The working directory. -/
def Machine.place (m : Machine) : List String := m.world.files.workingDirectory

/-- Two steps have one outcome in a working directory, and stay in it. -/
def AgreesIn (place : List String) (x y : Eval α) : Prop :=
  ∀ m : Machine, m.place = place → x.outcome m = y.outcome m ∧ (x.outcome m).2.place = place

variable {place : List String}

/-! ### Steps -/

section Rules

variable {x y : Eval α}

theorem agrees_pure (a : α) : AgreesIn place (pure a : Eval α) (pure a) :=
  fun _ hm => ⟨rfl, hm⟩

theorem agrees_throw (i : Interrupt) : AgreesIn place (throw i : Eval α) (throw i) :=
  fun _ hm => ⟨rfl, hm⟩

theorem agrees_fail (cause : Cause) : AgreesIn place (fail cause : Eval α) (fail cause) :=
  agrees_throw _

theorem agrees_crash (c : Crash) : AgreesIn place (crash c : Eval α) (crash c) :=
  agrees_throw _

theorem agrees_ofExcept (r : Except Failure α) : AgreesIn place (ofExcept r) (ofExcept r) := by
  cases r with
  | ok a => exact agrees_pure a
  | error failure => exact agrees_throw _

theorem agrees_ofCause (r : Except Cause α) : AgreesIn place (ofCause r) (ofCause r) := by
  cases r with
  | ok a => exact agrees_pure a
  | error cause => exact agrees_throw _

theorem AgreesIn.bind {k l : α → Eval β} (hx : AgreesIn place x y)
    (hk : ∀ a, AgreesIn place (k a) (l a)) : AgreesIn place (x >>= k) (y >>= l) := by
  intro m hm
  obtain ⟨heq, hplace⟩ := hx m hm
  rw [outcome_bind, outcome_bind, ← heq]
  revert hplace
  obtain ⟨r, m'⟩ := x.outcome m
  intro hplace
  cases r with
  | error i => exact ⟨rfl, hplace⟩
  | ok a => exact hk a m' hplace

theorem AgreesIn.tryCatch {h k : Interrupt → Eval α} (hx : AgreesIn place x y)
    (hh : ∀ i, AgreesIn place (h i) (k i)) : AgreesIn place (tryCatch x h) (tryCatch y k) := by
  intro m hm
  obtain ⟨heq, hplace⟩ := hx m hm
  rw [outcome_tryCatch, outcome_tryCatch, ← heq]
  revert hplace
  obtain ⟨r, m'⟩ := x.outcome m
  intro hplace
  cases r with
  | error i => exact hh i m' hplace
  | ok a => exact ⟨rfl, hplace⟩

/-- A change of the machine that leaves its files alone. -/
theorem agrees_modifyGet {f : Machine → α × Machine} (hf : ∀ m, (f m).2.place = m.place) :
    AgreesIn place (modifyGet f : Eval α) (modifyGet f) :=
  fun m hm => ⟨rfl, (hf m).trans hm⟩

theorem agrees_modify {f : Machine → Machine} (hf : ∀ m, (f m).place = m.place) :
    AgreesIn place (modify f : Eval Unit) (modify f) :=
  agrees_modifyGet hf

theorem agrees_heap : AgreesIn place Eval.heap Eval.heap :=
  fun _ hm => ⟨rfl, hm⟩

theorem agrees_env : AgreesIn place Eval.env Eval.env :=
  fun _ hm => ⟨rfl, hm⟩

theorem agrees_object (a : Address) : AgreesIn place (object a) (object a) :=
  fun _ hm => ⟨rfl, hm⟩

theorem agrees_display (v : Value) : AgreesIn place (display v) (display v) :=
  agrees_heap.bind fun h => agrees_ofCause (h.display v)

theorem agrees_alloc (o : Object) : AgreesIn place (alloc o) (alloc o) :=
  agrees_modifyGet fun _ => rfl

theorem agrees_setObject (a : Address) (o : Object) :
    AgreesIn place (setObject a o) (setObject a o) :=
  agrees_modify fun _ => rfl

theorem agrees_copyValue (v : Value) : AgreesIn place (copyValue v) (copyValue v) :=
  agrees_modifyGet fun _ => rfl

theorem agrees_clone (e : Environment) : AgreesIn place (clone e) (clone e) :=
  agrees_modifyGet fun _ => rfl

theorem agrees_define (name : String) (v : Value) : AgreesIn place (define name v) (define name v) :=
  agrees_modify fun _ => rfl

theorem agrees_write (s : String) : AgreesIn place (write s) (write s) :=
  agrees_modify fun _ => rfl

/-- What looks at the world sees one with this working directory. -/
theorem agrees_world_bind {k l : World → Eval α}
    (hk : ∀ w, w.files.workingDirectory = place → AgreesIn place (k w) (l w)) :
    AgreesIn place (Eval.world >>= k) (Eval.world >>= l) :=
  fun m hm => hk m.world hm m hm

theorem agrees_setWorld {w : World} (hw : w.files.workingDirectory = place) :
    AgreesIn place (setWorld w) (setWorld w) :=
  fun _ _ => ⟨rfl, hw⟩

theorem agrees_inside (e : Environment) (hx : AgreesIn place x y) :
    AgreesIn place (inside e x) (inside e y) := by
  intro m hm
  obtain ⟨heq, hplace⟩ := hx { m with env := e } hm
  rw [outcome_inside, outcome_inside, ← heq]
  exact ⟨rfl, hplace⟩

theorem agrees_atLine (line : Int) (hx : AgreesIn place x y) :
    AgreesIn place (atLine line x) (atLine line y) := by
  refine hx.tryCatch fun i => ?_
  split
  · exact agrees_throw _
  · exact agrees_throw _

theorem agrees_catchReturn (hx : AgreesIn place x y) :
    AgreesIn place (catchReturn x) (catchReturn y) := by
  have hvalue : ∀ a, AgreesIn place (pure (Except.ok a) : Eval (Except Value α)) (pure (.ok a)) :=
    fun a => agrees_pure _
  refine (hx.bind hvalue).tryCatch fun i => ?_
  split
  · exact agrees_pure _
  · exact agrees_throw _

theorem agrees_blameFile (p : Path) (hx : AgreesIn place x y) :
    AgreesIn place (blameFile p x) (blameFile p y) := by
  refine hx.tryCatch fun i => ?_
  split
  · split
    · exact agrees_throw _
    · exact agrees_fail _
  · exact agrees_throw _

theorem agrees_overflowAt (line : Int) (hx : AgreesIn place x y) :
    AgreesIn place (overflowAt line x) (overflowAt line y) := by
  refine hx.tryCatch fun i => ?_
  split
  · exact agrees_throw _
  · exact agrees_throw _

end Rules

/-! ### Native functions -/

section Natives

theorem agrees_displayAll (vs : List Value) : AgreesIn place (displayAll vs) (displayAll vs) := by
  have hlist : AgreesIn place (vs.mapM display) (vs.mapM display) := by
    induction vs with
    | nil => exact agrees_pure _
    | cons v vs ih =>
      rw [List.mapM_cons]
      exact (agrees_display v).bind fun _ => ih.bind fun _ => agrees_pure _
  exact hlist.bind fun _ => agrees_pure _

/-- A change of the world that leaves its files alone. -/
theorem agrees_modifyWorld {f : World → α × World} (hf : ∀ w, (f w).2.files = w.files) :
    AgreesIn place (modifyGet fun m => ((f m.world).1, { m with world := (f m.world).2 }) : Eval α)
      (modifyGet fun m => ((f m.world).1, { m with world := (f m.world).2 })) :=
  agrees_modifyGet fun m => congrArg FileSystem.workingDirectory (hf m.world)

theorem agrees_draw : AgreesIn place draw draw := by
  refine agrees_modifyWorld (f := fun w => w.randomBits) fun w => ?_
  have hseed : ∃ seed, w.randomBits.2 = { w with seed } := ⟨_, rfl⟩
  obtain ⟨seed, hseed⟩ := hseed
  rw [hseed]

theorem agrees_builtin (f : Builtin) (args : List Value) :
    AgreesIn place (f.apply args) (f.apply args) := by
  unfold Builtin.apply
  split
  · exact (agrees_displayAll _).bind fun _ => (agrees_write _).bind fun _ => agrees_pure _
  · refine (agrees_displayAll _).bind fun _ => (agrees_write _).bind fun _ => ?_
    exact agrees_world_bind fun w hw => (agrees_setWorld (w := w.readLine.2) hw).bind fun _ =>
      agrees_pure _
  · exact agrees_throw _
  · exact agrees_ofExcept _
  · exact agrees_ofExcept _
  · exact agrees_heap.bind fun h => agrees_ofExcept _
  · exact agrees_pure _

theorem agrees_math (f : MathFunction) (args : List Value) :
    AgreesIn place (f.apply args) (f.apply args) := by
  unfold MathFunction.apply
  split
  any_goals exact agrees_ofExcept _
  · exact agrees_draw.bind fun _ => agrees_pure _
  · exact agrees_pure _

theorem agrees_time (f : TimeFunction) (args : List Value) :
    AgreesIn place (f.apply args) (f.apply args) := by
  unfold TimeFunction.apply
  split
  · exact agrees_world_bind fun w _ => agrees_pure _
  · exact (agrees_ofExcept _).bind fun _ => agrees_pure _
  · exact (agrees_ofExcept _).bind fun _ => agrees_pure _
  · exact agrees_pure _

theorem agrees_pathOf (function : String) (v : Value) :
    AgreesIn place (pathOf function v) (pathOf function v) := by
  unfold pathOf
  split
  · split
    · exact agrees_pure _
    · exact agrees_crash _
  · exact agrees_fail _

theorem agrees_orBlame (r : Except OsError α) : AgreesIn place (orBlame r) (orBlame r) := by
  cases r with
  | ok a => exact agrees_pure a
  | error e => exact agrees_fail _

theorem agrees_readFile (path : Value) : AgreesIn place (readFile path) (readFile path) := by
  refine (agrees_pathOf _ _).bind fun p => agrees_world_bind fun w _ => ?_
  refine (agrees_orBlame _).bind fun bytes => ?_
  split
  · exact agrees_pure _
  · exact agrees_crash _

/-- Storing a file leaves the working directory. -/
theorem workingDirectory_of_store {fs fs' : FileSystem} {spot : List String} {content : List UInt8}
    (h : fs.store spot content = .ok fs') : fs'.workingDirectory = fs.workingDirectory := by
  unfold FileSystem.store at h
  split at h
  · cases h
    rfl
  · split at h
    · cases h
      rfl
    · cases h
  · cases h
    rfl

/-- What goes on with a file system after storing a file in it. -/
theorem agrees_store_bind {fs : FileSystem} {spot : List String} {content : List UInt8}
    {k : FileSystem → Eval α} (hfs : fs.workingDirectory = place)
    (hk : ∀ fs', fs'.workingDirectory = place → AgreesIn place (k fs') (k fs')) :
    AgreesIn place (orBlame (fs.store spot content) >>= k) (orBlame (fs.store spot content) >>= k) := by
  cases hstore : fs.store spot content with
  | ok fs' => exact hk fs' ((workingDirectory_of_store hstore).trans hfs)
  | error e => exact agrees_fail _

theorem agrees_writeFile (function : String) (isAppended : Bool) (path content : Value) :
    AgreesIn place (writeFile function isAppended path content)
      (writeFile function isAppended path content) := by
  refine (agrees_pathOf _ _).bind fun p => agrees_world_bind fun w hw => ?_
  refine (agrees_orBlame _).bind fun spot => agrees_store_bind hw fun opened hopened => ?_
  refine (agrees_setWorld hopened).bind fun _ => (agrees_display _).bind fun text => ?_
  refine agrees_store_bind hopened fun written hwritten => ?_
  exact (agrees_setWorld hwritten).bind fun _ => agrees_pure _

theorem agrees_applyFile (f : FileFunction) (args : List Value) :
    AgreesIn place (applyFile f args) (applyFile f args) := by
  unfold applyFile
  split
  · exact agrees_readFile _
  · exact agrees_writeFile _ _ _ _
  · exact agrees_writeFile _ _ _ _
  · exact agrees_pure _

theorem agrees_execute (v : Value) : AgreesIn place (execute v) (execute v) := by
  unfold execute
  split
  · split
    · exact agrees_crash _
    · split
      · exact agrees_fail _
      · refine agrees_world_bind fun w hw => ?_
        -- Whatever the shell does, the directory of the program is the one from before.
        have hadopted : ∀ files, (w.adopt files).files.workingDirectory = place := fun _ => hw
        refine (agrees_setWorld (hadopted _)).bind fun _ => ?_
        split
        · split
          · exact agrees_pure _
          · exact agrees_fail _
        · exact agrees_crash _
  · exact agrees_fail _

theorem agrees_foreignCall (args : List Value) :
    AgreesIn place (foreignCall args) (foreignCall args) := by
  unfold foreignCall
  split
  · split
    · exact agrees_fail _
    · exact agrees_fail _
    · exact agrees_fail _
    · split
      · exact agrees_crash _
      · refine agrees_world_bind fun w _ => ?_
        split
        · exact agrees_fail _
        · split
          · exact agrees_fail _
          · exact agrees_pure _
  · exact agrees_fail _

theorem agrees_arrayAddress (function : String) (v : Value) :
    AgreesIn place (arrayAddress function v) (arrayAddress function v) := by
  unfold arrayAddress
  split
  · exact agrees_pure _
  · exact agrees_fail _

theorem agrees_applyArray (f : ArrayFunction) (args : List Value) :
    AgreesIn place (applyArray f args) (applyArray f args) := by
  have hadd : ∀ function operation array item, AgreesIn place
      (arrayAdd function operation array item) (arrayAdd function operation array item) := by
    intro function operation array item
    refine (agrees_arrayAddress _ _).bind fun a => (agrees_copyValue _).bind fun copy => ?_
    refine (agrees_object a).bind fun o => (agrees_ofCause _).bind fun changed => ?_
    exact (agrees_setObject _ _).bind fun _ => agrees_pure _
  have htake : ∀ function operation array, AgreesIn place
      (arrayTake function operation array) (arrayTake function operation array) := by
    intro function operation array
    refine (agrees_arrayAddress _ _).bind fun a => (agrees_object a).bind fun o => ?_
    exact (agrees_ofCause _).bind fun _ => (agrees_setObject _ _).bind fun _ => agrees_pure _
  unfold applyArray
  split
  · exact agrees_alloc _
  · unfold arrayAt
    split
    · refine (agrees_ofCause _).bind fun key => (agrees_object _).bind fun o => ?_
      split
      · exact agrees_pure _
      · exact agrees_fail _
    · exact agrees_fail _
  · exact hadd _ _ _ _
  · exact htake _ _ _
  · exact htake _ _ _
  · exact hadd _ _ _ _
  · exact agrees_pure _

theorem agrees_jsonSet (receiver key value : Value) :
    AgreesIn place (jsonSet receiver key value) (jsonSet receiver key value) := by
  unfold jsonSet
  split
  · refine (agrees_object _).bind fun o => ?_
    split
    · exact agrees_fail _
    · refine (agrees_copyValue _).bind fun copy => (agrees_object _).bind fun o => ?_
      exact (agrees_setObject _ _).bind fun _ => agrees_pure _
  · exact agrees_fail _
  · exact agrees_fail _

variable [Host.Limits]

theorem agrees_applyJson (f : JsonFunction) (args : List Value) :
    AgreesIn place (applyJson f args) (applyJson f args) := by
  unfold applyJson
  split
  · exact agrees_alloc _
  · unfold jsonStringify
    split
    · refine agrees_heap.bind fun h => (agrees_ofExcept _).bind fun document => ?_
      exact (agrees_ofCause _).bind fun _ => agrees_pure _
    · exact agrees_fail _
  · unfold jsonParse
    split
    · refine (agrees_ofExcept _).bind fun document => ?_
      split
      · exact agrees_modifyGet fun _ => rfl
      · exact agrees_modifyGet fun _ => rfl
      · exact agrees_fail _
    · exact agrees_fail _
  · exact agrees_jsonSet _ _ _
  · exact agrees_pure _

/-- No native function leaves the working directory. -/
theorem agrees_native (f : Native) (args : List Value) :
    AgreesIn place (f.apply args) (f.apply args) := by
  unfold Native.apply
  split
  · exact agrees_builtin _ _
  · exact agrees_math _ _
  · exact agrees_applyFile _ _
  · exact agrees_time _ _
  · exact agrees_applyJson _ _
  · exact agrees_applyArray _ _
  · exact agrees_execute _
  · exact agrees_pure _
  · exact agrees_draw.bind fun _ => agrees_draw.bind fun _ => agrees_pure _
  · exact agrees_foreignCall _

end Natives

/-! ### Constructs -/

/-- Two configurations are the same but for their scripts, and look for imports in the same directory
first. -/
structure Config.SharesBase (place : List String) (c d : Config) : Prop where
  rest : ∀ p, c.withScript p = d.withScript p
  base : ∀ w : World, w.files.workingDirectory = place → baseDirectory c w = baseDirectory d w

namespace Config.SharesBase

variable {c d : Config} (h : c.SharesBase place d)

include h

/-- What does not depend on the script is the same. -/
theorem eq_of_withScript {γ : Type} (f : Config → γ) (hf : ∀ e p, f (e.withScript p) = f e) :
    f c = f d := by
  rw [← hf c {}, h.rest, hf]

theorem onServer : c.onServer = d.onServer :=
  h.eq_of_withScript Config.onServer fun _ _ => rfl

theorem maxBodyStatements : c.maxBodyStatements = d.maxBodyStatements :=
  h.eq_of_withScript Config.maxBodyStatements fun _ _ => rfl

theorem maxCallDepth : c.maxCallDepth = d.maxCallDepth :=
  h.eq_of_withScript Config.maxCallDepth fun _ _ => rfl

theorem returnFromMethods : c.returnFromMethods = d.returnFromMethods :=
  h.eq_of_withScript Config.returnFromMethods fun _ _ => rfl

theorem resolveSource {w : World} (hw : w.files.workingDirectory = place) (target : Path) :
    resolveSource c w target = resolveSource d w target := by
  unfold ModuLang.resolveSource
  rw [h.base w hw]

theorem importable? (name : String) : importable? c name = importable? d name := by
  unfold ModuLang.importable?
  rw [h.onServer]

end Config.SharesBase

/-- An evaluator gives the same steps with configurations that share their base. -/
def SeesBase (place : List String) (ev : Evaluator) : Prop :=
  ∀ c d : Config, c.SharesBase place d → ∀ node, AgreesIn place (ev c node) (ev d node)

section Constructs

variable {ev : Evaluator} {c d : Config} (hev : SeesBase place ev) (h : c.SharesBase place d)

theorem agrees_checkArity (name : String) (params : List String) (count : Nat) :
    AgreesIn place (checkArity name params count) (checkArity name params count) := by
  unfold checkArity
  split
  · exact agrees_pure _
  · exact agrees_fail _

theorem agrees_bindArguments (e : Environment) (params : List String) (values : List Value) :
    AgreesIn place (bindArguments e params values) (bindArguments e params values) := by
  unfold bindArguments
  split
  · exact (agrees_alloc _).bind fun _ => agrees_pure _
  · exact agrees_pure _

theorem agrees_addressOf (v : Value) : AgreesIn place (addressOf v) (addressOf v) := by
  unfold addressOf
  split
  · exact agrees_pure _
  · exact (agrees_display _).bind fun _ => agrees_fail _

theorem agrees_bindImport (asName : Option String) (name : String)
    (members : List (String × Value)) :
    AgreesIn place (bindImport asName name members) (bindImport asName name members) := by
  unfold bindImport
  split
  · exact agrees_modify fun _ => rfl
  · exact (agrees_alloc _).bind fun _ => agrees_define _ _

include h

theorem agrees_countStatement (statement : Node) :
    AgreesIn place (countStatement c statement) (countStatement d statement) := by
  intro m hm
  unfold countStatement
  rw [h.maxBodyStatements]
  refine ⟨rfl, ?_⟩
  rw [outcome_get_bind]
  split
  · exact hm
  · split
    · rw [outcome_modify_bind]
      split
      · exact hm
      · exact hm
    · exact hm

theorem agrees_inFrame (name : String) (counted : Bool) {x y : Eval α} (hx : AgreesIn place x y) :
    AgreesIn place (inFrame c name counted x) (inFrame d name counted y) := by
  intro m hm
  obtain ⟨heq, hplace⟩ := hx { m with frames := ⟨name, counted, 0⟩ :: m.frames } hm
  rw [outcome_inFrame, outcome_inFrame, ← h.maxCallDepth, ← heq]
  split
  · exact ⟨rfl, hm⟩
  · exact ⟨rfl, hplace⟩

include hev

theorem agrees_evaluateAll (nodes : List Node) :
    AgreesIn place (evaluateAll ev c nodes) (evaluateAll ev d nodes) := by
  induction nodes with
  | nil => exact agrees_pure _
  | cons node rest ih =>
    exact (hev c d h node).bind fun _ => ih.bind fun _ => agrees_pure _

theorem agrees_runBlock (nodes : List Node) :
    AgreesIn place (runBlock ev c nodes) (runBlock ev d nodes) := by
  induction nodes with
  | nil => exact agrees_pure _
  | cons statement rest ih =>
    exact (agrees_countStatement h statement).bind fun _ => (hev c d h statement).bind fun _ => ih

theorem agrees_runBody (passesOver : Bool) (nodes : List Node) :
    AgreesIn place (runBody ev c passesOver nodes) (runBody ev d passesOver nodes) := by
  induction nodes with
  | nil => exact agrees_pure _
  | cons statement rest ih =>
    refine (agrees_countStatement h statement).bind fun _ => ?_
    refine (agrees_catchReturn (hev c d h statement)).bind fun result => ?_
    split
    · exact ih
    · split
      · exact ih
      · exact agrees_pure _

theorem agrees_runStatements (failure : Option Failure) (nodes : List Node) :
    AgreesIn place (runStatements ev c failure nodes) (runStatements ev d failure nodes) := by
  induction nodes with
  | nil =>
    unfold runStatements
    split
    · exact agrees_throw _
    · exact agrees_pure _
  | cons statement rest ih => exact (hev c d h statement).bind fun _ => ih

theorem agrees_callFunction (passesOver : Bool) (name : String) (params : List String)
    (body args : List Node) :
    AgreesIn place (callFunction ev c passesOver name params body args)
      (callFunction ev d passesOver name params body args) := by
  refine (agrees_checkArity _ _ _).bind fun _ => agrees_env.bind fun e => ?_
  refine (agrees_clone e).bind fun callEnv => (agrees_clone callEnv).bind fun argEnv => ?_
  refine (agrees_inside argEnv (agrees_evaluateAll hev h args)).bind fun values => ?_
  refine (agrees_bindArguments callEnv params values).bind fun bodyEnv => ?_
  exact agrees_inside bodyEnv (agrees_inFrame h name true (agrees_runBody hev h passesOver body))

theorem agrees_callNative [Host.Limits] (f : Native) (args : List Node) :
    AgreesIn place (callNative ev c f args) (callNative ev d f args) := by
  refine (agrees_checkArity _ _ _).bind fun _ => ?_
  split
  · exact agrees_fail _
  · exact (agrees_evaluateAll hev h args).bind fun values => agrees_native f values

theorem agrees_callNamed [Host.Limits] (name : String) (args : List Node) :
    AgreesIn place (callNamed ev c name args) (callNamed ev d name args) := by
  refine agrees_env.bind fun e => ?_
  split
  · exact agrees_fail _
  · exact agrees_callFunction hev h _ _ _ _ _
  · exact agrees_callNative hev h _ _
  · exact agrees_fail _

theorem agrees_resolveObject (node : Node) :
    AgreesIn place (resolveObject ev c node) (resolveObject ev d node) := by
  unfold resolveObject
  split
  · refine agrees_env.bind fun e => ?_
    split
    · exact (agrees_pure _).bind agrees_addressOf
    · exact (agrees_fail _).bind agrees_addressOf
  · exact (hev c d h node).bind agrees_addressOf

theorem agrees_memberOf (node : Node) (name : String) :
    AgreesIn place (memberOf ev c node name) (memberOf ev d node name) := by
  refine (agrees_resolveObject hev h node).bind fun a => (agrees_object a).bind fun o => ?_
  split
  · exact agrees_pure _
  · exact agrees_fail _

theorem agrees_callMember [Host.Limits] (node : Node) (name : String) (args : List Node)
    (line : Int) :
    AgreesIn place (callMember ev c node name args line) (callMember ev d node name args line) := by
  refine (agrees_memberOf hev h node name).bind fun member => ?_
  obtain ⟨a, member⟩ := member
  simp only
  split
  · exact (agrees_object a).bind fun o => agrees_callNative hev h _ _
  · rw [← h.returnFromMethods]
    exact agrees_callFunction hev h _ _ _ _ _
  · exact agrees_fail _

/-- With its own path as the script an imported file has the same configuration in both runs. -/
theorem agrees_loadFile [Host.Limits] (target : String) :
    AgreesIn place (loadFile ev c target) (loadFile ev d target) := by
  unfold loadFile
  split
  · exact agrees_crash _
  · refine agrees_world_bind fun w hw => ?_
    rw [h.resolveSource hw]
    split
    · exact agrees_crash _
    · next p _ =>
      have hinner : (c.withScript p).SharesBase place (d.withScript p) := by
        rw [h.rest p]
        exact ⟨fun _ => rfl, fun _ _ => rfl⟩
      have hsource : AgreesIn place (readSource p) (readSource p) := by
        refine agrees_world_bind fun w _ => ?_
        split
        · exact agrees_fail _
        · split
          · exact agrees_pure _
          · exact agrees_fail _
      refine hsource.bind fun source => agrees_env.bind fun e => ?_
      refine (agrees_clone e).bind fun moduleEnv => ?_
      refine agrees_inside moduleEnv ((agrees_blameFile p (agrees_inFrame hinner p.name false ?_)).bind
        fun _ => agrees_env.bind fun _ => agrees_pure _)
      exact agrees_runStatements hev hinner _ _

theorem agrees_importTarget [Host.Limits] (target : Quotation) (asName : Option String) :
    AgreesIn place (importTarget ev c target asName) (importTarget ev d target asName) := by
  unfold importTarget
  simp only
  split
  · exact (agrees_loadFile hev h _).bind fun members => agrees_bindImport _ _ _
  · rw [h.importable?]
    split
    · exact agrees_fail _
    · exact agrees_bindImport _ _ _

theorem agrees_evaluateProperties (properties : List (String × Node)) :
    AgreesIn place (evaluateProperties ev c properties) (evaluateProperties ev d properties) := by
  induction properties with
  | nil => exact agrees_pure _
  | cons property rest ih =>
    refine (hev c d h property.2).bind fun value => (agrees_copyValue value).bind fun _ => ?_
    exact ih.bind fun _ => agrees_pure _

theorem agrees_evaluateBinding (name : String) (node : Node) :
    AgreesIn place (evaluateBinding ev c name node) (evaluateBinding ev d name node) := by
  have hbind : ∀ value : Value, AgreesIn place (copyValue value >>= define name)
      (copyValue value >>= define name) :=
    fun value => (agrees_copyValue value).bind fun copy => agrees_define name copy
  unfold evaluateBinding
  split
  · exact agrees_fail _
  · split
    · exact agrees_env.bind fun e => (agrees_ofCause _).bind hbind
    · exact (hev c d h node).bind hbind

theorem agrees_evaluateNode [Host.Limits] (node : Node) :
    AgreesIn place (evaluateNode ev c node) (evaluateNode ev d node) := by
  -- Only an import looks at the script; every other node hands the configuration on.
  cases node with
  | literal value line => exact agrees_pure _
  | text quotation => exact agrees_pure _
  | identifier name line => exact agrees_env.bind fun e => agrees_pure _
  | record properties line =>
    exact (agrees_evaluateProperties hev h properties).bind fun _ => agrees_alloc _
  | binary op left right line =>
    refine (hev c d h left).bind fun l => (hev c d h right).bind fun r => ?_
    exact agrees_heap.bind fun _ => agrees_ofExcept _
  | isPresent value line => exact (hev c d h value).bind fun _ => agrees_pure _
  | call name args line => exact agrees_callNamed hev h name args
  | property object name line => exact (agrees_memberOf hev h object name).bind fun _ => agrees_pure _
  | methodCall object name args line => exact agrees_callMember hev h object name args line
  | binding name value line =>
    exact (agrees_evaluateBinding hev h name value).bind fun _ => agrees_pure _
  | importing target asName line =>
    exact (agrees_importTarget hev h target asName).bind fun _ => agrees_pure _
  | definition name params body line => exact (agrees_define _ _).bind fun _ => agrees_pure _
  | conditional condition body line =>
    refine (hev c d h condition).bind fun value => ?_
    split
    · exact (agrees_runBlock hev h body).bind fun _ => agrees_pure _
    · exact agrees_pure _
    · exact agrees_fail _
  | returning value line =>
    cases value with
    | none => exact agrees_throw _
    | some value => exact (hev c d h value).bind fun _ => agrees_throw _
  | unknown => exact agrees_fail _

end Constructs

/-! ### Runs -/

variable [Host.Limits]

/-- Evaluation sees nothing of the script but the directory that it lies in. -/
theorem seesBase_evaluate (levels : Nat) : SeesBase place (evaluate levels) := by
  induction levels with
  | zero => exact fun c d _ node => agrees_crash _
  | succ levels ih => exact fun c d h node => agrees_atLine _ (agrees_evaluateNode ih h node)

/-- So do programs. -/
theorem agrees_runProgram {c d : Config} (h : c.SharesBase place d) (source : String) :
    AgreesIn place (runProgram c source) (runProgram d source) := by
  have hrun : ∀ (failure : Option Failure) (nodes : List Node) (line : Int),
      AgreesIn place (runTopLevel (evaluate stackLimit) c failure line nodes)
        (runTopLevel (evaluate stackLimit) d failure line nodes) := by
    intro failure nodes
    induction nodes with
    | nil =>
      intro line
      unfold runTopLevel
      split
      · exact agrees_overflowAt _ (agrees_throw _)
      · exact agrees_pure _
    | cons statement rest ih =>
      intro line
      exact (agrees_overflowAt _ (seesBase_evaluate stackLimit c d h statement)).bind
        fun _ => ih statement.line
  exact hrun _ _ 0

end ModuLang
