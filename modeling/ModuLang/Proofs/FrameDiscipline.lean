import ModuLang.Proofs.FrameSteps
import ModuLang.Proofs.ParameterSeparation
import ModuLang.Proofs.SequentialComposition
import ModuLang.Proofs.EvaluationEffects

/-!
# The discipline of frames

However the evaluation of a node ends, it leaves the frames that it found; only the count of the
innermost one may have grown. So a run that starts without frames has none between its statements,
and at every point of it the frames are those of the calls and imports that are still going on.

Their number never exceeds the limit, where a negative limit is as good as the limit zero. A call, or
the import of a file, fails at its entry exactly if the limit is reached: the frame is pushed behind
the arguments of the call, or behind the reading of the file, and nothing else stands in its way.
-/

namespace ModuLang

open Eval Host

variable {α β : Type} {config : Config} {m : Machine} {p : Point} {levels : Nat}

/-- The error of a call or an import for which there is no room, reported at a line. -/
def tooDeep (line : Int) : Interrupt :=
  .failed (.fault ⟨.recursionTooDeep, line⟩)

/-- The number of frames that a configuration allows. -/
def Config.frameLimit (config : Config) : Nat :=
  config.maxCallDepth.toNat

/-- A step in a new frame, whether there is room for it or not. -/
def Eval.inNewFrame (frame : Frame) (step : Eval α) : Eval α := do
  modify fun m => { m with frames := frame :: m.frames }
  step.afterwards fun m => { m with frames := m.frames.tail }

/-- The body of a call in a new frame. -/
def callInNewFrame (ev : Evaluator) (config : Config) (call : UserCall) (body : Environment) :
    Eval Value :=
  inside body (inNewFrame ⟨call.name, true, 0⟩ (runBody ev config call.passesOver call.body))

/-- The import of a file whose text is run in a new frame. -/
def importInNewFrame [Host.Limits] (ev : Evaluator) (config : Config) (path : Path) (text : String)
    (asName : Option String) (stem : String) (moduleEnv : Environment) : Eval Value := do
  let members ← inside moduleEnv do
    blameFile path (inNewFrame ⟨path.name, false, 0⟩
      (runStatements ev (config.withScript path) (Source.parse text).failure
        (Source.parse text).statements))
    return (← env).boundSinceCreation
  bindImport asName stem members
  return .null

/-! ### Entries -/

theorem outcome_inFrame_of_full {name : String} {counted : Bool} {x : Eval α}
    (h : config.maxCallDepth ≤ m.frames.length) :
    (inFrame config name counted x).outcome m = (.error (tooDeep 0), m) := by
  rw [outcome_inFrame, if_pos h]
  rfl

theorem outcome_inFrame_of_room {name : String} {counted : Bool} {x : Eval α}
    (h : ¬config.maxCallDepth ≤ m.frames.length) :
    (inFrame config name counted x).outcome m = (inNewFrame ⟨name, counted, 0⟩ x).outcome m := by
  rw [outcome_inFrame, if_neg h]
  rfl

/-! A step inside a construct decides how the construct ends: one that fails where it starts makes it
fail there, and one that ends as another one does can take its place. -/

section Congruence

variable {x y : Eval α} {m' : Machine} {i : Interrupt}

theorem outcome_bind_error {k : α → Eval β} (h : x.outcome m = (.error i, m')) :
    (x >>= k).outcome m = (.error i, m') := by
  rw [outcome_bind, h]

theorem outcome_bind_congr {k : α → Eval β} (h : x.outcome m = y.outcome m') :
    (x >>= k).outcome m = (y >>= k).outcome m' := by
  rw [outcome_bind, outcome_bind, h]

theorem outcome_tryCatch_congr {handler : Interrupt → Eval α} (h : x.outcome m = y.outcome m') :
    (tryCatch x handler).outcome m = (tryCatch y handler).outcome m' := by
  rw [outcome_tryCatch, outcome_tryCatch, h]

theorem outcome_inside_error {e : Environment}
    (h : x.outcome { m with env := e } = (.error i, { m with env := e })) :
    (inside e x).outcome m = (.error i, m) := by
  rw [outcome_inside, h]

theorem outcome_inside_congr {e : Environment}
    (h : x.outcome { m with env := e } = y.outcome { m with env := e }) :
    (inside e x).outcome m = (inside e y).outcome m := by
  rw [outcome_inside, outcome_inside, h]

theorem outcome_atLine_tooDeep (line : Int) (h : x.outcome m = (.error (tooDeep 0), m')) :
    (atLine line x).outcome m = (.error (tooDeep line), m') := by
  rw [atLine, outcome_tryCatch, h]
  rfl

theorem outcome_blameFile_tooDeep (path : Path) (h : x.outcome m = (.error (tooDeep 0), m')) :
    (blameFile path x).outcome m = (.error (tooDeep 0), m') := by
  rw [blameFile, outcome_tryCatch, h]
  rfl

end Congruence

section

variable [Host.Limits]

/-- What a call does where its body starts. -/
theorem answer_call {call : UserCall} {callee start : Machine} {values : List Value}
    {body : Environment} (hcall : Calls (evaluate levels) p.config p.machine p.node call callee)
    (hstart : (enterCall (evaluate levels) p.config call.name call.params call.args).outcome callee =
      (.ok (values, body), start)) :
    (evaluate (levels + 1)).answer p =
      if p.config.maxCallDepth ≤ start.frames.length then (.error (tooDeep p.node.line), start)
      else (atLine p.node.line (callInNewFrame (evaluate levels) p.config call body)).outcome
        start := by
  have hnode : (evaluateNode (evaluate levels) p.config p.node).outcome p.machine =
      (inside body (inFrame p.config call.name true
        (runBody (evaluate levels) p.config call.passesOver call.body))).outcome start := by
    rw [hcall.outcome_eq, callFunction_eq_enterCall, outcome_bind, hstart]
  by_cases hfull : p.config.maxCallDepth ≤ start.frames.length
  · rw [if_pos hfull]
    refine outcome_atLine_tooDeep _ (hnode.trans ?_)
    exact outcome_inside_error (outcome_inFrame_of_full hfull)
  · rw [if_neg hfull]
    refine outcome_tryCatch_congr (hnode.trans ?_)
    exact outcome_inside_congr (outcome_inFrame_of_room hfull)

/-- The import of a file loads it and binds what it gives. -/
theorem outcome_importing_file (ev : Evaluator) (config : Config) (target : Quotation)
    (asName : Option String) (line : Int)
    (hextension : (Source.unquote target.raw).endsWith sourceExtension = true) :
    (evaluateNode ev config (.importing target asName line)).outcome m = (do
      let members ← loadFile ev config (Source.unquote target.raw)
      bindImport asName (Path.ofString (Source.unquote target.raw)).stem members
      return Value.null).outcome m := by
  change (importTarget _ _ _ _ >>= fun _ => pure Value.null).outcome m = _
  unfold importTarget
  simp only [hextension, if_true, bind_assoc]

/-- What an import of a file does where its text is read. -/
theorem answer_import {target : Quotation} {asName : Option String} {line : Int} {name text : String}
    {path : Path} (hnode : p.node = .importing target asName line)
    (hname : Source.unquote target.raw = name) (hextension : name.endsWith sourceExtension = true)
    (hfile : NamesFile p.config p.machine.world name path text) :
    (evaluate (levels + 1)).answer p =
      if p.config.maxCallDepth ≤ p.machine.frames.length then
        (.error (tooDeep line), { p.machine with heap := (p.machine.env.clone p.machine.heap).2 })
      else
        (atLine line (importInNewFrame (evaluate levels) p.config path text asName
          (Path.ofString name).stem (p.machine.env.clone p.machine.heap).1)).outcome
          { p.machine with heap := (p.machine.env.clone p.machine.heap).2 } := by
  obtain ⟨config, node, m⟩ := p
  obtain rfl : node = .importing target asName line := hnode
  subst hname
  have hloads := outcome_importing_file (m := m) (evaluate levels) config target asName line
    hextension
  have hload := hfile.outcome_loadFile (evaluate levels)
  by_cases hfull : config.maxCallDepth ≤ m.frames.length
  · rw [if_pos hfull]
    refine outcome_atLine_tooDeep _ (hloads.trans (outcome_bind_error (hload.trans ?_)))
    refine outcome_inside_error (outcome_bind_error (outcome_blameFile_tooDeep path ?_))
    exact outcome_inFrame_of_full hfull
  · rw [if_neg hfull]
    refine outcome_tryCatch_congr (hloads.trans (outcome_bind_congr (hload.trans ?_)))
    refine outcome_inside_congr (outcome_bind_congr (outcome_tryCatch_congr ?_))
    exact outcome_inFrame_of_room hfull

/-! ### The frames along a run -/

/-- What comes before the body of a call leaves the frames. -/
theorem Calls.framesKept {call : UserCall} {node : Node} {callee start : Machine}
    {values : List Value} {body : Environment}
    (hcall : Calls (evaluate levels) config m node call callee)
    (hstart : (enterCall (evaluate levels) config call.name call.params call.args).outcome callee =
      (.ok (values, body), start)) : FramesKept m.frames start.frames := by
  have hev : Complies .absent (evaluate levels) (evaluate levels) := complies_evaluate _ _
  have hcallee : FramesKept m.frames callee.frames := by
    cases hcall with
    | named _ => exact .refl _
    | @property object name _ _ _ _ _ _ _ hmember =>
      have hkept : FramesKept m.frames ((memberOf (evaluate levels) config object name).outcome m).2.frames :=
        framesKept_of_keeps (keeps_memberOf hev name fun hdrawn => hdrawn.elim)
      rw [hmember] at hkept
      exact hkept
  have henter : Keeps .absent (knownEnv .absent) callee
      (enterCall (evaluate levels) config call.name call.params call.args)
      (enterCall (evaluate levels) config call.name call.params call.args)
      fun n bound => (∀ v ∈ bound.1, Known .absent n v) ∧ (knownEnv .absent).holds n bound.2 := by
    refine (keeps_checkArity _ _ _).bind fun _ m₁ _ _ => keeps_env.bind fun e m₂ _ he => ?_
    refine (keeps_clone he).bind fun callEnv m₃ _ hcallEnv => ?_
    exact keeps_bindCall hev _ hcallEnv fun hdrawn => hdrawn.elim
  have hkept := framesKept_of_keeps henter
  rw [hstart] at hkept
  exact hcallee.trans hkept

/-- A run that starts without frames evaluates its statements without frames. -/
theorem Asks.frames_eq_nil {source : String} (hm : m.frames = [])
    (h : Asks (runBy config source) (evaluate stackLimit) m p) :
    p.config = config ∧ p.machine.frames = [] := by
  obtain ⟨hconfig, -, hframes⟩ := Asks.of_runTopLevel (keepsFrames_evaluate stackLimit) h
  rw [hm] at hframes
  exact ⟨hconfig, hframes⟩

/-- The number of frames at a point of a run is within the limit of the run. -/
theorem Evaluates.frames_le {source : String} (hm : m.frames = [])
    (h : Evaluates config source m levels p) :
    p.config.maxCallDepth = config.maxCallDepth ∧
      p.machine.frames.length ≤ config.frameLimit := by
  induction h with
  | @statement p hasks =>
    obtain ⟨hconfig, hframes⟩ := hasks.frames_eq_nil hm
    have hlength : p.machine.frames.length = 0 := by rw [hframes, List.length_nil]
    exact ⟨by rw [hconfig], by omega⟩
  | @inner levels p q _ hasks ih =>
    obtain ⟨hlimit, hle⟩ := ih
    have hleads : Leads p q := hasks.leads (keepsFrames_evaluate levels)
    refine ⟨hleads.maxCallDepth_eq.trans hlimit, ?_⟩
    rcases hleads.frames_cases with ⟨-, hframes⟩ | hentered
    · have hlength : q.machine.frames.length = p.machine.frames.length := hframes.length_eq
      omega
    · -- There was room for one frame more.
      have hlength : q.machine.frames.length = p.machine.frames.length + 1 := hentered.length_eq
      have hroom := hentered.room
      unfold Config.frameLimit at hle ⊢
      omega

end

/-- Where the number of frames is within the limit, it is reached exactly if the guard says so. -/
theorem guard_iff_full {limit : Config} {n : Nat} (hlimit : config.maxCallDepth = limit.maxCallDepth)
    (hle : n ≤ limit.frameLimit) : config.maxCallDepth ≤ n ↔ n = limit.frameLimit := by
  unfold Config.frameLimit at hle ⊢
  omega

/-- What is kept along a run about its frames, where `Config.frameLimit` is their largest number. -/
structure FramesDisciplined [Host.Limits] (config : Config) (source : String) (m : Machine) :
    Prop where
  /-- At every point the number of frames is within the limit. -/
  bounded : ∀ levels p, Evaluates config source m levels p →
    p.machine.frames.length ≤ config.frameLimit
  /-- A call whose arguments are bound fails where its body would start, and leaves the machine as
  it is there, if the limit is reached; and else its body runs in a new frame. -/
  calls : ∀ levels p call callee values body start,
    Evaluates config source m (levels + 1) p →
    Calls (evaluate levels) p.config p.machine p.node call callee →
    (enterCall (evaluate levels) p.config call.name call.params call.args).outcome callee =
      (.ok (values, body), start) →
    (evaluate (levels + 1)).answer p =
      if start.frames.length = config.frameLimit then (.error (tooDeep p.node.line), start)
      else (atLine p.node.line (callInNewFrame (evaluate levels) p.config call body)).outcome start
  /-- An import of a file that can be read fails before any of its statements, with nothing changed
  but the copies that its environment was to get, if the limit is reached; and else the file runs in
  a new frame. -/
  files : ∀ levels p target asName line path text,
    Evaluates config source m (levels + 1) p → p.node = .importing target asName line →
    (Source.unquote target.raw).endsWith sourceExtension = true →
    NamesFile p.config p.machine.world (Source.unquote target.raw) path text →
    (evaluate (levels + 1)).answer p =
      if p.machine.frames.length = config.frameLimit then
        (.error (tooDeep line), { p.machine with heap := (p.machine.env.clone p.machine.heap).2 })
      else
        (atLine line (importInNewFrame (evaluate levels) p.config path text asName
          (Path.ofString (Source.unquote target.raw)).stem
          (p.machine.env.clone p.machine.heap).1)).outcome
          { p.machine with heap := (p.machine.env.clone p.machine.heap).2 }
  /-- Every statement of the program is evaluated without frames. -/
  between : ∀ p, Asks (runBy config source) (evaluate stackLimit) m p → p.machine.frames = []
  /-- The run ends without frames. -/
  after : ((runProgram config source).outcome m).2.frames = []

/-- However the evaluation of a node ends, the frames are those that were there, with at most the
count of the innermost one increased. And every run that starts without frames keeps the discipline
of the frames. -/
theorem frames_disciplined [Host.Limits] :
    (∀ levels config node m,
      FramesKept m.frames ((evaluate levels config node).outcome m).2.frames) ∧
    ∀ config source m, m.frames = [] → FramesDisciplined config source m := by
  refine ⟨fun levels config node m => keepsFrames_evaluate levels ⟨config, node, m⟩, ?_⟩
  intro config source m hm
  refine ⟨fun levels p hp => (hp.frames_le hm).2, ?_, ?_, fun p hp => (hp.frames_eq_nil hm).2,
    runProgram_frames config source hm⟩
  · intro levels p call callee values body start hp hcall hstart
    obtain ⟨hlimit, hle⟩ := hp.frames_le hm
    have hstack : start.frames.length ≤ config.frameLimit := by
      rw [(hcall.framesKept hstart).length_eq]
      exact hle
    have hfull := guard_iff_full hlimit hstack
    rw [answer_call hcall hstart]
    exact if_congr hfull rfl rfl
  · intro levels p target asName line path text hp hnode hextension hfile
    obtain ⟨hlimit, hle⟩ := hp.frames_le hm
    have hfull := guard_iff_full hlimit hle
    rw [answer_import hnode rfl hextension hfile]
    exact if_congr hfull rfl rfl

/-! ### A call without room -/

/-- A program that calls a function with nothing in its body. -/
def emptyCallProgram : String := "fn f() {}\nf()"

theorem parse_emptyCallProgram : Source.parse emptyCallProgram =
    ⟨[.definition "f" [] [] 1, .call "f" [] 2], none⟩ := by
  have htokens : Source.tokenize emptyCallProgram =
      ([⟨.fnWord, "fn", 1⟩, ⟨.identifier, "f", 1⟩, ⟨.leftParen, "(", 1⟩, ⟨.rightParen, ")", 1⟩,
        ⟨.leftBrace, "\x7b", 1⟩, ⟨.rightBrace, "\x7d", 1⟩, ⟨.newline, "\n", 1⟩,
        ⟨.identifier, "f", 2⟩, ⟨.leftParen, "(", 2⟩, ⟨.rightParen, ")", 2⟩, ⟨.newline, "\n", 2⟩],
        none) := by
    decide +kernel
  unfold Source.parse
  rw [htokens]
  cbv

/-- The configuration with a limit on the number of frames. -/
def limitedTo (limit : Int) : Config :=
  { maxCallDepth := limit }

/-- The point of the call in the program, under a limit. -/
def emptyCallPoint (limit : Int) : Point where
  config := limitedTo limit
  node := .call "f" [] 2
  machine := { (Session.new (limitedTo limit) {}).machine with
    env := (initialEnvironment (limitedTo limit)).define "f" (.function "f" [] []) }

theorem evaluates_emptyCall (limit : Int) :
    Evaluates (limitedTo limit) emptyCallProgram (Session.new (limitedTo limit) {}).machine (899 + 1)
      (emptyCallPoint limit) := by
  have hparse : Source.parse emptyCallProgram =
      ⟨[.definition "f" [] [] 1] ++ .call "f" [] 2 :: [], none⟩ := parse_emptyCallProgram
  exact evaluates_statement hparse rfl

theorem calls_emptyCall (limit : Int) :
    Calls (evaluate 899) (limitedTo limit) (emptyCallPoint limit).machine (.call "f" [] 2)
      ⟨false, "f", [], [], []⟩ (emptyCallPoint limit).machine := by
  refine .named ?_
  change ((initialEnvironment (limitedTo limit)).define "f" (.function "f" [] [])).get? "f" = _
  rw [Environment.get?_define, if_pos rfl]

theorem exists_enter_emptyCall (limit : Int) : ∃ values body start,
    (enterCall (evaluate 899) (limitedTo limit) "f" [] []).outcome (emptyCallPoint limit).machine =
      (.ok (values, body), start) ∧ start.frames = [] :=
  ⟨_, _, _, rfl, rfl⟩

/-- Where no frames are allowed, the call fails at its entry. -/
theorem call_without_room :
    ∃ start, (evaluate (899 + 1)).answer (emptyCallPoint 0) = (.error (tooDeep 2), start) ∧
      start.frames = [] := by
  obtain ⟨values, body, start, hstart, hframes⟩ := exists_enter_emptyCall 0
  have hrun := frames_disciplined.2 (limitedTo 0) emptyCallProgram
    (Session.new (limitedTo 0) {}).machine rfl
  have hanswer := hrun.calls 899 _ _ _ values body start (evaluates_emptyCall 0) (calls_emptyCall 0)
    hstart
  have hfull : start.frames.length = (limitedTo 0).frameLimit := by
    rw [hframes]
    rfl
  rw [if_pos hfull] at hanswer
  exact ⟨start, hanswer, hframes⟩

/-- Under a negative limit the number of frames exceeds the limit where there are none, and a call
fails at its entry, although there are not that many frames. -/
theorem call_under_negative_limit :
    Evaluates (limitedTo (-1)) emptyCallProgram (Session.new (limitedTo (-1)) {}).machine (899 + 1)
        (emptyCallPoint (-1)) ∧
      (limitedTo (-1)).maxCallDepth < (emptyCallPoint (-1)).machine.frames.length ∧
      ∃ start, (evaluate (899 + 1)).answer (emptyCallPoint (-1)) = (.error (tooDeep 2), start) ∧
        (start.frames.length : Int) ≠ (limitedTo (-1)).maxCallDepth := by
  obtain ⟨values, body, start, hstart, hframes⟩ := exists_enter_emptyCall (-1)
  refine ⟨evaluates_emptyCall (-1), by decide, start, ?_, ?_⟩
  · have hanswer := answer_call (p := emptyCallPoint (-1)) (calls_emptyCall (-1)) hstart
    have hfull : (emptyCallPoint (-1)).config.maxCallDepth ≤ start.frames.length := by
      rw [hframes]
      decide
    rw [if_pos hfull] at hanswer
    exact hanswer
  · rw [hframes]
    decide

end ModuLang
