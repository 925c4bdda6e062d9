import ModuLang.Proofs.CallStatements

/-!
# Counted statements

What a call comes to, in the order of `attemptsOfCall`, goes together with the frames. Of all that a
call does only its own statements touch the count of its frame: an expression leaves the frames as
they are, since the functions that it calls run in frames of their own, and so does the import of a
file. So the count is the number of statements in the list so far, and the limit decides as if the list
had been counted. Where the innermost frame is that of a file, or there is none, nothing is counted and
nothing refused.
-/

namespace ModuLang

open Eval Host

variable {α β : Type} {ev : Evaluator} {config : Config} {m m' : Machine} {limit : Int}
  {levels : Nat} {p : Point}

/-! ### Statements and frames -/

theorem countsToward_eq (frame : Frame) (s : Node) :
    countsToward frame s = (!s.isReturn && frame.counted) := by
  cases s <;> rfl

theorem isReturn_of_countsToward {frame : Frame} {s : Node} (h : countsToward frame s = true) :
    s.isReturn = false := by
  rw [countsToward_eq, Bool.and_eq_true] at h
  simpa using h.1

/-- The frames behind some statements that were come to: each that counts is counted in the innermost
one, and it is begun if it is within the limit. Only the last one may be refused. -/
inductive Accounted (limit : Int) : List Frame → List Attempt → List Frame → Prop where
  | nil {frames : List Frame} : Accounted limit frames [] frames
  | free {frames after : List Frame} {s : Node} {m : Machine} {log : List Attempt} :
      (∀ frame ∈ frames.head?, countsToward frame s = false) → Accounted limit frames log after →
      Accounted limit frames (⟨s, m, true⟩ :: log) after
  | begun {frame : Frame} {below after : List Frame} {s : Node} {m : Machine} {log : List Attempt} :
      countsToward frame s = true → ¬limit < (frame.statements + 1 : Nat) →
      Accounted limit ({ frame with statements := frame.statements + 1 } :: below) log after →
      Accounted limit (frame :: below) (⟨s, m, true⟩ :: log) after
  | refused {frame : Frame} {below : List Frame} {s : Node} {m : Machine} :
      countsToward frame s = true → limit < (frame.statements + 1 : Nat) →
      Accounted limit (frame :: below) [⟨s, m, false⟩]
        ({ frame with statements := frame.statements + 1 } :: below)

section Accounted

variable {f g k : List Frame} {log log' : List Attempt} {frame : Frame} {below : List Frame}

theorem Accounted.append (h : Accounted limit f log g) (hbegun : ∀ a ∈ log, a.begun = true)
    (h' : Accounted limit g log' k) : Accounted limit f (log ++ log') k := by
  induction h with
  | nil => exact h'
  | free hfree _ ih =>
    exact .free hfree (ih (fun a ha => hbegun a (List.mem_cons_of_mem _ ha)) h')
  | begun hcounts hroom _ ih =>
    exact .begun hcounts hroom (ih (fun a ha => hbegun a (List.mem_cons_of_mem _ ha)) h')
  | refused _ _ => exact absurd (hbegun _ List.mem_cons_self) Bool.false_ne_true

/-- In a frame that counts, a statement is begun exactly if it is a `return` or fewer statements than
the limit were counted before it; one that is not begun is the last one. -/
theorem Accounted.begun_iff (h : Accounted limit (frame :: below) log g)
    (hcounted : frame.counted = true) {before after : List Attempt} {a : Attempt}
    (hlog : log = before ++ a :: after) :
    (a.begun = true ↔ a.statement.isReturn = true ∨
        ((frame.statements + before.countP Attempt.counts : Nat) : Int) < limit) ∧
      (a.begun = false → after = []) := by
  generalize hframes : frame :: below = frames at h
  induction h generalizing frame before with
  | nil => cases before <;> cases hlog
  | @free frames' g' s m log' hfree _ ih =>
    subst hframes
    have hreturn : s.isReturn = true := by
      have hfrees := hfree frame rfl
      rw [countsToward_eq, hcounted, Bool.and_true] at hfrees
      simpa using hfrees
    cases before with
    | nil =>
      obtain ⟨rfl, rfl⟩ := List.cons.inj hlog
      simp [hreturn]
    | cons first before =>
      obtain ⟨rfl, htail⟩ := List.cons.inj hlog
      have hcount : (⟨s, m, true⟩ :: before : List Attempt).countP Attempt.counts =
          before.countP Attempt.counts := List.countP_cons_of_neg (by simp [Attempt.counts, hreturn])
      rw [hcount]
      exact ih hcounted htail rfl
  | @begun frame' below' g' s m log' hcounts hroom _ ih =>
    obtain ⟨rfl, rfl⟩ := List.cons.inj hframes
    have hreturn : s.isReturn = false := isReturn_of_countsToward hcounts
    cases before with
    | nil =>
      obtain ⟨rfl, rfl⟩ := List.cons.inj hlog
      have hbelow : (frame.statements : Int) < limit := by omega
      simp [hbelow]
    | cons first before =>
      obtain ⟨rfl, htail⟩ := List.cons.inj hlog
      -- The statement is counted, in the frame and in the list.
      have hcount : (⟨s, m, true⟩ :: before : List Attempt).countP Attempt.counts =
          before.countP Attempt.counts + 1 := List.countP_cons_of_pos (by simp [Attempt.counts, hreturn])
      let grown : Frame := { frame with statements := frame.statements + 1 }
      have hgrown : grown.counted = true := hcounted
      have hrest := ih hgrown htail rfl
      rw [hcount, show frame.statements + (before.countP Attempt.counts + 1) =
        frame.statements + 1 + before.countP Attempt.counts by omega]
      exact hrest
  | @refused frame' below' s m hcounts hfull =>
    obtain ⟨rfl, rfl⟩ := List.cons.inj hframes
    have hreturn : s.isReturn = false := isReturn_of_countsToward hcounts
    cases before with
    | nil =>
      obtain ⟨rfl, rfl⟩ := List.cons.inj hlog
      have hbelow : limit ≤ frame.statements := by omega
      simp [hreturn, hbelow]
    | cons first before => cases before <;> cases (List.cons.inj hlog).2

/-- Where the innermost frame does not count, every statement is begun and the frames stay. -/
theorem Accounted.of_uncounted (h : Accounted limit f log g)
    (huncounted : ∀ frame ∈ f.head?, frame.counted = false) :
    (∀ a ∈ log, a.begun = true) ∧ g = f := by
  have hnever : ∀ {frame : Frame} {below : List Frame} {s : Node},
      (∀ x ∈ (frame :: below).head?, x.counted = false) → countsToward frame s ≠ true := by
    intro frame below s huncounted hcounts
    rw [countsToward_eq, huncounted frame rfl, Bool.and_false] at hcounts
    cases hcounts
  induction h with
  | nil => exact ⟨fun a ha => absurd ha List.not_mem_nil, rfl⟩
  | free _ _ ih =>
    obtain ⟨hall, hframes⟩ := ih huncounted
    exact ⟨List.forall_mem_cons.mpr ⟨rfl, hall⟩, hframes⟩
  | begun hcounts _ _ _ => exact absurd hcounts (hnever huncounted)
  | refused hcounts _ => exact absurd hcounts (hnever huncounted)

end Accounted

/-- What is said of a step and the statements that it comes to: the frames behind it are accounted for,
and where one was refused the step ends with that error. -/
structure Accounts (limit : Int) (m : Machine) (log : List Attempt) (out : Outcome α) : Prop where
  counted : Accounted limit m.frames log out.2.frames
  refused : (∃ a ∈ log, a.begun = false) → ∃ line, out.1 = .error (tooDeep line)

section Accounts

variable {log log' : List Attempt} {out : Outcome β}

theorem accounts_of_frames {out : Outcome α} (h : out.2.frames = m.frames) :
    Accounts limit m [] out :=
  ⟨h ▸ .nil, fun ⟨_, ha, _⟩ => absurd ha List.not_mem_nil⟩

/-- A step that did not end with that error refused nothing, and what comes behind it is added. -/
theorem Accounts.append {r : Except Interrupt α} (h : Accounts limit m log (r, m'))
    (hr : ∀ line, r ≠ .error (tooDeep line)) (h' : Accounts limit m' log' out) :
    Accounts limit m (log ++ log') out := by
  have hbegun : ∀ a ∈ log, a.begun = true := by
    intro a ha
    refine Bool.eq_true_of_not_eq_false fun hrefused => ?_
    obtain ⟨line, hline⟩ := h.refused ⟨a, ha, hrefused⟩
    exact hr line hline
  refine ⟨h.counted.append hbegun h'.counted, fun ⟨a, ha, hrefused⟩ => ?_⟩
  rcases List.mem_append.mp ha with ha | ha
  · rw [hbegun a ha] at hrefused
    cases hrefused
  · exact h'.refused ⟨a, ha, hrefused⟩

/-- An interrupt ends a step, whatever the step would have given. -/
theorem Accounts.interrupted {i : Interrupt} (h : Accounts limit m log ((.error i, m') : Outcome α)) :
    Accounts limit m (log ++ []) ((.error i, m') : Outcome β) := by
  rw [List.append_nil]
  exact ⟨h.counted, fun hrefused => by
    obtain ⟨line, hline⟩ := h.refused hrefused
    cases hline
    exact ⟨line, rfl⟩⟩

theorem Accounts.bind_pure {x : Eval α} (h : Accounts limit m log (x.outcome m)) (b : β) :
    Accounts limit m log ((x >>= fun _ => pure b).outcome m) := by
  rw [outcome_bind, ← List.append_nil log]
  revert h
  obtain ⟨r, m₁⟩ := x.outcome m
  intro h
  cases r with
  | ok a => exact h.append (by simp) (accounts_of_frames rfl)
  | error i => exact h.interrupted

theorem exists_tooDeep_atLine {x : Eval α} {l : Int} (line : Int)
    (h : (x.outcome m).1 = .error (tooDeep l)) :
    ∃ l', ((atLine line x).outcome m).1 = .error (tooDeep l') := by
  have hout : x.outcome m = (.error (tooDeep l), (x.outcome m).2) := Prod.ext h rfl
  unfold Eval.atLine
  rw [outcome_tryCatch, hout]
  refine ⟨(Fault.atLine ⟨.recursionTooDeep, l⟩ line).line, ?_⟩
  simp only [tooDeep, Fault.atLine]
  split <;> rfl

theorem Accounts.atLine {x : Eval α} (h : Accounts limit m log (x.outcome m)) (line : Int) :
    Accounts limit m log ((atLine line x).outcome m) := by
  refine ⟨?_, fun hrefused => ?_⟩
  · rw [machine_atLine]
    exact h.counted
  · obtain ⟨l, hl⟩ := h.refused hrefused
    exact exists_tooDeep_atLine line hl

/-- A statement is counted, if it is, before anything else is done. -/
theorem accounts_countStatement {s : Node} {x : Eval α} {attempts : Machine → List Attempt}
    (hx : ∀ m₁, Accounts config.maxBodyStatements m₁ (attempts m₁) (x.outcome m₁)) :
    Accounts config.maxBodyStatements m
      (match (countStatement config s).outcome m with
        | (.error _, m₁) => [⟨s, m₁, false⟩]
        | (.ok _, m₁) => ⟨s, m₁, true⟩ :: attempts m₁)
      ((countStatement config s >>= fun _ => x).outcome m) := by
  have hbegun : ∀ {m₁}, (∃ a ∈ (⟨s, m₁, true⟩ :: attempts m₁ : List Attempt), a.begun = false) →
      ∃ a ∈ attempts m₁, a.begun = false := by
    rintro m₁ ⟨a, ha, hrefused⟩
    rcases List.mem_cons.mp ha with rfl | ha
    · cases hrefused
    · exact ⟨a, ha, hrefused⟩
  -- Without a frame, or in one that does not count, the statement is free; else the limit decides.
  rw [outcome_bind]
  unfold countStatement
  rw [outcome_get_bind]
  cases hframes : m.frames with
  | nil =>
    have hfree : ∀ frame ∈ m.frames.head?, countsToward frame s = false := by simp [hframes]
    exact ⟨.free hfree (hx m).counted, fun h => (hx m).refused (hbegun h)⟩
  | cons frame below =>
    simp only
    cases hcounts : countsToward frame s with
    | false =>
      have hfree : ∀ frame ∈ m.frames.head?, countsToward frame s = false := by simp [hframes, hcounts]
      exact ⟨.free hfree (hx m).counted, fun h => (hx m).refused (hbegun h)⟩
    | true =>
      simp only [if_true]
      rw [outcome_modify_bind]
      by_cases hfull : config.maxBodyStatements < (frame.statements + 1 : Nat)
      · rw [if_pos hfull]
        exact ⟨hframes ▸ .refused hcounts hfull, fun _ => ⟨0, rfl⟩⟩
      · rw [if_neg hfull]
        have hrest := hx { m with frames := { frame with statements := frame.statements + 1 } :: below }
        exact ⟨hframes ▸ .begun hcounts hfull hrest.counted, fun h => hrest.refused (hbegun h)⟩

end Accounts

/-! ### Blocks and bodies -/

section Blocks

variable {attempts : Node → Machine → List Attempt} {nodes : List Node}
  (hnodes : ∀ s ∈ nodes, ∀ m, Accounts config.maxBodyStatements m (attempts s m)
    ((ev config s).outcome m))

include hnodes

theorem accounts_runBlock :
    Accounts config.maxBodyStatements m (attemptsAlong (ev config) config false attempts nodes m)
      ((runBlock ev config nodes).outcome m) := by
  induction nodes generalizing m with
  | nil => exact accounts_of_frames rfl
  | cons s rest ih =>
    refine accounts_countStatement fun m₁ => ?_
    have hs := hnodes s List.mem_cons_self m₁
    rw [outcome_bind]
    revert hs
    obtain ⟨r, m₂⟩ := (ev config s).outcome m₁
    intro hs
    cases r with
    | ok v => exact hs.append (by simp) (ih fun s hs => hnodes s (List.mem_cons_of_mem _ hs))
    | error i => cases i <;> exact hs.interrupted

theorem accounts_runBody (passesOver : Bool) :
    Accounts config.maxBodyStatements m
      (attemptsAlong (ev config) config passesOver attempts nodes m)
      ((runBody ev config passesOver nodes).outcome m) := by
  induction nodes generalizing m with
  | nil => exact accounts_of_frames rfl
  | cons s rest ih =>
    refine accounts_countStatement fun m₁ => ?_
    have hrest := fun {m} => ih (m := m) fun s hs => hnodes s (List.mem_cons_of_mem _ hs)
    have hs := hnodes s List.mem_cons_self m₁
    rw [outcome_bind]
    unfold catchReturn
    rw [outcome_tryCatch, outcome_bind]
    revert hs
    obtain ⟨r, m₂⟩ := (ev config s).outcome m₁
    intro hs
    cases r with
    | ok v => exact hs.append (by simp) hrest
    | error i =>
      cases i with
      | failed failure => exact hs.interrupted
      | exited => exact hs.interrupted
      | returned v =>
        -- A `return` is caught: it ends the body, or it is passed over.
        refine hs.append (by simp [tooDeep]) ?_
        cases passesOver with
        | true => exact hrest
        | false => exact accounts_of_frames rfl

end Blocks

/-! ### Steps that leave the frames -/

theorem apart_frames : Apart Machine.frames := fun _ _ _ => rfl

theorem TouchesData.leavesFrames {x : Eval α} (hx : TouchesData x) : Leaves Machine.frames x :=
  hx.leaves apart_frames

theorem Leaves.frames_inside {x : Eval α} (hx : Leaves Machine.frames x) (e : Environment) :
    Leaves Machine.frames (inside e x) :=
  fun m => hx { m with env := e }

/-- What is counted in a new frame goes with it. -/
theorem leavesFrames_inFrame {x : Eval α} (hx : ∀ m, FramesKept m.frames (x.outcome m).2.frames)
    (config : Config) (name : String) (counted : Bool) :
    Leaves Machine.frames (inFrame config name counted x) := by
  intro m
  rw [outcome_inFrame]
  split
  · rfl
  · obtain ⟨count, -, hframes⟩ := hx { m with frames := ⟨name, counted, 0⟩ :: m.frames }
    simp only [hframes, List.tail_cons]

section

variable [Host.Limits]

theorem framesKept_runBody (levels : Nat) (config : Config) (passesOver : Bool) (body : List Node)
    (m : Machine) :
    FramesKept m.frames ((runBody (evaluate levels) config passesOver body).outcome m).2.frames :=
  framesKept_of_keeps (keeps_runBody (complies_evaluate .absent levels) fun hdrawn => hdrawn.elim)

theorem leavesFrames_callFunction (levels : Nat) (config : Config) (passesOver : Bool) (name : String)
    (params : List String) (body args : List Node)
    (hargs : ∀ arg ∈ args, Leaves Machine.frames (evaluate levels config arg)) :
    Leaves Machine.frames
      (callFunction (evaluate levels) config passesOver name params body args) := by
  refine (touchesData_checkArity _ _ _).leavesFrames.bind fun _ => ?_
  refine touchesData_env.leavesFrames.bind fun e => (touchesData_clone e).leavesFrames.bind fun callEnv => ?_
  refine (touchesData_clone callEnv).leavesFrames.bind fun argEnv => ?_
  refine ((leaves_evaluateAll apart_frames hargs).frames_inside argEnv).bind fun values => ?_
  refine (touchesData_bindArguments _ _ _).leavesFrames.bind fun bodyEnv => ?_
  have hbody := framesKept_runBody levels config passesOver body
  exact (leavesFrames_inFrame hbody config name true).frames_inside bodyEnv

theorem Node.Expression.leavesFrames {node : Node} (hnode : node.Expression) (levels : Nat)
    (config : Config) : Leaves Machine.frames (evaluate levels config node) :=
  hnode.leaves apart_frames leavesFrames_callFunction levels config

theorem leavesFrames_loadFile (levels : Nat) (config : Config) (target : String) :
    Leaves Machine.frames (loadFile (evaluate levels) config target) := by
  intro m
  rcases namesFile_or_refused config m.world target with ⟨path, text, hfile⟩ | ⟨failure, hrefused⟩
  · have hrun : ∀ m, FramesKept m.frames ((runStatements (evaluate levels) (config.withScript path)
        (Source.parse text).failure (Source.parse text).statements).outcome m).2.frames := fun m =>
      framesKept_of_keeps
        (keeps_runStatements (complies_evaluate .absent levels) _ fun hdrawn => hdrawn.elim)
    -- The statements of the file run in a frame of its own, which is popped however they end.
    have hmodule : Leaves Machine.frames (runModule (evaluate levels) (config.withScript path) path text) := by
      intro m
      have hframe := leavesFrames_inFrame hrun (config.withScript path) path.name false m
      unfold runModule blameFile
      rw [outcome_tryCatch]
      revert hframe
      obtain ⟨r, m₁⟩ := (inFrame (config.withScript path) path.name false _).outcome m
      intro hframe
      cases r with
      | ok _ => exact hframe
      | error i =>
        simp only
        split
        · split <;> exact hframe
        · exact hframe
    rw [hfile.outcome_loadFile]
    exact (hmodule.bind fun _ => touchesData_env.leavesFrames.bind fun _ =>
      (touchesData_pure _).leavesFrames).frames_inside _ _
  · rw [hrefused.outcome_loadFile]

/-- The import of a file counts nothing in the frame of the import. -/
theorem leavesFrames_importing (levels : Nat) (config : Config) (target : Quotation)
    (asName : Option String) (line : Int) :
    Leaves Machine.frames (evaluate levels config (.importing target asName line)) := by
  have hmembers : ∀ levels, Leaves Machine.frames
      (importedMembers (evaluate levels) config (Source.unquote target.raw)) := by
    intro levels
    unfold importedMembers
    split
    · exact leavesFrames_loadFile levels config _
    · split
      · exact (touchesData_fail _).leavesFrames
      · exact (touchesData_pure _).leavesFrames
  cases levels with
  | zero => exact (touchesData_throw _).leavesFrames
  | succ levels =>
    refine Leaves.atLine (Leaves.bind ?_ fun _ => (touchesData_pure _).leavesFrames) line
    rw [importTarget_eq]
    refine (hmembers levels).bind fun members m => ?_
    rw [outcome_bindImport]

/-- A statement accounts for the statements inside it. -/
theorem Node.Statement.accounts {f : Bool} {s : Node} (hs : s.Statement f) (levels : Nat)
    (config : Config) (m : Machine) :
    Accounts config.maxBodyStatements m (attemptsOf levels config s m)
      ((evaluate levels config s).outcome m) := by
  induction levels generalizing f s m with
  | zero => exact accounts_of_frames rfl
  | succ levels ih =>
    -- Only a conditional has statements inside it that are come to where it is evaluated.
    have hsimple : attemptsOf (levels + 1) config s m = [] →
        Leaves Machine.frames (evaluate (levels + 1) config s) →
        Accounts config.maxBodyStatements m (attemptsOf (levels + 1) config s m)
          ((evaluate (levels + 1) config s).outcome m) := by
      intro hnone hleaves
      rw [hnone]
      exact accounts_of_frames (hleaves m)
    cases hs with
    | expression hexpr =>
      have hform := hexpr.form
      refine hsimple ?_ (hexpr.leavesFrames (levels + 1) config)
      cases s with
      | binding | importing | definition | conditional | returning | unknown =>
        exact absurd hform not_false
      | _ => rfl
    | @binding _ name value line hvalue =>
      refine hsimple rfl (Leaves.atLine (Leaves.bind ?_ fun _ => (touchesData_pure _).leavesFrames) line)
      rw [evaluateBinding_eq]
      split
      · exact (touchesData_fail _).leavesFrames
      · exact (leaves_boundValue apart_frames (hvalue.leavesFrames levels config)).bind fun _ _ => rfl
    | importing => exact hsimple rfl (leavesFrames_importing _ _ _ _ _)
    | definition _ => exact hsimple rfl fun _ => rfl
    | @conditional _ condition body line hcondition hbody =>
      refine Accounts.atLine ?_ line
      have hleaves := hcondition.leavesFrames levels config m
      change Accounts _ m _ ((evaluate levels config condition >>= _).outcome m)
      rw [outcome_bind, attemptsOf]
      revert hleaves
      obtain ⟨r, m₁⟩ := (evaluate levels config condition).outcome m
      intro hleaves
      have hsilent : ∀ {out : Outcome Value}, out.2 = m₁ → Accounts config.maxBodyStatements m [] out :=
        fun hout => accounts_of_frames ((congrArg Machine.frames hout).trans hleaves)
      cases r with
      | error i => exact hsilent rfl
      | ok v =>
        cases v with
        | bool b =>
          cases b with
          | false => exact hsilent rfl
          | true =>
            have hblock := accounts_runBlock (m := m₁) fun s hs m => ih (hbody s hs) m
            have hlog := hblock.bind_pure Value.null
            exact ⟨hleaves ▸ hlog.counted, hlog.refused⟩
        | _ => exact hsilent rfl
    | returning => exact hsimple rfl fun _ => rfl
    | returningValue hvalue =>
      refine hsimple rfl (Leaves.atLine ?_ _)
      exact (hvalue.leavesFrames levels config).bind fun _ _ => rfl

/-! ### The calls of a session -/

/-- The machines that the programs of sessions start on. -/
inductive Session.Starts : Machine → Prop where
  | new (config : Config) (world : World) : Starts (Session.new config world).machine
  | next {m : Machine} (config : Config) (source : String) : Starts m →
      Starts ((runProgram config source).outcome m).2

end

/-- A statement that stands outside of functions could stand in one. -/
theorem Node.Statement.inFunction {f : Bool} {s : Node} (hs : s.Statement f) : s.Statement true := by
  induction hs with
  | expression hexpr => exact .expression hexpr
  | binding hvalue => exact .binding hvalue
  | importing => exact .importing
  | definition hbody => exact .definition hbody
  | conditional hcondition _ ih => exact .conditional hcondition ih
  | returning => exact .returning
  | returningValue hvalue => exact .returningValue hvalue

theorem Node.Statement.child {s c : Node} (hs : s.Statement true) (hc : c ∈ s.children) :
    c.Statement true := by
  cases hs with
  | expression hexpr => exact .expression (hexpr.children hc)
  | binding hvalue | returningValue hvalue =>
    rw [List.mem_singleton.mp hc]
    exact .expression hvalue
  | importing | returning => exact absurd hc List.not_mem_nil
  | definition hbody => exact hbody c hc
  | conditional hcondition hbody =>
    rcases List.mem_cons.mp hc with rfl | hc
    · exact .expression hcondition
    · exact hbody c hc

/-- The condition that all functions have bodies of statements with expressions where these belong, under
a limit on statements. -/
def Condition.sortedBodies (limit : Int) : Condition :=
  { Condition.ofNodes (N := fun n => n.Plain ∧ n.Statement true) (X := fun _ => True) (fun _ h => h.1)
      (fun _ _ h hc => ⟨h.1.children hc, h.2.child hc⟩) fun _ _ _ _ _ _ => trivial with
    config := fun c => c.maxBodyStatements = limit
    withScript := fun _ _ h => h
    importable := fun c package members _ h member hmember =>
      (Condition.ofNodes _ _ _).importable c package members trivial h member hmember }

theorem exists_not_sortedBodies (limit : Int) : ∃ v, ¬(Condition.sortedBodies limit).value v := by
  refine ⟨.function "" [] [.literal (.object 0) 0], fun h => ?_⟩
  exact (h _ List.mem_cons_self).1.primitive

section

variable [Host.Limits]

/-- Whatever is read is made of statements, and an import changes no limit. -/
theorem sortedBodies_runSuits (limit : Int) (config : Config) (source : String) (m : Machine) :
    (Condition.sortedBodies limit).RunSuits config source m := by
  have hparsed : ∀ text, ∀ s ∈ (Source.parse text).statements, (Condition.sortedBodies limit).node s :=
    fun text s hs => ⟨Source.parse_plain text s hs, (Source.parse_statements text s hs).inFunction⟩
  refine ⟨hparsed source, fun levels p _ _ => ⟨fun _ _ => trivial, fun f _ _ _ _ hvs => ?_,
    fun _ _ => trivial, fun _ text _ => hparsed text⟩⟩
  exact Condition.stays_native f hvs (fun _ _ => trivial) fun _ _ => trivial

theorem Session.Starts.sorted (h : Session.Starts m) (limit : Int) :
    (Condition.sortedBodies limit).Holds m := by
  induction h with
  | new config world =>
    refine ⟨Environment.allBindings_empty.update fun binding hbinding => ⟨trivial, ?_⟩, Heap.all_empty⟩
    obtain ⟨f, -, rfl⟩ := List.mem_map.mp hbinding
    exact trivial
  | next config source _ ih =>
    -- What a session holds has nothing to do with the limit of a run.
    obtain ⟨bad, hbad⟩ := exists_not_sortedBodies config.maxBodyStatements
    have hends := (Condition.holds_of_suits trivial hbad (sortedBodies_runSuits _ config source _) rfl
      ⟨ih.env, ih.heap⟩).1
    exact ⟨hends.env, hends.heap⟩

/-- A call of a session has a body of statements, and the limit on statements is that of the run. -/
theorem Calls.sorted {source : String} {call : UserCall} {callee : Machine} (hm : Session.Starts m)
    (hp : Evaluates config source m (levels + 1) p)
    (hcall : Calls (evaluate levels) p.config p.machine p.node call callee) :
    (∀ s ∈ call.body, s.Statement true) ∧ p.config.maxBodyStatements = config.maxBodyStatements := by
  obtain ⟨bad, hbad⟩ := exists_not_sortedBodies config.maxBodyStatements
  have hrun := sortedBodies_runSuits config.maxBodyStatements config source m
  have hmeets := (Condition.meets_of_suits trivial hbad hrun rfl (hm.sorted _) hp).1
  refine ⟨fun s hs => ?_, hmeets.config⟩
  obtain ⟨pconfig, node, machine⟩ := p
  cases hcall with
  | named hname =>
    have hvalue := (hmeets.holds.env.get? hname).2
    exact (hvalue s hs).2
  | property hmember =>
    have hvalue := (Condition.holds_member trivial hbad hrun hp hmeets hmember).2
    exact (hvalue s hs).2

/-- What is true of the statements that a call comes to under a limit. -/
structure CallCounted (config : Config) (source : String) (m : Machine) (levels : Nat) (p : Point)
    (call : UserCall) (start : Machine) (body : Environment) : Prop where
  /-- A statement is begun exactly if it is a `return`, or if fewer statements than the limit that are
  none were begun before it. -/
  begun_iff : ∀ before a after, attemptsOfCall levels p.config call start body = before ++ a :: after →
    (a.begun = true ↔ a.statement.isReturn = true ∨
      (before.countP Attempt.counts : Int) < config.maxBodyStatements)
  /-- The statements that are begun are those that the call evaluates. -/
  evaluated_iff : ∀ q, (∃ k, CallEvaluates levels p.config call start body k q) ↔
    ∃ a ∈ attemptsOfCall levels p.config call start body, a.begun = true ∧ a.point p.config = q
  /-- They are points of the run. -/
  evaluated : ∀ k q, CallEvaluates levels p.config call start body k q →
    Evaluates config source m k q
  /-- Nothing comes behind a statement that is refused, and the call ends with that error. -/
  refused : ∀ before a after, attemptsOfCall levels p.config call start body = before ++ a :: after →
    a.begun = false → after = [] ∧ ∃ line, ((evaluate (levels + 1)).answer p).1 = .error (tooDeep line)
  /-- If none is refused, then the call ends as it would without a limit on its statements. -/
  answer_eq : (∀ a ∈ attemptsOfCall levels p.config call start body, a.begun = true) →
    (evaluate (levels + 1)).answer p =
      (atLine p.node.line (callUnlimited levels p.config call body)).outcome start
  /-- Nothing that the call does is counted in the frames around it. -/
  outer : ((evaluate (levels + 1)).answer p).2.frames = start.frames

/-- The counting of statements is exact. A call evaluates the statements that it comes to as long as
fewer than the limit were begun, whatever it calls and imports in between; it ends with the error where
one is refused, and as without a limit where none is. Where no call goes on, and at the statements of an
imported file, every statement is begun and none is counted. -/
theorem statements_counted_exactly :
    (∀ config source m levels p call callee values body start, Session.Starts m →
      Evaluates config source m (levels + 1) p →
      Calls (evaluate levels) p.config p.machine p.node call callee →
      (enterCall (evaluate levels) p.config call.name call.params call.args).outcome callee =
        (.ok (values, body), start) →
      ¬p.config.maxCallDepth ≤ start.frames.length →
      CallCounted config source m levels p call start body) ∧
    (∀ f s levels config m, s.Statement f → (∀ frame ∈ m.frames.head?, frame.counted = false) →
      (∀ a ∈ attemptsOf levels config s m, a.begun = true) ∧
        ((evaluate levels config s).outcome m).2.frames = m.frames) ∧
    ∀ levels config target asName line m,
      ((evaluate levels config (.importing target asName line)).outcome m).2.frames = m.frames := by
  refine ⟨?_, fun f s levels config m hs huncounted => ?_, leavesFrames_importing⟩
  · intro config source m levels p call callee values body start hm hp hcall hstart hroom
    obtain ⟨hbody, hlimit⟩ := hcall.sorted hm hp
    have haccounts : Accounts p.config.maxBodyStatements (callStart call start body)
        (attemptsOfCall levels p.config call start body)
        ((runBody (evaluate levels) p.config call.passesOver call.body).outcome
          (callStart call start body)) :=
      accounts_runBody (fun s hs m => (hbody s hs).accounts levels p.config m) call.passesOver
    have hanswer := answer_call hcall hstart
    rw [if_neg hroom] at hanswer
    refine ⟨fun before a after hlog => ?_, fun q => callEvaluates_iff hroom,
      fun k q h => h.evaluates hp hcall hstart, fun before a after hlog hrefused => ⟨?_, ?_⟩,
      fun hbegun => ?_, ?_⟩
    · have hbegun := (haccounts.counted.begun_iff rfl hlog).1
      rw [hlimit, Nat.zero_add] at hbegun
      exact hbegun
    · exact (haccounts.counted.begun_iff rfl hlog).2 hrefused
    · -- The error passes through the frame of the call.
      obtain ⟨l, hl⟩ := haccounts.refused ⟨a, hlog ▸ List.mem_append_right _ List.mem_cons_self, hrefused⟩
      rw [hanswer]
      exact exists_tooDeep_atLine _ hl
    · rw [hanswer]
      exact outcome_tryCatch_congr (outcome_callUnlimited hbegun).symm
    · -- The frame of the call is gone, and those below it are as they were.
      obtain ⟨count, -, hframes⟩ := framesKept_runBody levels p.config call.passesOver call.body
        (callStart call start body)
      rw [hanswer, machine_atLine]
      exact congrArg List.tail hframes
  · exact (hs.accounts levels config m).counted.of_uncounted huncounted

end

/-! ### A call that goes beyond its limit -/

/-- A program that calls a function with two statements. -/
def twoBindingsProgram : String := "fn f() \x7b let x = 1; let y = 2 \x7d\nf()"

/-- The statements of the function. -/
def twoBindings : List Node :=
  [.binding "x" (.literal (.int 1) 1) 1, .binding "y" (.literal (.int 2) 1) 1]

theorem parse_twoBindingsProgram : Source.parse twoBindingsProgram =
    ⟨[.definition "f" [] twoBindings 1] ++ .call "f" [] 2 :: [], none⟩ := by
  have htokens : Source.tokenize twoBindingsProgram =
      ([⟨.fnWord, "fn", 1⟩, ⟨.identifier, "f", 1⟩, ⟨.leftParen, "(", 1⟩, ⟨.rightParen, ")", 1⟩,
        ⟨.leftBrace, "\x7b", 1⟩, ⟨.letWord, "let", 1⟩, ⟨.identifier, "x", 1⟩, ⟨.assign, "=", 1⟩,
        ⟨.number, "1", 1⟩, ⟨.semicolon, ";", 1⟩, ⟨.letWord, "let", 1⟩, ⟨.identifier, "y", 1⟩,
        ⟨.assign, "=", 1⟩, ⟨.number, "2", 1⟩, ⟨.rightBrace, "\x7d", 1⟩, ⟨.newline, "\n", 1⟩,
        ⟨.identifier, "f", 2⟩, ⟨.leftParen, "(", 2⟩, ⟨.rightParen, ")", 2⟩, ⟨.newline, "\n", 2⟩],
        none) := by
    decide +kernel
  unfold Source.parse
  rw [htokens]
  cbv

/-- The configuration under which a frame may begin one statement. -/
def oneStatement : Config :=
  { maxBodyStatements := 1 }

/-- The point of the call in the program. -/
def twoBindingsPoint : Point where
  config := oneStatement
  node := .call "f" [] 2
  machine := { (Session.new oneStatement {}).machine with
    env := (initialEnvironment oneStatement).define "f" (.function "f" [] twoBindings) }

/-- The call of the program. -/
def twoBindingsCall : UserCall :=
  ⟨false, "f", [], twoBindings, []⟩

theorem calls_twoBindings :
    Calls (evaluate 899) oneStatement twoBindingsPoint.machine (.call "f" [] 2) twoBindingsCall
      twoBindingsPoint.machine := by
  refine .named ?_
  change ((initialEnvironment oneStatement).define "f" (.function "f" [] twoBindings)).get? "f" = _
  rw [Environment.get?_define, if_pos rfl]

/-- Where one statement is allowed, the second one is refused: the call evaluates the first one and no
other, and ends with that error. -/
theorem second_binding_refused :
    ∃ start body first second, attemptsOfCall 899 oneStatement twoBindingsCall start body =
        [⟨.binding "x" (.literal (.int 1) 1) 1, first, true⟩,
          ⟨.binding "y" (.literal (.int 2) 1) 1, second, false⟩] ∧
      (∀ q, (∃ k, CallEvaluates 899 oneStatement twoBindingsCall start body k q) ↔
        q = ⟨oneStatement, .binding "x" (.literal (.int 1) 1) 1, first⟩) ∧
      ∃ line, ((evaluate (899 + 1)).answer twoBindingsPoint).1 = .error (tooDeep line) := by
  obtain ⟨values, body, start, first, second, hstart, hframes, hattempts⟩ :
      ∃ values body start first second,
        (enterCall (evaluate 899) oneStatement "f" [] []).outcome twoBindingsPoint.machine =
          (.ok (values, body), start) ∧ start.frames = [] ∧
        attemptsOfCall 899 oneStatement twoBindingsCall start body =
          [⟨.binding "x" (.literal (.int 1) 1) 1, first, true⟩] ++
            ⟨.binding "y" (.literal (.int 2) 1) 1, second, false⟩ :: [] :=
    ⟨_, _, _, _, _, rfl, rfl, rfl⟩
  have hpoint : Evaluates oneStatement twoBindingsProgram (Session.new oneStatement {}).machine
      (899 + 1) twoBindingsPoint := evaluates_statement parse_twoBindingsProgram rfl
  have hroom : ¬twoBindingsPoint.config.maxCallDepth ≤ start.frames.length := by
    rw [hframes]
    decide
  have hcounted := statements_counted_exactly.1 oneStatement twoBindingsProgram _ 899 twoBindingsPoint
    twoBindingsCall _ values body start (.new oneStatement {}) hpoint calls_twoBindings hstart hroom
  refine ⟨start, body, first, second, hattempts, fun q => ?_, (hcounted.refused _ _ _ hattempts rfl).2⟩
  refine (hcounted.evaluated_iff q).trans ?_
  rw [show attemptsOfCall 899 twoBindingsPoint.config twoBindingsCall start body = _ from hattempts]
  constructor
  · rintro ⟨a, ha, hbegun, rfl⟩
    rcases List.mem_append.mp ha with ha | ha
    · rw [List.mem_singleton.mp ha]
      rfl
    · rw [List.mem_singleton.mp ha] at hbegun
      cases hbegun
  · rintro rfl
    exact ⟨_, List.mem_cons_self, rfl, rfl⟩

end ModuLang
