import ModuLang.Proofs.FrameDiscipline
import ModuLang.Proofs.VisitedMachines

/-!
# The statements of a call

A call comes to the statements of its body and, where a condition holds, to those in the body of a
conditional. Each is counted before it is evaluated, unless it is a `return`, and what goes beyond the
limit is refused. `attemptsOfCall` lists the statements that a call comes to, in order, each with the
machine where it is counted and whether it was begun.

The list is made without regard to how a call runs its body, so two things tie it to the call. What
was begun are exactly the statements that the call evaluates, where `CallEvaluates` collects the
points that its body asks at, and the body of each conditional among them. And where every statement
was begun, the call ends as it would without a limit: `unlimited` is the evaluation that counts the
statements and refuses none.
-/

namespace ModuLang

open Eval Host

variable {β : Type} {ev ev' : Evaluator} {config : Config} {m m' : Machine} {source : String}
  {levels k : Nat} {p q : Point} {s : Node} {nodes : List Node} {passesOver : Bool}

/-! ### What a call comes to -/

/-- Whether a node is a `return`. -/
def Node.isReturn : Node → Bool
  | .returning _ _ => true
  | _ => false

/-- A statement that is come to, the machine where it is counted, and whether it is begun: otherwise it is
refused, and not evaluated. -/
structure Attempt where
  statement : Node
  machine : Machine
  begun : Bool

/-- Where a statement is evaluated, if it is begun. -/
def Attempt.point (config : Config) (a : Attempt) : Point :=
  ⟨config, a.statement, a.machine⟩

/-- Whether a statement is begun that counts toward the limit. -/
def Attempt.counts (a : Attempt) : Bool :=
  a.begun && !a.statement.isReturn

/-- The statements that are come to in a block, each with those inside it. One that is refused ends the
block, and so does one that is interrupted, but for a `return` that is passed over. -/
def attemptsAlong (step : Node → Eval Value) (config : Config) (passesOver : Bool)
    (attempts : Node → Machine → List Attempt) : List Node → Machine → List Attempt
  | [], _ => []
  | s :: rest, m =>
    match (countStatement config s).outcome m with
    | (.error _, m₁) => [⟨s, m₁, false⟩]
    | (.ok _, m₁) =>
      ⟨s, m₁, true⟩ :: (attempts s m₁ ++
        match (step s).outcome m₁ with
        | (.ok _, m₂) => attemptsAlong step config passesOver attempts rest m₂
        | (.error (.returned _), m₂) =>
          if passesOver then attemptsAlong step config passesOver attempts rest m₂ else []
        | (.error _, _) => [])

/-- The statements that are come to inside a statement: those in the body of a conditional whose
condition holds. -/
def attemptsOf [Host.Limits] : Nat → Config → Node → Machine → List Attempt
  | levels + 1, config, .conditional condition body _, m =>
    match (evaluate levels config condition).outcome m with
    | (.ok (.bool true), m') =>
      attemptsAlong (evaluate levels config) config false (attemptsOf levels config) body m'
    | _ => []
  | _, _, _, _ => []

/-- The machine where the body of a call is run, in a frame of its own. -/
def callStart (call : UserCall) (start : Machine) (body : Environment) : Machine :=
  { start with env := body, frames := ⟨call.name, true, 0⟩ :: start.frames }

/-- The statements that a call comes to. -/
def attemptsOfCall [Host.Limits] (levels : Nat) (config : Config) (call : UserCall)
    (start : Machine) (body : Environment) : List Attempt :=
  attemptsAlong (evaluate levels config) config call.passesOver (attemptsOf levels config) call.body
    (callStart call start body)

/-! ### Where a block asks -/

theorem asks_ask (config : Config) (node : Node) (m : Machine) :
    Asks (fun ev => ev config node) ev m ⟨config, node, m⟩ :=
  (sequential_ask config node).asks_of_stops fun leave =>
    ⟨leave _, ev.answer_stopAt_of_mem rfl, rfl⟩

/-- A step that goes on with an answer asks there, or behind it. -/
theorem asks_ask_bind_iff {node : Node} {K : Value → Evaluator → Eval β}
    (hK : ∀ v, Sequential (K v)) :
    Asks (fun ev => ev config node >>= fun v => K v ev) ev m q ↔ q = ⟨config, node, m⟩ ∨
      ∃ v m', (ev config node).outcome m = (.ok v, m') ∧ Asks (K v) ev m' q := by
  constructor
  · intro h
    exact h.bind_cases.imp_left fun hfirst => hfirst.eq_of_ask
  · rintro (rfl | ⟨v, m', hanswer, hrest⟩)
    · exact (asks_ask config node m).bind_left (sequential_ask config node) hK
    · exact Asks.bind_right (sequential_ask config node) hK hanswer hrest

/-- The outcome of a step whose `return` is caught. -/
theorem outcome_catchReturn (x : Eval Value) (m : Machine) :
    (catchReturn x).outcome m =
      match x.outcome m with
      | (.ok v, m') => (.ok (.ok v), m')
      | (.error (.returned v), m') => (.ok (.error v), m')
      | (.error i, m') => (.error i, m') := by
  rw [catchReturn, outcome_tryCatch, outcome_bind]
  obtain ⟨r, m'⟩ := x.outcome m
  cases r with
  | ok v => rfl
  | error i => cases i <;> rfl

/-- The same where a `return` is caught. -/
theorem asks_catchReturn_bind_iff {node : Node} {K : Except Value Value → Evaluator → Eval β}
    (hK : ∀ r, Sequential (K r)) :
    Asks (fun ev => catchReturn (ev config node) >>= fun r => K r ev) ev m q ↔
      q = ⟨config, node, m⟩ ∨
        ∃ r m', (catchReturn (ev config node)).outcome m = (.ok r, m') ∧ Asks (K r) ev m' q := by
  have hcaught : Sequential fun ev => catchReturn (ev config node) :=
    (sequential_ask config node).catchReturn
  constructor
  · intro h
    exact h.bind_cases.imp_left fun hfirst =>
      Asks.eq_of_ask (Asks.of_bind (Asks.of_tryCatch hfirst))
  · rintro (rfl | ⟨r, m', hanswer, hrest⟩)
    · refine Asks.bind_left hcaught hK (hcaught.asks_of_stops fun leave => ?_)
      have hstops : (ev.stopAt (· = ⟨config, node, m⟩) .exited leave config node).outcome m =
          (.error .exited, leave ⟨config, node, m⟩) := ev.answer_stopAt_of_mem rfl
      refine ⟨leave ⟨config, node, m⟩, ?_, rfl⟩
      rw [outcome_catchReturn, hstops]
    · exact Asks.bind_right hcaught hK hanswer hrest

/-- A statement is asked for, and what is behind it, only if it may begin. -/
theorem asks_countStatement_bind_iff {F : Evaluator → Eval β} :
    Asks (fun ev => countStatement config s >>= fun _ => F ev) ev m q ↔
      match (countStatement config s).outcome m with
      | (.ok _, m₁) => Asks F ev m₁ q
      | (.error _, _) => False := by
  cases hcount : (countStatement config s).outcome m with
  | mk r m₁ =>
    cases r with
    | ok _ =>
      have hout : ∀ ev', (countStatement config s >>= fun _ => F ev').outcome m =
          (F ev').outcome m₁ := by
        intro ev'
        rw [outcome_bind, hcount]
      exact ⟨fun h => h.congr fun ev' => (hout ev').symm, fun h => h.congr hout⟩
    | error i =>
      refine iff_of_false (not_asks_of_outcome fun ev' => ?_) not_false
      rw [outcome_bind, outcome_bind, hcount]

/-- The points of the statements of a block that are begun, but for those inside them. -/
def begunAlong (ev : Evaluator) (config : Config) (passesOver : Bool) (nodes : List Node)
    (m : Machine) (q : Point) : Prop :=
  ∃ a ∈ attemptsAlong (ev config) config passesOver (fun _ _ => []) nodes m,
    a.begun = true ∧ a.point config = q

theorem begunAlong_cons_iff {rest : List Node} :
    begunAlong ev config passesOver (s :: rest) m q ↔
      match (countStatement config s).outcome m with
      | (.error _, _) => False
      | (.ok _, m₁) => q = ⟨config, s, m₁⟩ ∨
        match (ev config s).outcome m₁ with
        | (.ok _, m₂) => begunAlong ev config passesOver rest m₂ q
        | (.error (.returned _), m₂) =>
          passesOver = true ∧ begunAlong ev config passesOver rest m₂ q
        | (.error _, _) => False := by
  unfold begunAlong
  rw [attemptsAlong]
  obtain ⟨r, m₁⟩ := (countStatement config s).outcome m
  cases r with
  | error i => simp
  | ok _ =>
    simp only [List.nil_append, List.exists_mem_cons_iff, true_and]
    refine or_congr eq_comm ?_
    obtain ⟨r, m₂⟩ := (ev config s).outcome m₁
    cases r with
    | ok v => exact Iff.rfl
    | error i =>
      cases i with
      | returned v => cases passesOver <;> simp
      | _ => simp

/-- A block asks for the statements that are begun. -/
theorem asks_runBlock_iff :
    Asks (fun ev => runBlock ev config nodes) ev m q ↔ begunAlong ev config false nodes m q := by
  induction nodes generalizing m with
  | nil => exact iff_of_false (not_asks_of_outcome fun _ => rfl) fun ⟨_, ha, _⟩ => by cases ha
  | cons s rest ih =>
    simp only [runBlock]
    rw [asks_countStatement_bind_iff, begunAlong_cons_iff]
    obtain ⟨r, m₁⟩ := (countStatement config s).outcome m
    cases r with
    | error i => exact Iff.rfl
    | ok _ =>
      refine (asks_ask_bind_iff fun _ => sequential_runBlock config rest).trans (or_congr_right ?_)
      simp only [ih]
      obtain ⟨r, m₂⟩ := (ev config s).outcome m₁
      cases r with
      | ok v => simp
      | error i => cases i <;> simp

/-- The body of a function asks for the statements that are begun. -/
theorem asks_runBody_iff :
    Asks (fun ev => runBody ev config passesOver nodes) ev m q ↔
      begunAlong ev config passesOver nodes m q := by
  induction nodes generalizing m with
  | nil => exact iff_of_false (not_asks_of_outcome fun _ => rfl) fun ⟨_, ha, _⟩ => by cases ha
  | cons s rest ih =>
    simp only [runBody]
    rw [asks_countStatement_bind_iff, begunAlong_cons_iff]
    obtain ⟨r, m₁⟩ := (countStatement config s).outcome m
    cases r with
    | error i => exact Iff.rfl
    | ok _ =>
      refine (asks_catchReturn_bind_iff fun r => ?_).trans (or_congr_right ?_)
      · cases r with
        | ok v => exact sequential_runBody config passesOver rest
        | error v => exact (sequential_runBody config passesOver rest).ite (sequential_const _)
      · rw [outcome_catchReturn]
        obtain ⟨r, m₂⟩ := (ev config s).outcome m₁
        cases r with
        | ok v => simp [ih]
        | error i =>
          cases i with
          | returned v =>
            cases passesOver with
            | true => simp [ih]
            | false => simpa using not_asks_of_outcome fun _ => rfl
          | _ => simp

/-- What is come to in a block are its own statements, and what is inside those that are begun. -/
theorem mem_attemptsAlong_iff {step : Node → Eval Value} {attempts : Node → Machine → List Attempt}
    {a : Attempt} :
    a ∈ attemptsAlong step config passesOver attempts nodes m ↔
      a ∈ attemptsAlong step config passesOver (fun _ _ => []) nodes m ∨
        ∃ b ∈ attemptsAlong step config passesOver (fun _ _ => []) nodes m,
          b.begun = true ∧ a ∈ attempts b.statement b.machine := by
  induction nodes generalizing m with
  | nil => simp [attemptsAlong]
  | cons s rest ih =>
    rw [attemptsAlong, attemptsAlong]
    obtain ⟨r, m₁⟩ := (countStatement config s).outcome m
    cases r with
    | error i => simp
    | ok _ =>
      rw [List.exists_mem_cons_iff]
      simp only [List.nil_append, List.mem_cons, List.mem_append, true_and]
      -- Both sides name the statement, what is inside it, and what is behind it.
      obtain ⟨r, m₂⟩ := (step s).outcome m₁
      cases r with
      | ok v => simp only [ih]; tauto
      | error i =>
        cases i with
        | returned v =>
          cases passesOver with
          | true => simp only [if_true, ih]; tauto
          | false => simp
        | _ => simp

/-! ### What a call evaluates -/

theorem asks_inside_iff {F : Evaluator → Eval β} (hF : Sequential F) (e : Environment) :
    Asks (fun ev => inside e (F ev)) ev m q ↔ Asks F ev { m with env := e } q := by
  constructor
  · rintro ⟨ev', hagree, hne⟩
    refine ⟨ev', hagree, fun hsame => hne ?_⟩
    rw [outcome_inside, outcome_inside, hsame]
  · intro h
    refine (hF.inside e).asks_of_stops fun leave => ?_
    obtain ⟨m₁, hstops, hheap⟩ := h.stops hF leave
    refine ⟨{ m₁ with env := m.env }, ?_, hheap⟩
    rw [outcome_inside, hstops]

theorem asks_inFrame_iff {F : Evaluator → Eval β} (hF : Sequential F) (name : String)
    (counted : Bool) (hroom : ¬config.maxCallDepth ≤ m.frames.length) :
    Asks (fun ev => inFrame config name counted (F ev)) ev m q ↔
      Asks F ev { m with frames := ⟨name, counted, 0⟩ :: m.frames } q := by
  constructor
  · rintro ⟨ev', hagree, hne⟩
    refine ⟨ev', hagree, fun hsame => hne ?_⟩
    rw [outcome_inFrame, outcome_inFrame, hsame]
  · intro h
    refine (hF.inFrame config name counted).asks_of_stops fun leave => ?_
    obtain ⟨m₁, hstops, hheap⟩ := h.stops hF leave
    refine ⟨{ m₁ with frames := m₁.frames.tail }, ?_, hheap⟩
    rw [outcome_inFrame, if_neg hroom, hstops]

section Calls

variable {call : UserCall} {callee start : Machine} {values : List Value} {body : Environment}

theorem asks_callBody_iff (hroom : ¬config.maxCallDepth ≤ start.frames.length) :
    Asks (fun ev => callBody ev config call body) ev start q ↔
      begunAlong ev config call.passesOver call.body (callStart call start body) q := by
  have hbody := sequential_runBody config call.passesOver call.body
  unfold callBody
  rw [asks_inside_iff (hbody.inFrame config call.name true),
    asks_inFrame_iff (m := { start with env := body }) hbody call.name true hroom]
  exact asks_runBody_iff

variable [Host.Limits]

/-- The statements that a call evaluates, with the levels that are left: those that its body asks for,
and those that the body of a conditional among them asks for, where the condition holds. -/
inductive CallEvaluates (levels : Nat) (config : Config) (call : UserCall) (start : Machine)
    (body : Environment) : Nat → Point → Prop where
  | body {q : Point} :
      Asks (fun ev => callBody ev config call body) (evaluate levels) start q →
      CallEvaluates levels config call start body levels q
  | inside {k : Nat} {m m' : Machine} {condition : Node} {nodes : List Node} {line : Int} {q : Point} :
      CallEvaluates levels config call start body (k + 1)
        ⟨config, .conditional condition nodes line, m⟩ →
      (evaluate k config condition).outcome m = (.ok (.bool true), m') →
      Asks (fun ev => runBlock ev config nodes) (evaluate k) m' q →
      CallEvaluates levels config call start body k q

/-- What a call evaluates is a point of the run. -/
theorem CallEvaluates.evaluates (hp : Evaluates config source m (levels + 1) p)
    (hcall : Calls (evaluate levels) p.config p.machine p.node call callee)
    (hstart : (enterCall (evaluate levels) p.config call.name call.params call.args).outcome callee =
      (.ok (values, body), start)) (h : CallEvaluates levels p.config call start body k q) :
    Evaluates config source m k q := by
  induction h with
  | body hasks => exact .inner hp (hcall.asks_of_callBody hstart hasks)
  | @inside k _ m' condition nodes line q _ hcondition hasks ih =>
    refine .inner ih ?_
    refine Asks.bind_right (a := .bool true) (sequential_ask p.config condition) (fun v => ?_)
      hcondition (hasks.bind_left (sequential_runBlock p.config nodes) fun _ => sequential_const _)
    cases v with
    | bool b =>
      cases b with
      | true => exact (sequential_runBlock p.config nodes).bind fun _ => sequential_const _
      | false => exact sequential_const _
    | _ => exact sequential_const _

/-- A call evaluates exactly the statements that it comes to and that are begun. -/
theorem callEvaluates_iff (hroom : ¬config.maxCallDepth ≤ start.frames.length) :
    (∃ k, CallEvaluates levels config call start body k q) ↔
      ∃ a ∈ attemptsOfCall levels config call start body, a.begun = true ∧ a.point config = q := by
  constructor
  · rintro ⟨k, h⟩
    -- With each statement the list also has what is inside it.
    suffices hboth : (∃ a ∈ attemptsOfCall levels config call start body,
        a.begun = true ∧ a.point config = q) ∧
        ∀ b ∈ attemptsOf k config q.node q.machine, b ∈ attemptsOfCall levels config call start body from
      hboth.1
    induction h with
    | body hasks =>
      obtain ⟨a, ha, hbegun, rfl⟩ := (asks_callBody_iff hroom).mp hasks
      exact ⟨⟨a, mem_attemptsAlong_iff.mpr (.inl ha), hbegun, rfl⟩, fun b hb =>
        mem_attemptsAlong_iff.mpr (.inr ⟨a, ha, hbegun, hb⟩)⟩
    | @inside k m m' condition nodes line q _ hcondition hasks ih =>
      obtain ⟨a, ha, hbegun, rfl⟩ := asks_runBlock_iff.mp hasks
      have hinside : ∀ b ∈ attemptsAlong (evaluate k config) config false (attemptsOf k config) nodes m',
          b ∈ attemptsOfCall levels config call start body := by
        intro b hb
        refine ih.2 b ?_
        simp only [attemptsOf, hcondition]
        exact hb
      exact ⟨⟨a, hinside a (mem_attemptsAlong_iff.mpr (.inl ha)), hbegun, rfl⟩, fun b hb =>
        hinside b (mem_attemptsAlong_iff.mpr (.inr ⟨a, ha, hbegun, hb⟩))⟩
  · rintro ⟨a, ha, hbegun, rfl⟩
    have hdown : ∀ k s m, CallEvaluates levels config call start body k ⟨config, s, m⟩ →
        a ∈ attemptsOf k config s m →
        ∃ k', CallEvaluates levels config call start body k' (a.point config) := by
      intro k
      induction k with
      | zero => exact fun s m _ hmem => by cases hmem
      | succ k ih =>
        intro s m hs hmem
        cases s with
        | conditional condition nodes line =>
          rw [attemptsOf] at hmem
          split at hmem
          · next m' hcondition =>
            rcases mem_attemptsAlong_iff.mp hmem with hown | ⟨b, hb, hbbegun, hinner⟩
            · exact ⟨k, .inside hs hcondition (asks_runBlock_iff.mpr ⟨a, hown, hbegun, rfl⟩)⟩
            · exact ih _ _ (.inside hs hcondition (asks_runBlock_iff.mpr ⟨b, hb, hbbegun, rfl⟩)) hinner
          · cases hmem
        | _ => cases hmem
    rcases mem_attemptsAlong_iff.mp ha with hown | ⟨b, hb, hbbegun, hinner⟩
    · exact ⟨levels, .body ((asks_callBody_iff hroom).mpr ⟨a, hown, hbegun, rfl⟩)⟩
    · exact hdown levels _ _ (.body ((asks_callBody_iff hroom).mpr ⟨b, hb, hbbegun, rfl⟩)) hinner

end Calls

/-! ### Calls without a limit -/

/-- Counts a statement in the frame that it is in, and refuses none. -/
def tally (statement : Node) : Eval Unit :=
  modify fun m =>
    match m.frames with
    | [] => m
    | frame :: below =>
      if countsToward frame statement then
        { m with frames := { frame with statements := frame.statements + 1 } :: below }
      else m

/-- Runs the statements of a conditional in order, however many there are. -/
def blockUnlimited (ev : Evaluator) (config : Config) : List Node → Eval Unit
  | [] => return
  | statement :: rest => do
    tally statement
    let _ ← ev config statement
    blockUnlimited ev config rest

/-- Runs the statements of a function, however many there are. A `return` ends the body and gives its
value, or it is passed over. -/
def bodyUnlimited (ev : Evaluator) (config : Config) (passesOver : Bool) : List Node → Eval Value
  | [] => return .null
  | statement :: rest => do
    tally statement
    match ← catchReturn (ev config statement) with
    | .ok _ => bodyUnlimited ev config passesOver rest
    | .error value => if passesOver then bodyUnlimited ev config passesOver rest else return value

/-- Evaluates a statement of a call that may begin as many statements as it comes to. What it calls and
imports is limited as ever. -/
def unlimited [Host.Limits] : Nat → Evaluator
  | 0 => evaluate 0
  | levels + 1 => fun config => fun
    | .conditional condition body line =>
      atLine line do
        match ← evaluate levels config condition with
        | .bool true =>
          blockUnlimited (unlimited levels) config body
          return .null
        | .bool false => return .null
        | _ => fail .conditionNotBoolean
    | node => evaluate (levels + 1) config node

/-- Runs the body of a call in a frame of its own, with no limit on its statements. -/
def callUnlimited [Host.Limits] (levels : Nat) (config : Config) (call : UserCall)
    (body : Environment) : Eval Value :=
  inside body (inNewFrame ⟨call.name, true, 0⟩
    (bodyUnlimited (unlimited levels) config call.passesOver call.body))

theorem outcome_tally {m₁ : Machine} (h : (countStatement config s).outcome m = (.ok (), m₁)) :
    (tally s).outcome m = (.ok (), m₁) := by
  have hout : (tally s).outcome m = (.ok (), match m.frames with
      | [] => m
      | frame :: below =>
        if countsToward frame s then
          { m with frames := { frame with statements := frame.statements + 1 } :: below }
        else m) := rfl
  unfold countStatement at h
  rw [outcome_get_bind] at h
  rw [hout]
  cases hframes : m.frames with
  | nil =>
    simp only [hframes] at h
    exact h
  | cons frame below =>
    simp only [hframes] at h
    cases hcounts : countsToward frame s with
    | false =>
      simp only [hcounts, Bool.false_eq_true, if_false] at h ⊢
      exact h
    | true =>
      simp only [hcounts, if_true] at h ⊢
      rw [outcome_modify_bind] at h
      split at h
      · cases h
      · exact h

section Unlimited

variable {attempts : Node → Machine → List Attempt}
  (hnodes : ∀ s ∈ nodes, ∀ m, (∀ a ∈ attempts s m, a.begun = true) →
    (ev' config s).outcome m = (ev config s).outcome m)

include hnodes

theorem outcome_blockUnlimited
    (hbegun : ∀ a ∈ attemptsAlong (ev config) config false attempts nodes m, a.begun = true) :
    (blockUnlimited ev' config nodes).outcome m = (runBlock ev config nodes).outcome m := by
  induction nodes generalizing m with
  | nil => rfl
  | cons s rest ih =>
    rw [attemptsAlong] at hbegun
    rw [blockUnlimited, runBlock, outcome_bind, outcome_bind]
    cases hcount : (countStatement config s).outcome m with
    | mk r m₁ =>
      rw [hcount] at hbegun
      cases r with
      | error i => cases hbegun _ List.mem_cons_self
      | ok _ =>
        obtain ⟨hinner, hrest⟩ := List.forall_mem_append.mp (List.forall_mem_cons.mp hbegun).2
        rw [outcome_tally hcount]
        simp only
        rw [outcome_bind, outcome_bind, hnodes s List.mem_cons_self m₁ hinner]
        revert hrest
        obtain ⟨r, m₂⟩ := (ev config s).outcome m₁
        intro hrest
        cases r with
        | ok v => exact ih (fun s hs => hnodes s (List.mem_cons_of_mem _ hs)) hrest
        | error i => rfl

theorem outcome_bodyUnlimited
    (hbegun : ∀ a ∈ attemptsAlong (ev config) config passesOver attempts nodes m, a.begun = true) :
    (bodyUnlimited ev' config passesOver nodes).outcome m =
      (runBody ev config passesOver nodes).outcome m := by
  induction nodes generalizing m with
  | nil => rfl
  | cons s rest ih =>
    rw [attemptsAlong] at hbegun
    rw [bodyUnlimited, runBody, outcome_bind, outcome_bind]
    cases hcount : (countStatement config s).outcome m with
    | mk r m₁ =>
      rw [hcount] at hbegun
      cases r with
      | error i => cases hbegun _ List.mem_cons_self
      | ok _ =>
        obtain ⟨hinner, hrest⟩ := List.forall_mem_append.mp (List.forall_mem_cons.mp hbegun).2
        rw [outcome_tally hcount]
        simp only
        rw [outcome_bind, outcome_bind, outcome_catchReturn, outcome_catchReturn,
          hnodes s List.mem_cons_self m₁ hinner]
        have hnext := fun {m} => ih (m := m) fun s hs => hnodes s (List.mem_cons_of_mem _ hs)
        revert hrest
        obtain ⟨r, m₂⟩ := (ev config s).outcome m₁
        intro hrest
        cases r with
        | ok v => exact hnext hrest
        | error i =>
          cases i with
          | returned v =>
            cases passesOver with
            | true => exact hnext hrest
            | false => rfl
          | _ => rfl

end Unlimited

/-- Where every statement inside a statement is begun, it ends as it would without a limit. -/
theorem outcome_unlimited [Host.Limits]
    (hbegun : ∀ a ∈ attemptsOf levels config s m, a.begun = true) :
    (unlimited levels config s).outcome m = (evaluate levels config s).outcome m := by
  induction levels generalizing s m with
  | zero => rfl
  | succ levels ih =>
    cases s with
    | conditional condition body line =>
      refine outcome_tryCatch_congr ?_
      rw [attemptsOf] at hbegun
      change (evaluate levels config condition >>= _).outcome m =
        (evaluate levels config condition >>= _).outcome m
      rw [outcome_bind, outcome_bind]
      revert hbegun
      obtain ⟨r, m₁⟩ := (evaluate levels config condition).outcome m
      intro hbegun
      cases r with
      | error i => rfl
      | ok v =>
        cases v with
        | bool b =>
          cases b with
          | true =>
            have hinner : ∀ s ∈ body, ∀ m, (∀ a ∈ attemptsOf levels config s m, a.begun = true) →
                (unlimited levels config s).outcome m = (evaluate levels config s).outcome m :=
              fun s _ m hs => ih hs
            have hblock := outcome_blockUnlimited hinner hbegun
            change (blockUnlimited _ _ _ >>= _).outcome m₁ = (runBlock _ _ _ >>= _).outcome m₁
            rw [outcome_bind, outcome_bind, hblock]
          | false => rfl
        | _ => rfl
    | _ => rfl

/-- A step in an environment and a frame of its own. -/
theorem outcome_inside_inNewFrame (frame : Frame) (x : Eval Value) (e : Environment) (m : Machine) :
    (inside e (inNewFrame frame x)).outcome m =
      match x.outcome { m with env := e, frames := frame :: m.frames } with
      | (r, m') => (r, { m' with env := m.env, frames := m'.frames.tail }) := by
  rw [outcome_inside]
  rfl

/-- A call that begins every statement that it comes to ends as it would without a limit. -/
theorem outcome_callUnlimited [Host.Limits] {call : UserCall} {start : Machine} {body : Environment}
    (hbegun : ∀ a ∈ attemptsOfCall levels config call start body, a.begun = true) :
    (callUnlimited levels config call body).outcome start =
      (callInNewFrame (evaluate levels) config call body).outcome start := by
  have hinner : ∀ s ∈ call.body, ∀ m, (∀ a ∈ attemptsOf levels config s m, a.begun = true) →
      (unlimited levels config s).outcome m = (evaluate levels config s).outcome m :=
    fun s _ m hs => outcome_unlimited hs
  have hbody := outcome_bodyUnlimited hinner hbegun
  unfold callUnlimited callInNewFrame
  rw [outcome_inside_inNewFrame, outcome_inside_inNewFrame]
  exact congrArg (fun out : Outcome Value =>
    (out.1, { out.2 with env := start.env, frames := out.2.frames.tail })) hbody

end ModuLang
