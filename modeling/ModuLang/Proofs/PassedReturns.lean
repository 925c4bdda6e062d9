import ModuLang.Proofs.Returns
import ModuLang.Proofs.StatementCounts

/-!
# Returns that are passed over

Where methods do not give back what they return, a `return` in one is meant to be evaluated and passed
over: it neither ends the body nor supplies the result. The call catches a `return` only behind each
statement of its body. One that is evaluated in a conditional goes through the blocks around it first,
and what stands behind it there is skipped.

`passing` is the evaluation as it is meant: the bodies of conditionals pass a `return` over as well.
`visitsOfCall` lists the statements that a call comes to in the one way or the other, with their places;
the places tell equal statements apart. Block by block the two lists are the same, and the two outcomes
as well but for the `return` itself, until one is evaluated with statements behind it in a conditional.
There they part, since the one list goes on with those statements and the other does not.
-/

namespace ModuLang

open Eval Host

variable {β : Type} {ev ev' : Evaluator} {config : Config} {m m' : Machine} {levels k : Nat} {p : Point}
  {source : String} {s : Node} {nodes : List Node}

/-! ### The statements that are come to -/

/-- Whether a step ended with a `return`. -/
def endsWithReturn : Outcome Value → Bool
  | (.error (.returned _), _) => true
  | _ => false

/-- A statement that is come to, and the numbers of statements behind it, in the blocks around it from
the outermost one inwards; and whether it is a `return` that is evaluated to its end. -/
structure Visit where
  statement : Node
  behind : List Nat
  returns : Bool

/-- A visit inside a statement that has a number of statements behind it. -/
def Visit.inside (k : Nat) (v : Visit) : Visit :=
  { v with behind := k :: v.behind }

/-- What comes of a step: what is done next, or what stands for its interrupt. A `return` may be passed
over. -/
def following (passesOver : Bool) (next : Machine → β) (interrupted : Outcome Value → β) :
    Outcome Value → β
  | (.ok _, m) => next m
  | (.error (.returned v), m) => if passesOver then next m else interrupted (.error (.returned v), m)
  | (.error i, m) => interrupted (.error i, m)

/-- The statements that are come to in a block, each with those inside it. -/
def visitsAlong (step : Node → Eval Value) (config : Config) (passesOver : Bool)
    (inner : Node → Machine → List Visit) : List Node → Machine → List Visit
  | [], _ => []
  | s :: rest, m =>
    match (countStatement config s).outcome m with
    | (.error _, _) => [⟨s, [rest.length], false⟩]
    | (.ok _, m₁) =>
      ⟨s, [rest.length], s.isReturn && endsWithReturn ((step s).outcome m₁)⟩ ::
        ((inner s m₁).map (Visit.inside rest.length) ++
          following passesOver (visitsAlong step config passesOver inner rest) (fun _ => [])
            ((step s).outcome m₁))

/-- The statements that are come to inside a statement: those in the body of a conditional whose
condition holds. The statements there are evaluated by `inBlock`, and a `return` is passed over or
not. -/
def visitsOf [Host.Limits] (inBlock : Nat → Evaluator) (passesOver : Bool) :
    Nat → Config → Node → Machine → List Visit
  | levels + 1, config, .conditional condition body _, m =>
    match (evaluate levels config condition).outcome m with
    | (.ok (.bool true), m') =>
      visitsAlong (inBlock levels config) config passesOver (visitsOf inBlock passesOver levels config)
        body m'
    | _ => []
  | _, _, _, _ => []

/-- The statements that a call comes to whose body passes a `return` over. What `inBlock` evaluates are
the statements of the body and of the conditionals in it. -/
def visitsOfCall [Host.Limits] (inBlock : Nat → Evaluator) (passesOver : Bool) (levels : Nat)
    (config : Config) (call : UserCall) (start : Machine) (body : Environment) : List Visit :=
  visitsAlong (inBlock levels config) config true (visitsOf inBlock passesOver levels config) call.body
    (callStart call start body)

/-- Evaluates a statement where the bodies of conditionals pass a `return` over, as the body of the call
does. -/
def passing [Host.Limits] : Nat → Evaluator
  | 0 => evaluate 0
  | levels + 1 => fun config => fun
    | .conditional condition body line =>
      atLine line do
        match ← evaluate levels config condition with
        | .bool true => runBody (passing levels) config true body
        | .bool false => return .null
        | _ => fail .conditionNotBoolean
    | node => evaluate (levels + 1) config node

/-- Whether a visit is that of an evaluated `return` with statements behind it in one of the blocks
around it. The outermost one does not count where it passes a `return` over. -/
def Visit.CutsShort (passesOver : Bool) (v : Visit) : Prop :=
  v.returns = true ∧ ∃ k ∈ if passesOver then v.behind.tail else v.behind, k ≠ 0

/-! ### Places -/

section Places

variable {passesOver : Bool} {v : Visit} {a a' b b' : List Visit}

theorem cutsShort_inside : (v.inside k).CutsShort passesOver ↔
    v.CutsShort false ∨ v.returns = true ∧ passesOver = false ∧ k ≠ 0 := by
  cases passesOver with
  | true => simp [Visit.CutsShort, Visit.inside]
  | false =>
    simp only [Visit.CutsShort, Visit.inside, Bool.false_eq_true, if_false, List.exists_mem_cons_iff,
      true_and]
    rw [and_or_left, or_comm]

theorem cutsShort_single {returns : Bool} : (⟨s, [k], returns⟩ : Visit).CutsShort passesOver ↔
    returns = true ∧ passesOver = false ∧ k ≠ 0 := by
  cases passesOver <;> simp [Visit.CutsShort]

theorem mem_following {next : Machine → List Visit} {out : Outcome Value}
    (h : v ∈ following passesOver next (fun _ => []) out) : ∃ m, v ∈ next m := by
  obtain ⟨r, m⟩ := out
  cases r with
  | ok _ => exact ⟨m, h⟩
  | error i =>
    cases i with
    | returned _ =>
      cases passesOver with
      | true => exact ⟨m, h⟩
      | false => exact absurd h List.not_mem_nil
    | _ => exact absurd h List.not_mem_nil

/-- A statement of a block has fewer statements behind it than the block has. -/
theorem behind_visitsAlong {step : Node → Eval Value} {inner : Node → Machine → List Visit}
    (h : v ∈ visitsAlong step config passesOver inner nodes m) :
    ∃ k < nodes.length, v.behind.head? = some k := by
  induction nodes generalizing m with
  | nil => exact absurd h List.not_mem_nil
  | cons s rest ih =>
    have hlast : rest.length < (s :: rest).length := Nat.lt_succ_self _
    rw [visitsAlong] at h
    split at h
    · rw [List.mem_singleton.mp h]
      exact ⟨_, hlast, rfl⟩
    · rcases List.mem_cons.mp h with rfl | h
      · exact ⟨_, hlast, rfl⟩
      · rcases List.mem_append.mp h with h | h
        · obtain ⟨w, -, rfl⟩ := List.mem_map.mp h
          exact ⟨_, hlast, rfl⟩
        · obtain ⟨m', h⟩ := mem_following h
          obtain ⟨k, hk, hhead⟩ := ih h
          exact ⟨k, hk.trans hlast, hhead⟩

/-- The visits inside a statement and those behind it are told apart by their places. -/
theorem visits_append_inj (hb : ∀ v ∈ b, v.behind.head? ≠ some k)
    (hb' : ∀ v ∈ b', v.behind.head? ≠ some k) :
    a.map (Visit.inside k) ++ b = a'.map (Visit.inside k) ++ b' ↔ a = a' ∧ b = b' := by
  have hinjective : Function.Injective (Visit.inside k) := by
    rintro ⟨s, behind, returns⟩ ⟨s', behind', returns'⟩ h
    simpa [Visit.inside] using h
  have hinside : ∀ {a b : List Visit}, (∀ v ∈ b, v.behind.head? ≠ some k) →
      (a.map (Visit.inside k) ++ b).filter (fun v => v.behind.head? = some k) =
        a.map (Visit.inside k) := by
    intro a b hb
    have hnone : b.filter (fun v => v.behind.head? = some k) = [] :=
      List.filter_eq_nil_iff.mpr (by simpa using hb)
    rw [List.filter_append, hnone, List.append_nil, List.filter_eq_self]
    intro v hv
    obtain ⟨w, -, rfl⟩ := List.mem_map.mp hv
    simp [Visit.inside]
  refine ⟨fun h => ?_, by rintro ⟨rfl, rfl⟩; rfl⟩
  have hmap : a.map (Visit.inside k) = a'.map (Visit.inside k) := by
    rw [← hinside hb, h, hinside hb']
  refine ⟨hinjective.list_map hmap, ?_⟩
  rw [hmap] at h
  exact List.append_cancel_left h

end Places

/-! ### Blocks -/

/-- Runs the statements of a body that passes a `return` over, or those of a conditional, which does
not. -/
def runSeries (ev : Evaluator) (config : Config) : Bool → List Node → Eval Value
  | true, nodes => runBody ev config true nodes
  | false, nodes => do
    runBlock ev config nodes
    return .null

theorem outcome_runSeries_cons (passesOver : Bool) (s : Node) (rest : List Node) (m : Machine) :
    (runSeries ev config passesOver (s :: rest)).outcome m =
      match (countStatement config s).outcome m with
      | (.error i, m₁) => (.error i, m₁)
      | (.ok _, m₁) => following passesOver (fun m => (runSeries ev config passesOver rest).outcome m) id
          ((ev config s).outcome m₁) := by
  -- Both loops count the statement and evaluate it; a body then catches a `return`.
  cases passesOver with
  | true =>
    change (countStatement config s >>= _).outcome m = _
    rw [outcome_bind]
    obtain ⟨r, m₁⟩ := (countStatement config s).outcome m
    cases r with
    | error i => rfl
    | ok _ =>
      simp only
      rw [outcome_bind, catchReturn, outcome_tryCatch, outcome_bind]
      obtain ⟨r, m₂⟩ := (ev config s).outcome m₁
      cases r with
      | ok v => rfl
      | error i => cases i <;> rfl
  | false =>
    change ((countStatement config s >>= fun _ => ev config s >>= fun _ => runBlock ev config rest) >>=
      fun _ => pure Value.null).outcome m = _
    rw [bind_assoc, outcome_bind]
    obtain ⟨r, m₁⟩ := (countStatement config s).outcome m
    cases r with
    | error i => rfl
    | ok _ =>
      simp only
      rw [bind_assoc, outcome_bind]
      obtain ⟨r, m₂⟩ := (ev config s).outcome m₁
      cases r with
      | ok v => rfl
      | error i => cases i <;> rfl

theorem countStatement_ne_returned (config : Config) (s : Node) (m : Machine) (v : Value) :
    ((countStatement config s).outcome m).1 ≠ .error (.returned v) := by
  have hraises : Raises (fun i => ∀ v, i ≠ .returned v) m (countStatement config s) :=
    raises_countStatement (by simp) s
  exact fun h => hraises _ _ (Prod.ext h rfl) v rfl

/-- How a step may end where a `return` is passed over: as it does otherwise, or well. -/
inductive Passes : Outcome Value → Outcome Value → Prop where
  | same (out : Outcome Value) : Passes out out
  | passed (v : Value) (m : Machine) : Passes (.error (.returned v), m) (.ok .null, m)

/-- Whether no `return` among some visits cuts a block short. -/
def Uncut (passesOver : Bool) (visits : List Visit) : Prop :=
  ∀ v ∈ visits, ¬v.CutsShort passesOver

/-- Whether a step with a number of statements behind it ends without a `return` that skips them. -/
def SkipsNothing (passesOver : Bool) (k : Nat) (out : Outcome Value) : Prop :=
  endsWithReturn out = true → passesOver = true ∨ k = 0

/-- What is said of a step in the one way and in the other: it comes to the same statements exactly under
a condition, and then it also ends in the same way, but for a `return`. -/
structure Compared (condition : Prop) (visits visits' : List Visit) (out out' : Outcome Value) :
    Prop where
  visits_iff : visits = visits' ↔ condition
  passes : condition → Passes out out'

theorem Compared.congr {c d : Prop} {visits visits' : List Visit} {out out' : Outcome Value}
    (h : Compared c visits visits' out out') (hcd : d ↔ c) : Compared d visits visits' out out' :=
  ⟨h.visits_iff.trans hcd.symm, fun hd => h.passes (hcd.mp hd)⟩

theorem compared_same {c : Prop} (hc : c) (visits : List Visit) (out : Outcome Value) :
    Compared c visits visits out out :=
  ⟨iff_of_true rfl hc, fun _ => .same out⟩

/-- A statement is compared by what is inside it, and by what is behind it as far as it ends in the same
way. -/
theorem Compared.followed {c d : Prop} {a a' b b' : List Visit} {out out' rest rest' : Outcome Value}
    (ha : Compared c a a' out out') (hb : Passes out out' → Compared d b b' rest rest')
    (hplaces : ∀ v ∈ b, v.behind.head? ≠ some k) (hplaces' : ∀ v ∈ b', v.behind.head? ≠ some k)
    (own : Visit) :
    Compared (c ∧ d) (own :: (a.map (Visit.inside k) ++ b)) (own :: (a'.map (Visit.inside k) ++ b'))
      rest rest' := by
  refine ⟨?_, fun ⟨hc, hd⟩ => (hb (ha.passes hc)).passes hd⟩
  rw [List.cons.injEq, and_iff_right rfl, visits_append_inj hplaces hplaces', ha.visits_iff]
  exact and_congr_right fun hc => (hb (ha.passes hc)).visits_iff

theorem uncut_of_returns {passesOver : Bool} {visits : List Visit}
    (h : ∀ v ∈ visits, v.returns = false) : Uncut passesOver visits :=
  fun v hv hcut => Bool.false_ne_true ((h v hv).symm.trans hcut.1)

/-- Whether a `return` is evaluated, by a statement itself or inside it. -/
def returnsIn (step : Node → Eval Value) (inner : Node → Machine → List Visit) (s : Node) (m : Machine) :
    Bool :=
  (s.isReturn && endsWithReturn ((step s).outcome m)) || (inner s m).any Visit.returns

section Blocks

variable {passesOver : Bool} {inner inner' : Node → Machine → List Visit}

/-- The body of a conditional ends with a `return` exactly if one is evaluated in it. -/
theorem endsWithReturn_runSeries
    (hnodes : ∀ s ∈ nodes, ∀ m, endsWithReturn ((ev config s).outcome m) =
      returnsIn (ev config) inner s m) :
    endsWithReturn ((runSeries ev config false nodes).outcome m) =
      (visitsAlong (ev config) config false inner nodes m).any Visit.returns := by
  -- A `return` is not passed over here: it ends the block, and nothing behind it is visited.
  induction nodes generalizing m with
  | nil => rfl
  | cons s rest ih =>
    have hcount := countStatement_ne_returned config s m
    rw [outcome_runSeries_cons, visitsAlong]
    revert hcount
    obtain ⟨r, m₁⟩ := (countStatement config s).outcome m
    intro hcount
    cases r with
    | error i =>
      cases i with
      | returned v => exact absurd rfl (hcount v)
      | _ => rfl
    | ok _ =>
      have hs := hnodes s List.mem_cons_self m₁
      have hrest := fun m => ih (m := m) fun s hs => hnodes s (List.mem_cons_of_mem _ hs)
      simp only [List.any_cons, List.any_append, List.any_map, ← Bool.or_assoc]
      change _ = (returnsIn (ev config) inner s m₁ || _)
      rw [← hs]
      obtain ⟨r, m₂⟩ := (ev config s).outcome m₁
      cases r with
      | ok v => exact hrest m₂
      | error i => cases i <;> rfl

/-- Neither a statement nor a `return` inside it cuts the block short exactly if none cuts a block short
inside the statement, and the statement skips nothing of its own block. -/
theorem uncut_statement_iff
    (hs : endsWithReturn ((ev config s).outcome m) = returnsIn (ev config) inner s m) :
    Uncut passesOver (⟨s, [k], s.isReturn && endsWithReturn ((ev config s).outcome m)⟩ ::
        (inner s m).map (Visit.inside k)) ↔
      Uncut false (inner s m) ∧ SkipsNothing passesOver k ((ev config s).outcome m) := by
  have hreturns : endsWithReturn ((ev config s).outcome m) = true ↔
      (s.isReturn && endsWithReturn ((ev config s).outcome m)) = true ∨
        ∃ v ∈ inner s m, v.returns = true := by
    rw [← List.any_eq_true, ← Bool.or_eq_true]
    exact Bool.eq_iff_iff.mp hs
  have hkept : (passesOver = true ∨ k = 0) ↔ ¬(passesOver = false ∧ k ≠ 0) := by
    rw [not_and_or, not_not, Bool.not_eq_false]
  unfold Uncut SkipsNothing
  rw [List.forall_mem_cons, List.forall_mem_map, cutsShort_single, hreturns, hkept]
  simp only [cutsShort_inside]
  constructor
  · rintro ⟨hown, hinner⟩
    refine ⟨fun v hv hcut => hinner v hv (.inl hcut), ?_⟩
    rintro (h | ⟨v, hv, h⟩) hskips
    · exact hown ⟨h, hskips⟩
    · exact hinner v hv (.inr ⟨h, hskips⟩)
  · rintro ⟨hinner, hends⟩
    refine ⟨fun ⟨h, hskips⟩ => hends (.inl h) hskips, fun v hv => ?_⟩
    rintro (hcut | ⟨h, hskips⟩)
    · exact hinner v hv hcut
    · exact hends (.inr ⟨v, hv, h⟩) hskips

/-- What comes behind a statement is the same exactly if the statement skips nothing of it, and nothing
is cut short there. -/
theorem compared_following {next next' : Machine → List Visit} {run run' : Machine → Outcome Value}
    {out out' : Outcome Value} (hpasses : Passes out out')
    (hnext : ∀ m, Compared (Uncut passesOver (next m)) (next m) (next' m) (run m) (run' m))
    (hempty : ∀ m, [] = next' m ↔ k = 0) (hend : k = 0 → ∀ m, run' m = (.ok .null, m)) :
    Compared
      (SkipsNothing passesOver k out ∧ Uncut passesOver (following passesOver next (fun _ => []) out))
      (following passesOver next (fun _ => []) out) (following true next' (fun _ => []) out')
      (following passesOver run id out) (following true run' id out') := by
  have hnone : Uncut passesOver [] := fun _ hv => absurd hv List.not_mem_nil
  -- A `return` is passed over, or it ends the block.
  have hreturned : ∀ v m, Compared (SkipsNothing passesOver k (.error (.returned v), m) ∧
        Uncut passesOver (if passesOver then next m else []))
      (if passesOver then next m else []) (next' m)
      (if passesOver then run m else (.error (.returned v), m)) (run' m) := by
    intro v m
    cases passesOver with
    | true => exact (hnext m).congr (and_iff_right fun _ => .inl rfl)
    | false =>
      have hlast : SkipsNothing false k (.error (.returned v), m) ∧ Uncut false [] ↔ k = 0 := by
        simp [SkipsNothing, endsWithReturn, hnone]
      refine Compared.congr ⟨hempty m, fun hk => ?_⟩ hlast
      rw [hend hk m]
      exact .passed v m
  cases hpasses with
  | passed v m => exact hreturned v m
  | same =>
    obtain ⟨r, m⟩ := out
    have hends : false = true → passesOver = true ∨ k = 0 := fun h => absurd h Bool.false_ne_true
    cases r with
    | ok v => exact (hnext m).congr (and_iff_right hends)
    | error i =>
      cases i with
      | returned v => exact hreturned v m
      | _ => exact compared_same ⟨hends, hnone⟩ _ _

theorem nil_eq_visitsAlong {step : Node → Eval Value} :
    [] = visitsAlong step config passesOver inner nodes m ↔ nodes.length = 0 := by
  cases nodes with
  | nil => exact iff_of_true rfl rfl
  | cons s rest =>
    refine iff_of_false (fun h => ?_) (Nat.succ_ne_zero _)
    rw [visitsAlong] at h
    split at h <;> cases h

/-- A block is evaluated in the same way exactly if no `return` cuts it short, where that is so of each
of its statements. -/
theorem compared_runSeries (passesOver : Bool)
    (hreturns : ∀ s ∈ nodes, ∀ m, endsWithReturn ((ev config s).outcome m) =
      returnsIn (ev config) inner s m)
    (hsame : ∀ s ∈ nodes, s.isReturn = true → ev' config s = ev config s)
    (hcompared : ∀ s ∈ nodes, ∀ m, Compared (Uncut false (inner s m)) (inner s m) (inner' s m)
      ((ev config s).outcome m) ((ev' config s).outcome m)) :
    Compared (Uncut passesOver (visitsAlong (ev config) config passesOver inner nodes m))
      (visitsAlong (ev config) config passesOver inner nodes m)
      (visitsAlong (ev' config) config true inner' nodes m)
      ((runSeries ev config passesOver nodes).outcome m)
      ((runSeries ev' config true nodes).outcome m) := by
  induction nodes generalizing m with
  | nil =>
    refine ⟨iff_of_true rfl fun _ hv => absurd hv List.not_mem_nil, fun _ => ?_⟩
    cases passesOver <;> exact .same _
  | cons s rest ih =>
    rw [outcome_runSeries_cons, outcome_runSeries_cons, visitsAlong, visitsAlong]
    obtain ⟨r, m₁⟩ := (countStatement config s).outcome m
    cases r with
    | error i => exact compared_same (uncut_of_returns (by simp)) _ _
    | ok _ =>
      have hs := hcompared s List.mem_cons_self m₁
      have hrest := fun m => ih (m := m) (fun s hs => hreturns s (List.mem_cons_of_mem _ hs))
        (fun s hs => hsame s (List.mem_cons_of_mem _ hs)) fun s hs =>
          hcompared s (List.mem_cons_of_mem _ hs)
      -- A `return` is evaluated in the same way, so the statement itself is the same visit.
      have hown : (s.isReturn && endsWithReturn ((ev' config s).outcome m₁)) =
          (s.isReturn && endsWithReturn ((ev config s).outcome m₁)) := by
        cases hreturn : s.isReturn with
        | false => rfl
        | true => rw [hsame s List.mem_cons_self hreturn]
      -- Fewer statements are left behind what follows the statement than behind what is inside it.
      have hplaces : ∀ {step : Node → Eval Value} {inner : Node → Machine → List Visit} {b : Bool}
          {out : Outcome Value},
          ∀ v ∈ following b (visitsAlong step config b inner rest) (fun _ => []) out,
            v.behind.head? ≠ some rest.length := by
        intro step inner b out v hv hhead
        obtain ⟨m, hv⟩ := mem_following hv
        obtain ⟨k, hk, hhead'⟩ := behind_visitsAlong hv
        exact absurd (Option.some.inj (hhead'.symm.trans hhead)) hk.ne
      simp only
      rw [hown]
      refine (hs.followed (fun hpasses => compared_following (k := rest.length) hpasses hrest
        (fun m => nil_eq_visitsAlong) fun hk m => ?_) hplaces hplaces _).congr ?_
      · rw [List.length_eq_zero_iff.mp hk]
        rfl
      · rw [← List.cons_append, Uncut, List.forall_mem_append, ← and_assoc]
        exact and_congr_left' (uncut_statement_iff (hreturns s List.mem_cons_self m₁))

end Blocks

/-! ### Statements -/

theorem passing_of_not_conditional [Host.Limits] (hs : ¬s.IsConditional) (levels : Nat)
    (config : Config) :
    passing levels config s = evaluate levels config s := by
  cases levels with
  | zero => rfl
  | succ levels =>
    cases s with
    | conditional => exact absurd trivial hs
    | _ => rfl

theorem passing_of_isReturn [Host.Limits] (levels : Nat) (config : Config)
    (hs : s.isReturn = true) :
    passing levels config s = evaluate levels config s := by
  refine passing_of_not_conditional (fun hconditional => ?_) levels config
  cases s <;> first | exact hconditional | cases hs

theorem visitsOf_of_not_conditional [Host.Limits] {inBlock : Nat → Evaluator} {passesOver : Bool}
    (hs : ¬s.IsConditional) : visitsOf inBlock passesOver levels config s m = [] := by
  cases levels with
  | zero => rfl
  | succ levels =>
    cases s with
    | conditional => exact absurd trivial hs
    | _ => rfl

/-- A statement of a function is a conditional, a `return`, or could stand outside of functions. -/
theorem Node.Statement.kinds (hs : s.Statement true) :
    (∃ condition body line, s = .conditional condition body line ∧ condition.Expression ∧
        ∀ c ∈ body, c.Statement true) ∨
      s.isReturn = true ∧ ¬s.IsConditional ∨ s.Statement false ∧ ¬s.IsConditional := by
  cases hs with
  | expression hexpr =>
    refine .inr (.inr ⟨.expression hexpr, fun hconditional => ?_⟩)
    have hform := hexpr.form
    cases s <;> first | exact hconditional | exact hform
  | binding hvalue => exact .inr (.inr ⟨.binding hvalue, not_false⟩)
  | importing => exact .inr (.inr ⟨.importing, not_false⟩)
  | definition hbody => exact .inr (.inr ⟨.definition hbody, not_false⟩)
  | conditional hcondition hbody => exact .inl ⟨_, _, _, rfl, hcondition, hbody⟩
  | returning | returningValue => exact .inr (.inl ⟨rfl, not_false⟩)

/-- What a conditional does behind its condition. -/
def branch (held : Eval Value) : Value → Eval Value
  | .bool true => held
  | .bool false => return .null
  | _ => fail .conditionNotBoolean

theorem evaluate_conditional [Host.Limits] (levels : Nat) (config : Config) (condition : Node)
    (body : List Node) (line : Int) :
    evaluate (levels + 1) config (.conditional condition body line) =
      atLine line (evaluate levels config condition >>=
        branch (runSeries (evaluate levels) config false body)) := by
  refine congrArg (atLine line) (congrArg (evaluate levels config condition >>= ·) (funext fun v => ?_))
  cases v with
  | bool b => cases b <;> rfl
  | _ => rfl

theorem passing_conditional [Host.Limits] (levels : Nat) (config : Config) (condition : Node)
    (body : List Node) (line : Int) :
    passing (levels + 1) config (.conditional condition body line) =
      atLine line (evaluate levels config condition >>=
        branch (runSeries (passing levels) config true body)) := by
  refine congrArg (atLine line) (congrArg (evaluate levels config condition >>= ·) (funext fun v => ?_))
  cases v with
  | bool b => cases b <;> rfl
  | _ => rfl

theorem endsWithReturn_atLine (x : Eval Value) (line : Int) (m : Machine) :
    endsWithReturn ((atLine line x).outcome m) = endsWithReturn (x.outcome m) := by
  rw [atLine, outcome_tryCatch]
  obtain ⟨r, m'⟩ := x.outcome m
  cases r with
  | ok v => rfl
  | error i =>
    cases i with
    | failed failure => cases failure <;> rfl
    | _ => rfl

theorem Passes.atLine {x y : Eval Value} (h : Passes (x.outcome m) (y.outcome m)) (line : Int) :
    Passes ((atLine line x).outcome m) ((atLine line y).outcome m) := by
  rw [Eval.atLine, Eval.atLine, outcome_tryCatch, outcome_tryCatch]
  revert h
  generalize x.outcome m = out, y.outcome m = out'
  intro h
  cases h with
  | same => exact .same _
  | passed v m => exact .passed v m

theorem Compared.atLine {c : Prop} {visits visits' : List Visit} {x y : Eval Value}
    (h : Compared c visits visits' (x.outcome m) (y.outcome m)) (line : Int) :
    Compared c visits visits' ((Eval.atLine line x).outcome m) ((Eval.atLine line y).outcome m) :=
  ⟨h.visits_iff, fun hc => (h.passes hc).atLine line⟩

theorem endsWithReturn_of_raises {x : Eval Value} (hx : Raises (fun i => ∀ v, i ≠ .returned v) m x) :
    endsWithReturn (x.outcome m) = false := by
  cases hout : x.outcome m with
  | mk r m' =>
    cases r with
    | ok v => rfl
    | error i =>
      cases i with
      | returned v => exact absurd rfl (hx _ _ hout v)
      | _ => rfl

/-- A statement ends with a `return` exactly if one is evaluated, by itself or inside it. -/
theorem Node.Statement.endsWithReturn_eq [Host.Limits] (hs : s.Statement true) (levels : Nat)
    (config : Config) (m : Machine) :
    endsWithReturn ((evaluate levels config s).outcome m) =
      returnsIn (evaluate levels config) (visitsOf evaluate false levels config) s m := by
  induction levels generalizing s m with
  | zero => cases s <;> rfl
  | succ levels ih =>
    rcases hs.kinds with
      ⟨condition, body, line, rfl, hcondition, hbody⟩ | ⟨hreturn, hne⟩ | ⟨hsimple, hne⟩
    · have hnever := endsWithReturn_of_raises
        ((Node.Statement.expression hcondition).never_returns levels config m)
      change _ = (visitsOf evaluate false (levels + 1) config _ m).any Visit.returns
      rw [evaluate_conditional, endsWithReturn_atLine, outcome_bind, visitsOf]
      -- The condition is an expression, so it does not return.
      revert hnever
      obtain ⟨r, m₁⟩ := (evaluate levels config condition).outcome m
      intro hnever
      cases r with
      | error i => cases i <;> first | rfl | exact absurd hnever Bool.noConfusion
      | ok v =>
        cases v with
        | bool b =>
          cases b with
          | true => exact endsWithReturn_runSeries fun c hc m => ih (hbody c hc) m
          | false => rfl
        | _ => rfl
    · rw [returnsIn, hreturn, visitsOf_of_not_conditional hne, Bool.true_and]
      exact (Bool.or_false _).symm
    · rw [returnsIn, visitsOf_of_not_conditional hne,
        endsWithReturn_of_raises (hsimple.never_returns (levels + 1) config m), Bool.and_false]
      rfl

/-- A statement is evaluated as it is meant to be exactly if no `return` in it cuts a conditional
short. -/
theorem Node.Statement.compared [Host.Limits] (hs : s.Statement true) (levels : Nat)
    (config : Config) (m : Machine) :
    Compared (Uncut false (visitsOf evaluate false levels config s m))
      (visitsOf evaluate false levels config s m) (visitsOf passing true levels config s m)
      ((evaluate levels config s).outcome m) ((passing levels config s).outcome m) := by
  have hsimple : ∀ {levels} {s : Node} {m}, ¬s.IsConditional →
      Compared (Uncut false (visitsOf evaluate false levels config s m))
        (visitsOf evaluate false levels config s m) (visitsOf passing true levels config s m)
        ((evaluate levels config s).outcome m) ((passing levels config s).outcome m) := by
    intro levels s m hne
    rw [passing_of_not_conditional hne, visitsOf_of_not_conditional hne, visitsOf_of_not_conditional hne]
    exact compared_same (uncut_of_returns (by simp)) _ _
  -- The statements in the body of a conditional are evaluated one level below it.
  induction levels generalizing s m with
  | zero => exact compared_same (uncut_of_returns (by simp [visitsOf])) _ _
  | succ levels ih =>
    rcases hs.kinds with ⟨condition, body, line, rfl, -, hbody⟩ | ⟨-, hne⟩ | ⟨-, hne⟩
    · rw [evaluate_conditional, passing_conditional, visitsOf, visitsOf]
      refine Compared.atLine ?_ line
      rw [outcome_bind, outcome_bind]
      obtain ⟨r, m₁⟩ := (evaluate levels config condition).outcome m
      have hnothing : ∀ out, Compared (Uncut false []) [] [] out out :=
        compared_same (uncut_of_returns (by simp)) []
      cases r with
      | error i => exact hnothing _
      | ok v =>
        cases v with
        | bool b =>
          cases b with
          | true =>
            exact compared_runSeries false (fun c hc => (hbody c hc).endsWithReturn_eq levels config)
              (fun c _ => passing_of_isReturn levels config) fun c hc => ih (hbody c hc)
          | false => exact hnothing _
        | _ => exact hnothing _
    · exact hsimple hne
    · exact hsimple hne

/-! ### Statements that are counted -/

section Attempts

variable {passesOver : Bool} {step : Node → Eval Value} {attempts : Node → Machine → List Attempt}
  {inner : Node → Machine → List Visit}

theorem statements_visitsAlong
    (hinner : ∀ s m, (attempts s m).map Attempt.statement = (inner s m).map Visit.statement) :
    (attemptsAlong step config passesOver attempts nodes m).map Attempt.statement =
      (visitsAlong step config passesOver inner nodes m).map Visit.statement := by
  induction nodes generalizing m with
  | nil => rfl
  | cons s rest ih =>
    rw [attemptsAlong, visitsAlong]
    obtain ⟨r, m₁⟩ := (countStatement config s).outcome m
    cases r with
    | error i => rfl
    | ok _ =>
      simp only [List.map_cons, List.map_append, List.map_map, hinner]
      congr 2
      obtain ⟨r, m₂⟩ := (step s).outcome m₁
      cases r with
      | ok v => exact ih
      | error i =>
        cases i with
        | returned v =>
          cases passesOver with
          | true => exact ih
          | false => rfl
        | _ => rfl

variable [Host.Limits]

theorem statements_visitsOf (levels : Nat) (config : Config) (s : Node) (m : Machine) :
    (attemptsOf levels config s m).map Attempt.statement =
      (visitsOf evaluate false levels config s m).map Visit.statement := by
  induction levels generalizing s m with
  | zero => rfl
  | succ levels ih =>
    cases s with
    | conditional condition body line =>
      rw [attemptsOf, visitsOf]
      obtain ⟨r, m₁⟩ := (evaluate levels config condition).outcome m
      cases r with
      | error i => rfl
      | ok v =>
        cases v with
        | bool b =>
          cases b with
          | true => exact statements_visitsAlong ih
          | false => rfl
        | _ => rfl
    | _ => rfl

/-- The statements that a call comes to are those that it attempts, in that order. -/
theorem statements_visitsOfCall {call : UserCall} (hover : call.passesOver = true) (levels : Nat)
    (config : Config) (start : Machine) (body : Environment) :
    (visitsOfCall evaluate false levels config call start body).map Visit.statement =
      (attemptsOfCall levels config call start body).map Attempt.statement := by
  rw [attemptsOfCall, hover]
  exact (statements_visitsAlong (statements_visitsOf levels config)).symm

end Attempts

/-! ### Calls -/

/-- Whether a step gives null if it gives a value, and does not end with a `return`. -/
def GivesNull (out : Outcome Value) : Prop :=
  (∀ v, out.1 = .ok v → v = .null) ∧ ∀ v, out.1 ≠ .error (.returned v)

theorem givesNull_ok (m : Machine) : GivesNull (.ok .null, m) :=
  ⟨fun _ hv => (Except.ok.inj hv).symm, by simp⟩

theorem givesNull_error {i : Interrupt} (hi : ∀ v, i ≠ .returned v) (m : Machine) :
    GivesNull (.error i, m) :=
  ⟨by simp, fun v hv => hi v (Except.error.inj hv)⟩

/-- Statements that pass a `return` over give null, as they are done. -/
theorem givesNull_runSeries (ev : Evaluator) (config : Config) (nodes : List Node) (m : Machine) :
    GivesNull ((runSeries ev config true nodes).outcome m) := by
  induction nodes generalizing m with
  | nil => exact givesNull_ok m
  | cons s rest ih =>
    have hcount := countStatement_ne_returned config s m
    rw [outcome_runSeries_cons]
    revert hcount
    obtain ⟨r, m₁⟩ := (countStatement config s).outcome m
    intro hcount
    cases r with
    | error i => exact givesNull_error (fun v hi => hcount v (congrArg _ hi)) m₁
    | ok _ =>
      simp only
      obtain ⟨r, m₂⟩ := (ev config s).outcome m₁
      cases r with
      | ok v => exact ih m₂
      | error i =>
        cases i with
        | returned v => exact ih m₂
        | _ => exact givesNull_error (by simp) m₂

theorem GivesNull.atLine {x : Eval Value} (h : GivesNull (x.outcome m)) (line : Int) :
    GivesNull ((Eval.atLine line x).outcome m) := by
  rw [Eval.atLine, outcome_tryCatch]
  revert h
  obtain ⟨r, m₁⟩ := x.outcome m
  intro h
  cases r with
  | ok v => exact h
  | error i =>
    cases i with
    | failed failure => cases failure <;> exact givesNull_error (by simp) m₁
    | returned v => exact absurd rfl (h.2 v)
    | exited => exact givesNull_error (by simp) m₁

theorem Passes.eq_of_givesNull {out out' : Outcome Value} (h : Passes out out') (hout : GivesNull out) :
    out = out' := by
  cases h with
  | same => rfl
  | passed v m => exact absurd rfl (hout.2 v)

/-- A call in a new frame ends as its body does. -/
theorem outcome_callInNewFrame (ev : Evaluator) (config : Config) (call : UserCall) (start : Machine)
    (body : Environment) :
    (callInNewFrame ev config call body).outcome start =
      match (runBody ev config call.passesOver call.body).outcome (callStart call start body) with
      | (r, m) => (r, { m with env := start.env, frames := m.frames.tail }) := by
  rw [callInNewFrame, outcome_inside_inNewFrame]
  rfl

/-- What does not depend on the script is the same at all points of a run. -/
theorem Evaluates.eq_of_withScript [Host.Limits] {γ : Type}
    (hp : Evaluates config source m levels p) (f : Config → γ)
    (hf : ∀ c path, f (c.withScript path) = f c) : f p.config = f config := by
  induction hp with
  | statement hasks => rw [(Asks.of_runTopLevel (keepsFrames_evaluate stackLimit) hasks).1]
  | @inner levels p q _ hasks ih =>
    have hleads : Leads p q := hasks.leads (keepsFrames_evaluate levels)
    rw [← ih]
    cases hleads with
    | file => exact hf _ _
    | _ => rfl

/-- What is true of a call whose body passes a `return` over. -/
structure CallPassesOver [Host.Limits] (levels : Nat) (p : Point) (call : UserCall)
    (start : Machine) (body : Environment) : Prop where
  /-- The call does not end with a `return`, and gives null if it gives a value. -/
  null : GivesNull ((evaluate (levels + 1)).answer p)
  /-- The statements that it comes to are those that it attempts. -/
  statements_eq : (visitsOfCall evaluate false levels p.config call start body).map Visit.statement =
    (attemptsOfCall levels p.config call start body).map Attempt.statement
  /-- It comes to the statements that it is meant to come to exactly if no `return` cuts a conditional
  short. -/
  visits_iff : visitsOfCall evaluate false levels p.config call start body =
      visitsOfCall passing true levels p.config call start body ↔
    Uncut true (visitsOfCall evaluate false levels p.config call start body)
  /-- Then it does what it is meant to do. -/
  answer_eq : Uncut true (visitsOfCall evaluate false levels p.config call start body) →
    (evaluate (levels + 1)).answer p =
      (atLine p.node.line (callInNewFrame (passing levels) p.config call body)).outcome start

/-- Where methods do not give back what they return, a method never gives a value but null. It comes to
the statements that it is meant to come to, in order and none skipped, exactly if no `return` is
evaluated in a conditional with statements behind it, there or in a conditional around it. Then it also
ends as it is meant to. -/
theorem method_call_passes_returns_over [Host.Limits] {object : Node} {name : String}
    {args : List Node} {line : Int}
    {call : UserCall} {callee start : Machine} {values : List Value} {body : Environment}
    (hconfig : config.returnFromMethods = false) (hm : Session.Starts m)
    (hp : Evaluates config source m (levels + 1) p) (hnode : p.node = .methodCall object name args line)
    (hcall : Calls (evaluate levels) p.config p.machine p.node call callee)
    (hstart : (enterCall (evaluate levels) p.config call.name call.params call.args).outcome callee =
      (.ok (values, body), start))
    (hroom : ¬p.config.maxCallDepth ≤ start.frames.length) :
    CallPassesOver levels p call start body := by
  -- An import changes the script of a configuration, and nothing about what methods return.
  have hover : call.passesOver = true := by
    have hlegacy := hp.eq_of_withScript Config.returnFromMethods fun _ _ => rfl
    rw [hconfig] at hlegacy
    obtain ⟨pconfig, node, machine⟩ := p
    cases hcall with
    | named => cases hnode
    | property => exact (Bool.not_eq_true' _).mpr hlegacy
  have hbody := (hcall.sorted hm hp).1
  have hcompared := compared_runSeries (m := callStart call start body) true
    (fun s hs => (hbody s hs).endsWithReturn_eq levels p.config)
    (fun s _ => passing_of_isReturn levels p.config) fun s hs => (hbody s hs).compared levels p.config
  have hanswer := answer_call hcall hstart
  rw [if_neg hroom] at hanswer
  have hnull := givesNull_runSeries (evaluate levels) p.config call.body (callStart call start body)
  refine ⟨?_, statements_visitsOfCall hover levels p.config start body, hcompared.visits_iff,
    fun huncut => ?_⟩
  · rw [hanswer]
    refine GivesNull.atLine ?_ _
    rw [outcome_callInNewFrame, hover]
    exact hnull
  · rw [hanswer]
    refine outcome_tryCatch_congr ?_
    have hsame := (hcompared.passes huncut).eq_of_givesNull hnull
    rw [outcome_callInNewFrame, outcome_callInNewFrame, hover]
    change (runBody _ _ _ _).outcome _ = (runBody _ _ _ _).outcome _ at hsame
    rw [hsame]

/-! ### Two methods -/

/-- The configuration under which methods do not give back what they return. -/
def legacyReturns : Config :=
  { returnFromMethods := false }

/-- The call of the method at the end of a program. -/
def methodCall : Node :=
  .methodCall (.identifier "o" 4) "f" [] 4

/-- A program with an object that has a function as its method. -/
def methodProgram (text : String) : String :=
  text ++ "\nlet o = \x7b\"f\": f\x7d\no.f()"

/-- The statements of the program before the call. -/
def beforeMethodCall (body : List Node) : List Node :=
  [.definition "f" [] body 1, .binding "o" (.record [("f", .identifier "f" 3)] 3) 3]

/-- The machine where the method is called. -/
def methodStart (body : List Node) : Machine :=
  ((runTopLevel (evaluate stackLimit) legacyReturns none 0 (beforeMethodCall body)).outcome
    (Session.new legacyReturns {}).machine).2

/-- The call of the program. -/
def legacyCall (body : List Node) : UserCall :=
  ⟨true, "f", [], body, []⟩

theorem evaluates_methodCall {text : String} {body : List Node}
    (hparse : Source.parse (methodProgram text) =
      ⟨beforeMethodCall body ++ [methodCall], none⟩) :
    Evaluates legacyReturns (methodProgram text) (Session.new legacyReturns {}).machine (899 + 1)
      ⟨legacyReturns, methodCall, methodStart body⟩ := by
  refine evaluates_statement hparse (Prod.ext ?_ rfl)
  cbv

theorem calls_legacyCall (body : List Node) :
    Calls (evaluate 899) legacyReturns (methodStart body) methodCall (legacyCall body)
      (methodStart body) := by
  refine .property (a := 1) ?_
  cbv

/-- The tokens behind the function of the program. -/
def methodTokens : List Source.Token :=
  [⟨.newline, "\n", 2⟩, ⟨.letWord, "let", 3⟩, ⟨.identifier, "o", 3⟩, ⟨.assign, "=", 3⟩,
    ⟨.leftBrace, "\x7b", 3⟩, ⟨.string, "\"f\"", 3⟩, ⟨.colon, ":", 3⟩, ⟨.identifier, "f", 3⟩,
    ⟨.rightBrace, "\x7d", 3⟩, ⟨.newline, "\n", 3⟩, ⟨.identifier, "o", 4⟩, ⟨.dot, ".", 4⟩,
    ⟨.identifier, "f", 4⟩, ⟨.leftParen, "(", 4⟩, ⟨.rightParen, ")", 4⟩, ⟨.newline, "\n", 4⟩]

/-- A statement that prints a word. -/
def printAfter : Node :=
  .call "print" [.text ⟨"\"after\"", 2⟩] 2

/-- A condition that holds. -/
def heldCondition : Node :=
  .isPresent (.literal (.bool true) 1) 1

/-- A statement that returns a number. -/
def returnNumber (n : Int) : Node :=
  .returning (some (.literal (.int n) 1)) 1

/-- A function that prints behind a `return` in a conditional. -/
def skippingText : String :=
  "fn f() \x7b if true \x7b return 1\n print(\"after\") \x7d \x7d"

/-- The statements of the function. -/
def skippingBody : List Node :=
  [.conditional heldCondition [returnNumber 1, printAfter] 1]

theorem parse_skipping : Source.parse (methodProgram skippingText) =
    ⟨beforeMethodCall skippingBody ++ [methodCall], none⟩ := by
  have htokens : Source.tokenize (methodProgram skippingText) =
      ([⟨.fnWord, "fn", 1⟩, ⟨.identifier, "f", 1⟩, ⟨.leftParen, "(", 1⟩, ⟨.rightParen, ")", 1⟩,
        ⟨.leftBrace, "\x7b", 1⟩, ⟨.ifWord, "if", 1⟩, ⟨.boolean, "true", 1⟩, ⟨.leftBrace, "\x7b", 1⟩,
        ⟨.returnWord, "return", 1⟩, ⟨.number, "1", 1⟩, ⟨.newline, "\n", 1⟩,
        ⟨.identifier, "print", 2⟩, ⟨.leftParen, "(", 2⟩, ⟨.string, "\"after\"", 2⟩,
        ⟨.rightParen, ")", 2⟩, ⟨.rightBrace, "\x7d", 2⟩, ⟨.rightBrace, "\x7d", 2⟩] ++ methodTokens,
        none) := by
    decide +kernel
  unfold Source.parse
  rw [htokens]
  cbv

/-- A function that prints behind a `return` and behind a conditional with another one. -/
def passingText : String :=
  "fn f() \x7b return 1; if true \x7b return 2 \x7d\n print(\"after\") \x7d"

/-- The statements of the function. -/
def passingBody : List Node :=
  [returnNumber 1, .conditional heldCondition [returnNumber 2] 1, printAfter]

theorem parse_passing : Source.parse (methodProgram passingText) =
    ⟨beforeMethodCall passingBody ++ [methodCall], none⟩ := by
  have htokens : Source.tokenize (methodProgram passingText) =
      ([⟨.fnWord, "fn", 1⟩, ⟨.identifier, "f", 1⟩, ⟨.leftParen, "(", 1⟩, ⟨.rightParen, ")", 1⟩,
        ⟨.leftBrace, "\x7b", 1⟩, ⟨.returnWord, "return", 1⟩, ⟨.number, "1", 1⟩, ⟨.semicolon, ";", 1⟩,
        ⟨.ifWord, "if", 1⟩, ⟨.boolean, "true", 1⟩, ⟨.leftBrace, "\x7b", 1⟩,
        ⟨.returnWord, "return", 1⟩, ⟨.number, "2", 1⟩, ⟨.rightBrace, "\x7d", 1⟩,
        ⟨.newline, "\n", 1⟩,
        ⟨.identifier, "print", 2⟩, ⟨.leftParen, "(", 2⟩, ⟨.string, "\"after\"", 2⟩,
        ⟨.rightParen, ")", 2⟩, ⟨.rightBrace, "\x7d", 2⟩] ++ methodTokens,
        none) := by
    decide +kernel
  unfold Source.parse
  rw [htokens]
  cbv

/-- A `return` of the body, and one at the end of a conditional, are passed over as is meant. -/
theorem returns_before_print_passed_over :
    ∃ start body,
      CallPassesOver 899 ⟨legacyReturns, methodCall, methodStart passingBody⟩ (legacyCall passingBody)
        start body ∧
      visitsOfCall evaluate false 899 legacyReturns (legacyCall passingBody) start body =
        visitsOfCall passing true 899 legacyReturns (legacyCall passingBody) start body ∧
      visitsOfCall evaluate false 899 legacyReturns (legacyCall passingBody) start body =
        [⟨returnNumber 1, [2], true⟩, ⟨.conditional heldCondition [returnNumber 2] 1, [1], false⟩,
          ⟨returnNumber 2, [1, 0], true⟩, ⟨printAfter, [0], false⟩] := by
  obtain ⟨values, body, start, hstart, hframes, hvisits⟩ : ∃ values body start,
      (enterCall (evaluate 899) legacyReturns "f" [] []).outcome (methodStart passingBody) =
        (.ok (values, body), start) ∧ start.frames = [] ∧
      visitsOfCall evaluate false 899 legacyReturns (legacyCall passingBody) start body =
        [⟨returnNumber 1, [2], true⟩, ⟨.conditional heldCondition [returnNumber 2] 1, [1], false⟩,
          ⟨returnNumber 2, [1, 0], true⟩, ⟨printAfter, [0], false⟩] := by
    refine ⟨_, _, _, rfl, rfl, ?_⟩
    cbv
  have hroom : ¬legacyReturns.maxCallDepth ≤ start.frames.length := by
    rw [hframes]
    decide
  have huncut : Uncut true
      (visitsOfCall evaluate false 899 legacyReturns (legacyCall passingBody) start body) := by
    rw [hvisits]
    simp [Uncut, Visit.CutsShort]
  have hpasses := method_call_passes_returns_over rfl (.new legacyReturns {})
    (evaluates_methodCall parse_passing) rfl (calls_legacyCall passingBody) hstart hroom
  exact ⟨start, body, hpasses, hpasses.visits_iff.mpr huncut, hvisits⟩

/-- Not every method is evaluated as it is meant to be. In a conditional a `return` skips the statement
behind it, so nothing is printed, though neither an error nor a limit stops the call. -/
theorem return_skips_print :
    ∃ values body start,
      Evaluates legacyReturns (methodProgram skippingText) (Session.new legacyReturns {}).machine
        (899 + 1) ⟨legacyReturns, methodCall, methodStart skippingBody⟩ ∧
      Calls (evaluate 899) legacyReturns (methodStart skippingBody) methodCall (legacyCall skippingBody)
        (methodStart skippingBody) ∧
      (enterCall (evaluate 899) legacyReturns "f" [] []).outcome (methodStart skippingBody) =
        (.ok (values, body), start) ∧
      visitsOfCall evaluate false 899 legacyReturns (legacyCall skippingBody) start body =
        [⟨.conditional heldCondition [returnNumber 1, printAfter] 1, [0], false⟩,
          ⟨returnNumber 1, [0, 1], true⟩] ∧
      visitsOfCall passing true 899 legacyReturns (legacyCall skippingBody) start body =
        [⟨.conditional heldCondition [returnNumber 1, printAfter] 1, [0], false⟩,
          ⟨returnNumber 1, [0, 1], true⟩, ⟨printAfter, [0, 0], false⟩] ∧
      ((evaluate (899 + 1)).answer ⟨legacyReturns, methodCall, methodStart skippingBody⟩).1 =
        .ok .null ∧
      ((evaluate (899 + 1)).answer
        ⟨legacyReturns, methodCall, methodStart skippingBody⟩).2.world.output = "" := by
  refine ⟨_, _, _, evaluates_methodCall parse_skipping, calls_legacyCall skippingBody, rfl, ?_, ?_, ?_,
    ?_⟩
  · cbv
  · cbv
  · cbv
  · cbv

end ModuLang
