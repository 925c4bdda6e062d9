import Mathlib
import ModuLang.Proofs.RunEffects

/-!
# The names of a session share no object

A session starts with native functions alone, and every statement leaves the names of the session's
environment separate: a `let` binds a copy, an import binds what is new, and whatever changes an
object stores a copy in it. So after every statement no object is reached from two names, and what
is changed through one name is not seen through another one.
-/

namespace ModuLang

open Eval Library

/-! ### Sessions -/

/-- The sessions that a session leads to: programs and files are run, and between them the world may
change. -/
inductive Session.Follows [Host.Limits] (start : Session) : Session → Prop where
  | refl : Follows start start
  | eval {s : Session} (source : String) : Follows start s → Follows start (s.eval source).2
  | runFile {s : Session} (path : String) : Follows start s → Follows start (s.runFile path).2
  | world {s : Session} (w : Host.World) : Follows start s →
      Follows start { s with machine := { s.machine with world := w } }

/-- What holds of the machine of a session. -/
structure SessionKept (m : Machine) : Prop where
  heap : HeapKnown .clear m.heap
  env : (knownEnv .clear).holds m.heap.size m.env
  names : NamesSeparate m.heap m.env

theorem namesSeparate_initialEnvironment (config : Config) (h : Heap) :
    NamesSeparate h (initialEnvironment config) := by
  have hempty : NamesSeparate h {} := fun x y v w _ hv _ => by cases hv
  have hnative : ∀ x v, (x, v) ∈ builtins config → ∀ a, v ≠ .object a := by
    intro x v hmem a heq
    obtain ⟨f, -, hf⟩ := List.mem_map.mp hmem
    cases hf
    cases heq
  refine hempty.update (fun x v y w _ hv _ => ?_) fun x v y w hv _ => ?_
  · exact separate_of_ne_object (hnative x v hv)
  · exact separate_of_ne_object (hnative x v hv)

/-- Statements keep what holds of a session, however they end. -/
theorem SessionKept.runTopLevel [Host.Limits] {m : Machine} (hm : SessionKept m) (config : Config)
    (failure : Option Failure) (line : Int) {nodes : List Node} (hnodes : ∀ n ∈ nodes, n.Plain) :
    SessionKept ((runTopLevel (evaluate stackLimit) config failure line nodes).outcome m).2 := by
  have hkeeps : KeepsClear m (ModuLang.runTopLevel (evaluate stackLimit) config failure line nodes) _ :=
    keeps_runTopLevel (complies_evaluate .clear stackLimit) failure fun _ => hnodes
  have hmoves : Moves .any m (ModuLang.runTopLevel (evaluate stackLimit) config failure line nodes) :=
    moves_runTopLevel (advances_evaluate stackLimit) failure hnodes
  obtain ⟨-, hkept⟩ := hkeeps hm.heap hm.env
  exact ⟨hkept.heap, hkept.env, (hmoves hm.heap hm.env).separate hm.names⟩

theorem SessionKept.eval [Host.Limits] {s : Session} (hs : SessionKept s.machine)
    (source : String) :
    SessionKept (s.eval source).2.machine :=
  hs.runTopLevel s.config _ 0 (Source.parse_plain source)

/-- In every session that starts with the builtins alone the names are separate. -/
theorem Session.Follows.kept [Host.Limits] {config : Config} {world : Host.World} {s : Session}
    (hs : (Session.new config world).Follows s) : SessionKept s.machine := by
  induction hs with
  | refl =>
    exact ⟨heapKnown_empty _ fun _ => not_false, knownEnv_initialEnvironment _ config _,
      namesSeparate_initialEnvironment config _⟩
  | eval source _ ih => exact ih.eval source
  | @runFile s path _ ih =>
    unfold Session.runFile
    simp only
    split
    · exact ih
    · next source _ =>
      have hfile : SessionKept ({ s with config := s.config.withScript (Host.Path.ofString path) } :
          Session).machine := ih
      exact hfile.eval source
  | world w _ ih => exact ⟨ih.heap, ih.env, ih.names⟩

/-! ### Native functions that change an object -/

/-- The native functions that change an object: the one that is their first argument. -/
def mutators : List Native :=
  [.array .push, .array .pop, .array .shift, .array .unshift, .json .set]

section Mutators

variable {m : Machine} {c d : Address}

theorem get?_arrayAdd {function : String} {operation : Object → Value → Except Cause Object}
    {item : Value} (hd : d < m.heap.size) (hne : c ≠ d) :
    ((arrayAdd function operation (.object c) item).outcome m).2.heap.get? d = m.heap.get? d := by
  have hcopy : (m.heap.copyValue item).2.get? d = m.heap.get? d := Heap.get?_copyValue_of_lt hd
  rw [outcome_arrayAdd]
  simp only
  split
  · exact (Heap.get?_set_of_ne _ hne).trans hcopy
  · exact hcopy

theorem get?_arrayTake {function : String} {operation : Object → Except Cause (Value × Object)}
    (hne : c ≠ d) :
    ((arrayTake function operation (.object c)).outcome m).2.heap.get? d = m.heap.get? d := by
  rw [outcome_arrayTake]
  split
  · exact Heap.get?_set_of_ne _ hne
  · rfl

theorem get?_jsonSet {key value : Value} (hd : d < m.heap.size) (hne : c ≠ d) :
    ((jsonSet (.object c) key value).outcome m).2.heap.get? d = m.heap.get? d := by
  unfold jsonSet
  split
  · next a name heq =>
    cases heq
    rw [outcome_object_bind]
    split
    · rfl
    · rw [outcome_copyValue_bind, outcome_object_bind, outcome_setObject_bind]
      exact (Heap.get?_set_of_ne _ hne).trans (Heap.get?_copyValue_of_lt hd)
  · rfl
  · rfl

/-- A native function that changes an object changes no other one. -/
theorem get?_mutator [Host.Limits] {f : Native} (hf : f ∈ mutators) {args : List Value}
    (hd : d < m.heap.size)
    (hne : c ≠ d) : ((f.apply (.object c :: args)).outcome m).2.heap.get? d = m.heap.get? d := by
  have harray : ∀ g, ((applyArray g (.object c :: args)).outcome m).2.heap.get? d = m.heap.get? d := by
    intro g
    unfold applyArray
    split
    · exact Heap.get?_alloc_of_lt _ hd
    · exact congrArg (Heap.get? · d) ((worldly_arrayAt _ _).heap_eq m)
    · next heq =>
      cases heq
      exact get?_arrayAdd hd hne
    · next heq =>
      cases heq
      exact get?_arrayTake hne
    · next heq =>
      cases heq
      exact get?_arrayTake hne
    · next heq =>
      cases heq
      exact get?_arrayAdd hd hne
    · rfl
  have hset : ((applyJson .set (.object c :: args)).outcome m).2.heap.get? d = m.heap.get? d := by
    rcases args with _ | ⟨key, _ | ⟨value, _ | ⟨extra, rest⟩⟩⟩
    · rfl
    · rfl
    · exact get?_jsonSet hd hne
    · rfl
  -- The five functions that change an object.
  simp only [mutators, List.mem_cons, List.not_mem_nil, or_false] at hf
  rcases hf with rfl | rfl | rfl | rfl | rfl
  · exact harray .push
  · exact harray .pop
  · exact harray .shift
  · exact harray .unshift
  · exact hset

end Mutators

/-! ### The statements of a session -/

/-- After every statement of a session that started with the builtins alone no object is reached
from two names; so a native function that changes an object which one name reaches changes nothing
that another name reaches. -/
theorem names_share_no_object [Host.Limits] {config : Config} {world : Host.World} {s : Session}
    (hs : (Session.new config world).Follows s) {source : String} {before rest : List Node}
    {failure : Option Failure} (hparse : Source.parse source = ⟨before ++ rest, failure⟩)
    {m : Machine}
    (hrun : (runTopLevel (evaluate stackLimit) s.config none 0 before).outcome s.machine =
      (.ok (), m)) :
    NamesSeparate m.heap m.env ∧
      ∀ x y a b, x ≠ y → m.env.get? x = some (.object a) → m.env.get? y = some (.object b) →
        ∀ c, m.heap.Reaches a c → ∀ f ∈ mutators, ∀ args d,
          (((f.apply (.object c :: args)).outcome m).2.heap.Reaches b d ↔ m.heap.Reaches b d) ∧
          (m.heap.Reaches b d →
            ((f.apply (.object c :: args)).outcome m).2.heap.get? d = m.heap.get? d) := by
  have hplain : ∀ n ∈ before, n.Plain := by
    intro n hn
    refine Source.parse_plain source n ?_
    rw [hparse]
    exact List.mem_append_left _ hn
  have hkept := hs.kept.runTopLevel s.config none 0 hplain
  rw [hrun] at hkept
  refine ⟨hkept.names, fun x y a b hxy hx hy c hac f hf args d => ?_⟩
  -- The object that is changed is not reached from the other name.
  have hsame : ∀ d, m.heap.Reaches b d →
      ((f.apply (.object c :: args)).outcome m).2.heap.get? d = m.heap.get? d := by
    intro d hbd
    have hd : d < m.heap.size := (hkept.heap.reaches (knownEnv_get? hkept.env hy) hbd trivial).1
    refine get?_mutator hf hd ?_
    rintro rfl
    exact hkept.names x y _ _ hxy hx hy a b c rfl rfl hac hbd
  exact ⟨Heap.reaches_iff hsame, hsame d⟩

/-! ### A session of two programs -/

/-- The statement of the first program: it makes an object. -/
def makeObject : List Node := [.binding "x" (.record [] 1) 1]

/-- The statement of the second program: it binds the object to another name. -/
def bindAgain : List Node := [.binding "y" (.identifier "x" 1) 1]

theorem parse_makeObject : Source.parse "let x = {}" = ⟨makeObject, none⟩ := by
  have htokens : Source.tokenize "let x = {}" =
      ([⟨.letWord, "let", 1⟩, ⟨.identifier, "x", 1⟩, ⟨.assign, "=", 1⟩, ⟨.leftBrace, "\x7b", 1⟩,
        ⟨.rightBrace, "\x7d", 1⟩, ⟨.newline, "\n", 1⟩], none) := by
    decide +kernel
  unfold Source.parse
  rw [htokens]
  cbv

theorem parse_bindAgain : Source.parse "let y = x" = ⟨bindAgain ++ [], none⟩ := by
  have htokens : Source.tokenize "let y = x" =
      ([⟨.letWord, "let", 1⟩, ⟨.identifier, "y", 1⟩, ⟨.assign, "=", 1⟩, ⟨.identifier, "x", 1⟩,
        ⟨.newline, "\n", 1⟩], none) := by
    decide +kernel
  unfold Source.parse
  rw [htokens]
  cbv

/-- The session after the first program. -/
def sessionWithObject : Session := ⟨{}, machineAfter makeObject⟩

theorem follows_sessionWithObject : (Session.new {} {}).Follows sessionWithObject := by
  have heval : ((Session.new {} {}).eval "let x = {}").2 = sessionWithObject := by
    unfold Session.eval runProgram runWithin
    rw [parse_makeObject]
    rfl
  rw [← heval]
  exact .eval _ .refl

/-- The machine after both programs. -/
def machineAfterBoth : Machine :=
  ((runTopLevel (evaluate stackLimit) {} none 0 bindAgain).outcome sessionWithObject.machine).2

/-- The name that is bound to an object of another name is bound to a copy of it. -/
theorem second_name_has_a_copy :
    NamesSeparate machineAfterBoth.heap machineAfterBoth.env ∧
      machineAfterBoth.env.get? "x" = some (.object 1) ∧
      machineAfterBoth.env.get? "y" = some (.object 2) := by
  have hends : ((runTopLevel (evaluate stackLimit) {} none 0 bindAgain).outcome
      sessionWithObject.machine).1 = .ok () := by
    cbv
  refine ⟨(names_share_no_object follows_sessionWithObject parse_bindAgain
    (Prod.ext hends rfl)).1, ?_, ?_⟩
  · cbv
  · cbv

end ModuLang
