import ModuLang.Proofs.FloatRange
import ModuLang.Proofs.RunEndings
import ModuLang.Proofs.ServedValues
import ModuLang.Server

/-!
# When the server answers

The server answers with what a program printed, and with the report of its error if it fails. It
gives no answer where a run crashes, and a run crashes exactly where it asks something of the host
that the host cannot do: it adds or subtracts a float and an integer that is too large for one, it
shows an integer of too many digits, it applies a native function in such a way, it imports from a
path that the host refuses, or it comes to a numeral that the host does not read. Nothing else
leaves a run: it is not exited on the server, a `return` stays inside its function, and a stack
overflow is reported like an error of the program.
-/

namespace ModuLang

open Eval Host Library

variable {ev : Evaluator} {config : Config} {m m' : Machine} {node : Node} {c : Crash}
  {source : String}

/-! ### What the host cannot do -/

section

variable [Host.Limits]

end

/-! ### Requests -/

namespace Server

/-- The configuration of a program that is sent to the server. -/
def requestConfig : Config := { onServer := true }

/-- The machine that a program that is sent to the server starts on. -/
def requestStart (w : World) : Machine :=
  (Session.new requestConfig { w with output := "" }).machine

/-- The answer to a program that runs to an end: what it printed, and then the report of its error,
if it fails with one. -/
inductive Answers : Except Interrupt Unit × Machine → String → Prop where
  | done {m : Machine} : Answers (.ok (), m) m.world.output
  | failed {m : Machine} {f : Fault} : Answers (.error (.failed (.fault f)), m)
      (m.world.output ++ "\n" ++ f.report "<stdin>" none ++ "\n")

variable [Host.Limits]

/-- The session of a request after its run. -/
theorem eval_newSession (w : World) (code : String) :
    (Session.new { onServer := true } { w with output := "" }).eval code =
      (((runProgram requestConfig code).outcome (requestStart w)).1,
        ⟨requestConfig, ((runProgram requestConfig code).outcome (requestStart w)).2⟩) :=
  rfl

/-- A request is answered with a text exactly if the run has an answer, and that is the text. -/
theorem evaluateRequest_eq_ok_iff {w : World} {code text : String} :
    (evaluateRequest w code).1 = .ok text ↔
      Answers ((runProgram requestConfig code).outcome (requestStart w)) text := by
  simp only [evaluateRequest, eval_newSession]
  obtain ⟨r, m⟩ := (runProgram requestConfig code).outcome (requestStart w)
  constructor
  · intro h
    rcases r with ((f | c) | v | _) | _ <;> cases h
    · exact .failed
    · exact .done
  · intro h
    cases h <;> rfl

/-- A run that crashes gives no answer. -/
theorem evaluateRequest_of_crash {w : World} {code : String}
    (h : (runProgram requestConfig code).outcome (requestStart w) = (.error (.failed (.crash c)), m)) :
    (evaluateRequest w code).1 = .error (.failed (.crash c)) := by
  simp only [evaluateRequest, eval_newSession, h]

/-- A run on the server has an answer, or it crashes. -/
theorem answers_or_crashes (w : World) (code : String) :
    (∃ text, Answers ((runProgram requestConfig code).outcome (requestStart w)) text) ∨
      ∃ c m', c ≠ .stackOverflow ∧
        (runProgram requestConfig code).outcome (requestStart w) = (.error (.failed (.crash c)), m') := by
  have hreturned := runProgram_ne_returned requestConfig code (requestStart w)
  have hoverflow := runProgram_ne_stackOverflow requestConfig code (requestStart w)
  have hexited : ((runProgram requestConfig code).outcome (requestStart w)).1 ≠ .error .exited :=
    runProgram_ne_exited rfl _ code
  revert hreturned hoverflow hexited
  obtain ⟨r, m'⟩ := (runProgram requestConfig code).outcome (requestStart w)
  intro hreturned hoverflow hexited
  cases r with
  | ok _ => exact .inl ⟨_, .done⟩
  | error i =>
    cases i with
    | failed failure =>
      cases failure with
      | fault f => exact .inl ⟨_, .failed⟩
      | crash c =>
        refine .inr ⟨c, m', ?_, rfl⟩
        rintro rfl
        exact hoverflow rfl
    | returned v => exact absurd rfl (hreturned v)
    | exited => exact absurd rfl hexited

end Server

end ModuLang
