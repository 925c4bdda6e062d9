import ModuLang.Proofs.RunEndings

/-!
# Where returns stand, and how far they go

The parser counts the functions around a statement and refuses a `return` where there are none. So
every way down from a statement of a program to a `return` goes through the body of a function, and
from the innermost one on through bodies of conditionals alone. This is said of ways and not of nodes
because one node may stand at several places.

A `return` that is evaluated goes outwards until the call of a function takes it. The statements of a
program, and those of a file that it imports, stand outside of functions, so none of them is ended by
one, whatever functions the environment holds.
-/

namespace ModuLang

open Eval

namespace Node

/-- The body of a function or of a conditional. -/
def body : Node → List Node
  | .definition _ _ body _ | .conditional _ body _ => body
  | _ => []

/-- Whether a node defines a function. -/
def IsDefinition : Node → Prop
  | .definition _ _ _ _ => True
  | _ => False

/-- Whether a node is a conditional. -/
def IsConditional : Node → Prop
  | .conditional _ _ _ => True
  | _ => False

/-- A way down: each node on it is directly inside the one before. -/
def IsWay (way : List Node) : Prop :=
  way.IsChain fun outer inner => inner ∈ outer.children

/-- Whether a way goes from body to body, through conditionals alone, to its last node. -/
def ThroughConditionals (way : List Node) (last : Node) : Prop :=
  ∃ conditionals, way = conditionals ++ [last] ∧ (∀ n ∈ conditionals, n.IsConditional) ∧
    way.IsChain fun outer inner => inner ∈ outer.body

/-- Whether a way comes to a function, and goes on from its body through conditionals alone. -/
def ThroughFunction (way : List Node) (last : Node) : Prop :=
  ∃ before function first behind, way = before ++ function :: first :: behind ∧
    function.IsDefinition ∧ first ∈ function.body ∧ ThroughConditionals (first :: behind) last

variable {way : List Node} {last n first : Node}

theorem ThroughFunction.cons (h : ThroughFunction way last) (n : Node) :
    ThroughFunction (n :: way) last := by
  obtain ⟨before, function, first, behind, rfl, hrest⟩ := h
  exact ⟨n :: before, function, first, behind, rfl, hrest⟩

theorem ThroughConditionals.cons (h : ThroughConditionals (first :: way) last)
    (hn : n.IsConditional) (hfirst : first ∈ n.body) :
    ThroughConditionals (n :: first :: way) last := by
  obtain ⟨conditionals, heq, hall, hchain⟩ := h
  refine ⟨n :: conditionals, by rw [heq]; rfl, fun c hc => ?_, hchain.cons_cons hfirst⟩
  rcases List.mem_cons.mp hc with rfl | hc
  · exact hn
  · exact hall c hc

/-- No way from an expression leads to a `return`. -/
theorem Expression.ne_returning (hn : n.Expression) (hway : IsWay (n :: way))
    (hlast : (n :: way).getLast? = some last) (value : Option Node) (line : Int) :
    last ≠ .returning value line := by
  induction way generalizing n with
  | nil =>
    obtain rfl : n = last := by simpa using hlast
    rintro rfl
    exact hn.form
  | cons c rest ih =>
    obtain ⟨hc, hrest⟩ := List.isChain_cons_cons.mp hway
    exact ih (hn.children hc) hrest (by simpa using hlast)

/-- A way from a statement to a `return` goes through conditionals alone, where the statement stands
in a function, or it comes to a function itself. -/
theorem Statement.throughFunction {f : Bool} {value : Option Node} {line : Int}
    (hn : n.Statement f) (hway : IsWay (n :: way))
    (hlast : (n :: way).getLast? = some (.returning value line)) :
    (f = true ∧ ThroughConditionals (n :: way) (.returning value line)) ∨
      ThroughFunction (n :: way) (.returning value line) := by
  induction way generalizing n f with
  | nil =>
    obtain rfl : n = .returning value line := by simpa using hlast
    refine .inl ⟨?_, [], rfl, fun c hc => absurd hc List.not_mem_nil, .singleton _⟩
    cases f with
    | true => rfl
    | false => exact absurd rfl (hn.ne_returning value line)
  | cons c rest ih =>
    obtain ⟨hc, hrest⟩ := List.isChain_cons_cons.mp hway
    have hlast' : (c :: rest).getLast? = some (.returning value line) := by simpa using hlast
    have hexpression : ¬c.Expression := fun hexpr => hexpr.ne_returning hrest hlast' value line rfl
    cases hn with
    | expression hexpr => exact absurd (hexpr.children hc) hexpression
    | binding hvalue =>
      rw [List.mem_singleton.mp hc] at hexpression
      exact absurd hvalue hexpression
    | importing => exact absurd hc List.not_mem_nil
    | definition hbody =>
      -- The function takes the statements of its body in, whatever stood around it.
      refine .inr ?_
      rcases ih (hbody c hc) hrest hlast' with ⟨-, hthrough⟩ | hthrough
      · exact ⟨[], _, c, rest, rfl, trivial, hc, hthrough⟩
      · exact hthrough.cons _
    | conditional hcondition hbody =>
      rcases List.mem_cons.mp hc with rfl | hc
      · exact absurd hcondition hexpression
      · rcases ih (hbody c hc) hrest hlast' with ⟨hf, hthrough⟩ | hthrough
        · exact .inl ⟨hf, hthrough.cons trivial hc⟩
        · exact .inr (hthrough.cons _)
    | returning => exact absurd hc List.not_mem_nil
    | returningValue hvalue =>
      rw [List.mem_singleton.mp hc] at hexpression
      exact absurd hvalue hexpression

end Node

/-- A `return` never leaves its function. Every way down from a statement of a program to a `return`
comes to a function, and goes on from its body through the bodies of conditionals alone. And neither a
run nor an import ends with a `return`, on any machine: whatever functions the environment holds,
whether or not methods give back what they return, and whatever files there are. -/
theorem returns_stay_in_functions [Host.Limits] (source : String) :
    (∀ s ∈ (Source.parse source).statements, ∀ way value line, Node.IsWay (s :: way) →
      (s :: way).getLast? = some (.returning value line) →
      Node.ThroughFunction (s :: way) (.returning value line)) ∧
    (∀ config m v, ((runProgram config source).outcome m).1 ≠ .error (.returned v)) ∧
    ∀ levels config target asName line m v,
      ((evaluate levels config (.importing target asName line)).outcome m).1 ≠
        .error (.returned v) := by
  refine ⟨fun s hs way value line hway hlast => ?_, fun config m v => ?_, ?_⟩
  · have hstatement := Source.parse_statements source s hs
    rcases hstatement.throughFunction hway hlast with ⟨hf, -⟩ | hthrough
    · cases hf
    · exact hthrough
  · exact runProgram_ne_returned config source m v
  · intro levels config target asName line m v hreturned
    have hstatement : (Node.importing target asName line).Statement false := .importing
    have hraises := hstatement.never_returns levels config m
    exact hraises _ _ (Prod.ext hreturned rfl) v rfl

/-! ### A return under a conditional -/

/-- A program with a function that returns from a conditional. -/
def guardedReturnProgram : String := "fn f(x) \x7b if x \x7b return x \x7d \x7d"

/-- The `return` of the program. -/
def guardedReturn : Node := .returning (some (.identifier "x" 1)) 1

/-- The conditional around it. -/
def returnGuard : Node := .conditional (.isPresent (.identifier "x" 1) 1) [guardedReturn] 1

/-- The function around both. -/
def returningFunction : Node := .definition "f" ["x"] [returnGuard] 1

theorem parse_guardedReturnProgram :
    Source.parse guardedReturnProgram = ⟨[returningFunction], none⟩ := by
  have htokens : Source.tokenize guardedReturnProgram =
      ([⟨.fnWord, "fn", 1⟩, ⟨.identifier, "f", 1⟩, ⟨.leftParen, "(", 1⟩, ⟨.identifier, "x", 1⟩,
        ⟨.rightParen, ")", 1⟩, ⟨.leftBrace, "\x7b", 1⟩, ⟨.ifWord, "if", 1⟩, ⟨.identifier, "x", 1⟩,
        ⟨.leftBrace, "\x7b", 1⟩, ⟨.returnWord, "return", 1⟩, ⟨.identifier, "x", 1⟩,
        ⟨.rightBrace, "\x7d", 1⟩, ⟨.rightBrace, "\x7d", 1⟩, ⟨.newline, "\n", 1⟩], none) := by
    decide +kernel
  unfold Source.parse
  rw [htokens]
  cbv

/-- The way to the `return` goes through the function and its conditional. -/
theorem guarded_return_in_function :
    Node.IsWay [returningFunction, returnGuard, guardedReturn] ∧
      Node.ThroughFunction [returningFunction, returnGuard, guardedReturn] guardedReturn := by
  have hway : Node.IsWay [returningFunction, returnGuard, guardedReturn] := by
    simp [Node.IsWay, returningFunction, returnGuard, Node.children]
  refine ⟨hway, (returns_stay_in_functions guardedReturnProgram).1 returningFunction ?_
    [returnGuard, guardedReturn] _ _ hway rfl⟩
  rw [parse_guardedReturnProgram]
  exact List.mem_singleton.mpr rfl

end ModuLang
