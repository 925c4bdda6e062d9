import ModuLang.Proofs.HeldConditions
import ModuLang.Proofs.ReadingLines
import ModuLang.Proofs.RunEndings
import ModuLang.Report

/-!
# The lines of errors

An error of a program points into its text. An error of reading has a line of the text. An error of
evaluation is made without a line and gets that of the innermost node that it leaves, and every node
that a run evaluates stands at a line of the text: the statements do, with all nodes inside them,
and so do the bodies of all functions that there are, as long as no file is imported. A stack
overflow is reported at a statement, unless the text is too deeply nested to be read.

So the report of an error always shows the line that it points to.
-/

namespace ModuLang

open Eval

variable {config : Config} {source : String} {levels : Nat} {p : Point} {m m' : Machine}

/-! ### Nodes without file imports -/

/-- Whether a node is the import of a file. -/
def Node.ImportsFile : Node → Prop
  | .importing target _ _ => (Source.unquote target.raw).endsWith sourceExtension = true
  | _ => False

theorem ReadsFile.importsFile {node : Node} {path : Host.Path} {text : String}
    (h : ReadsFile config m node path text) : node.ImportsFile := by
  cases h with
  | importing hextension _ => exact hextension

/-- The condition that all functions have bodies of nodes that are plain and have a property, with
all nodes inside them. -/
def Condition.every (Q : Node → Prop) : Condition :=
  .ofNodes (N := fun n => n.Plain ∧ n.Every Q) (X := fun _ => True) (fun _ h => h.1)
    (fun _ _ h hc => ⟨h.1.children hc, h.2.children hc⟩) fun _ _ _ _ _ _ => trivial

/-- The nodes of a run have a property that its statements have with all nodes inside them, if none
that has it imports a file. The receiver of a method stands in a literal of its own. -/
theorem Evaluates.every [Host.Limits] {world : Host.World} {Q : Node → Prop}
    (hp : Evaluates config source (Session.new config world).machine levels p)
    (hstatements : ∀ s ∈ (Source.parse source).statements, s.Every Q)
    (hfiles : ∀ levels p, Evaluates config source (Session.new config world).machine levels p →
      p.node.Every Q → ¬p.node.ImportsFile) :
    p.node.Every Q ∨ ∃ a line, p.node = .literal (.object a) line := by
  have hrun : (Condition.every Q).RunSuits config source (Session.new config world).machine :=
    { statements := fun s hs => ⟨Source.parse_plain source s hs, hstatements s hs⟩
      points := fun levels p hp hmeets => by
        refine Condition.suits_ofNodes _ _ _ (fun _ _ => trivial) fun path text hreads => ?_
        -- No file is read, so all bodies are those of the program.
        rcases hmeets.fits with hnode | ⟨a, line, hnode⟩
        · exact absurd hreads.importsFile (hfiles _ p hp hnode.2)
        · rw [hnode] at hreads
          cases hreads }
  obtain ⟨bad, hbad⟩ : ∃ v, ¬(Condition.every Q).value v := Condition.exists_not_ofNodes _ _ _
  have hstart : (Condition.every Q).Holds (Session.new config world).machine :=
    Condition.ofNodes_newSession _ _ _ config world fun _ _ => trivial
  exact ((Condition.meets_of_suits trivial hbad hrun trivial hstart hp).1.fits).imp_left And.right

/-! ### Errors of evaluation -/

/-- What a node raises itself has no line, unless it imports a file. -/
theorem RaisesItself.line_eq_zero [Host.Limits] {ev : Evaluator} {node : Node} {f : Fault}
    (h : RaisesItself ev config m node (.failed (.fault f))) (hnode : ¬node.ImportsFile) :
    f.line = 0 := by
  cases h with
  | operator _ _ happly => exact BinaryOperator.crashesOnly_apply _ _ _ _ _ happly
  | native _ happly => exact raises_native _ _ _ _ happly
  | target hextension _ => exact absurd hextension hnode
  | text hextension _ _ _ _ => exact absurd hextension hnode

/-- An error that leaves a node of a run has a line where all nodes stand. -/
theorem Evaluates.fault_line [Host.Limits] {P : Int → Prop} {f : Fault}
    (hnodes : ∀ levels p, Evaluates config source m levels p →
      ¬p.node.ImportsFile ∧ (P p.node.line ∨ ∃ a line, p.node = .literal (.object a) line))
    (hp : Evaluates config source m levels p)
    (h : (evaluate levels).answer p = (.error (.failed (.fault f)), m')) : P f.line := by
  induction levels generalizing p f m' with
  | zero => cases h
  | succ levels ih =>
    obtain ⟨g, hg, rfl⟩ := exists_of_atLine_fault h
    obtain ⟨hfile, hline⟩ := hnodes _ p hp
    unfold Fault.atLine
    split
    · rcases hline with hline | ⟨a, line, hliteral⟩
      · exact hline
      · -- A receiver is a literal, which does not fail.
        rw [hliteral] at hg
        cases hg
    · next hlined =>
      -- The error has a line already, so it is not made here: follow it to the node inside.
      have hmade : ∀ cause, Interrupt.failed (.fault ⟨cause, 0⟩) ≠ .failed (.fault g) := by
        rintro cause heq
        cases heq
        exact hlined rfl
      rcases evaluateNode_error_cases hmade hg with ⟨q, hasks, hq⟩ | hitself
      · exact ih (.inner hp hasks) (Prod.ext hq rfl)
      · exact absurd (hitself.line_eq_zero hfile) hlined

/-! ### Reports -/

/-- A line of a text has a text of its own. -/
theorem lineText?_of_isLineOf {line : Int} (h : Source.IsLineOf source line) :
    ∃ cs, (Text.lines source.toList)[line.toNat - 1]? = some cs ∧
      lineText? source line = some (String.ofList (Text.trimChars cs)) := by
  obtain ⟨hfirst, hlast⟩ := h
  have hlt : line.toNat - 1 < (Text.lines source.toList).length := by omega
  refine ⟨_, List.getElem?_eq_getElem hlt, ?_⟩
  rw [lineText?, if_pos (by omega), List.getElem?_eq_getElem hlt]
  rfl

/-- A report with the text of its line is the report without it, and that text behind it. -/
theorem Fault.report_of_lineText? {f : Fault} {text : String}
    (h : lineText? source f.line = some text) (filename : String) :
    f.report filename (some source) = f.report filename none ++ "\n      " ++ text := by
  unfold Fault.report ModuLang.report
  have hindent : "\n" ++ ("      " ++ text) = "\n      " ++ text := by
    rw [← String.append_assoc]
    rfl
  simp only [Option.bind_some, h]
  change _ ++ "\n" ++ ("      " ++ text) = _ ++ "\n      " ++ text
  rw [String.append_assoc, hindent, ← String.append_assoc]
  rfl

/-- Every error of a program that imports no file, and whose text can be followed by the reader,
points to a line of the program, and its report shows that line. -/
theorem errors_point_into_program [Host.Limits] (config : Config) (world : Host.World)
    (source filename : String)
    (hfiles : ∀ levels p, Evaluates config source (Session.new config world).machine levels p →
      ¬p.node.ImportsFile)
    (hread : (Source.parse source).failure ≠ some (.crash .stackOverflow)) {f : Fault} {m' : Machine}
    (h : (runProgram config source).outcome (Session.new config world).machine =
      (.error (.failed (.fault f)), m')) :
    1 ≤ f.line ∧ f.line ≤ (Text.lines source.toList).length ∧
      ∃ cs, (Text.lines source.toList)[f.line.toNat - 1]? = some cs ∧
        f.report filename (some source) =
          f.report filename none ++ "\n      " ++ String.ofList (Text.trimChars cs) := by
  obtain ⟨hstatements, hfailure⟩ := Source.parse_lines source
  have hnodes : ∀ levels p, Evaluates config source (Session.new config world).machine levels p →
      ¬p.node.ImportsFile ∧
        (Source.IsLineOf source p.node.line ∨ ∃ a line, p.node = .literal (.object a) line) :=
    fun levels p hp => ⟨hfiles levels p hp,
      (hp.every hstatements fun levels p hp _ => hfiles levels p hp).imp_left Node.Every.self⟩
  have hline : Source.IsLineOf source f.line := by
    -- A statement raises the error, the text cannot be read, or a stack overflow is reported.
    rcases runTopLevel_error_cases h with ⟨q, hasks, hq⟩ | ⟨failure, _, hends, hraised, -⟩ |
      ⟨l, hraised, hplace⟩
    · exact Evaluates.fault_line hnodes (.statement hasks) (Prod.ext hq rfl)
    · cases hraised
      exact hfailure _ hends
    · cases hraised
      rcases hplace with ⟨s, hs, rfl⟩ | hoverflow
      · exact (hstatements s hs).self
      · exact absurd hoverflow hread
  obtain ⟨cs, hcs, htext⟩ := lineText?_of_isLineOf hline
  exact ⟨hline.1, hline.2, cs, hcs, Fault.report_of_lineText? htext filename⟩

/-- A program whose last line calls a function that fails in the first one. -/
def strayCallProgram : String := "fn f() \x7b g() \x7d\n\nf()"

theorem parse_strayCallProgram : Source.parse strayCallProgram =
    ⟨[.definition "f" [] [.call "g" [] 1] 1, .call "f" [] 3], none⟩ := by
  have htokens : Source.tokenize strayCallProgram =
      ([⟨.fnWord, "fn", 1⟩, ⟨.identifier, "f", 1⟩, ⟨.leftParen, "(", 1⟩, ⟨.rightParen, ")", 1⟩,
        ⟨.leftBrace, "\x7b", 1⟩, ⟨.identifier, "g", 1⟩, ⟨.leftParen, "(", 1⟩, ⟨.rightParen, ")", 1⟩,
        ⟨.rightBrace, "\x7d", 1⟩, ⟨.newline, "\n", 1⟩, ⟨.newline, "\n", 2⟩, ⟨.identifier, "f", 3⟩,
        ⟨.leftParen, "(", 3⟩, ⟨.rightParen, ")", 3⟩, ⟨.newline, "\n", 3⟩], none) := by
    decide +kernel
  unfold Source.parse
  rw [htokens]
  cbv

/-- The call of a function that is not there is reported at the first line, which is shown. -/
theorem strayCall_points_into_program :
    (∀ levels p, Evaluates {} strayCallProgram (Session.new {} {}).machine levels p →
      ¬p.node.ImportsFile) ∧
    (Source.parse strayCallProgram).failure ≠ some (.crash .stackOverflow) ∧
    ∃ m', (runProgram {} strayCallProgram).outcome (Session.new {} {}).machine =
        (.error (.failed (.fault ⟨.notFound "Function" "g", 1⟩)), m') ∧
      (⟨.notFound "Function" "g", 1⟩ : Fault).report "main.modu" (some strayCallProgram) =
        (⟨.notFound "Function" "g", 1⟩ : Fault).report "main.modu" none ++ "\n      " ++
          "fn f() \x7b g() \x7d" := by
  -- The program has no import in it, so no point of its run is one.
  have hfiles : ∀ levels p, Evaluates {} strayCallProgram (Session.new {} {}).machine levels p →
      ¬p.node.ImportsFile := by
    intro levels p hp
    have hstatements : ∀ s ∈ (Source.parse strayCallProgram).statements,
        s.Every (¬Node.ImportsFile ·) := by
      rw [parse_strayCallProgram]
      have hcall : ∀ name line, (Node.call name [] line).Every (¬Node.ImportsFile ·) :=
        fun _ _ => Node.every_leaf not_false rfl
      refine List.forall_mem_cons.mpr ⟨?_, List.forall_mem_singleton.mpr (hcall _ _)⟩
      exact Node.every_unary not_false rfl (hcall _ _)
    rcases hp.every hstatements fun _ _ _ hnode => hnode.self with hnode | ⟨a, line, hnode⟩
    · exact hnode.self
    · rw [hnode]
      exact not_false
  have hread : (Source.parse strayCallProgram).failure ≠ some (.crash .stackOverflow) := by
    rw [parse_strayCallProgram]
    simp
  have hends : ((runProgram {} strayCallProgram).outcome (Session.new {} {}).machine).1 =
      .error (.failed (.fault ⟨.notFound "Function" "g", 1⟩)) := by
    rw [runProgram_eq_runBy, runBy, parse_strayCallProgram]
    cbv
  obtain ⟨m', hout⟩ := exists_outcome hends
  obtain ⟨-, -, cs, hcs, hreport⟩ :=
    errors_point_into_program {} {} strayCallProgram "main.modu" hfiles hread hout
  have hfirst : (Text.lines strayCallProgram.toList)[0]? = some "fn f() \x7b g() \x7d".toList := by
    decide +kernel
  obtain rfl : cs = "fn f() \x7b g() \x7d".toList := Option.some.inj (hcs.symm.trans hfirst)
  refine ⟨hfiles, hread, m', hout, hreport.trans ?_⟩
  have htrim : String.ofList (Text.trimChars "fn f() \x7b g() \x7d".toList) =
      "fn f() \x7b g() \x7d" := by
    decide +kernel
  rw [htrim]

end ModuLang
