import ModuLang.Proofs.FileImports
import ModuLang.Proofs.ReadingLines
import ModuLang.Proofs.RunEndings

/-!
# The lines of import errors

An error of an imported file is reported at the import: it is made anew without a line, and the node
of the import gives it its own. A runaway is reported as it is. It has got a line by then, because
the statements of a text stand at lines that are not zero, and it keeps that line, which is one of
the file or of a function that the file calls.

`file_import_errors_at_line_iff` says that this is the only way in which an error leaves an import
with another line than that of the import.
-/

namespace ModuLang

open Eval Host

variable {ev : Evaluator} {config : Config} {m m' : Machine} {levels : Nat}

/-! ### Errors that have a line -/

/-- Whether an interrupt has a line, if it is an error. -/
def Interrupt.Lined : Interrupt → Prop
  | .failed (.fault f) => f.line ≠ 0
  | _ => True

/-- An error that leaves a node has a line, if the node has one. -/
theorem raises_lined [Host.Limits] {node : Node} (hline : node.line ≠ 0) :
    Raises Interrupt.Lined m (evaluate levels config node) := by
  intro i m' hout
  cases levels with
  | zero =>
    cases hout
    trivial
  | succ levels =>
    cases i with
    | failed failure =>
      cases failure with
      | crash c => trivial
      | fault f =>
        obtain ⟨g, -, rfl⟩ := exists_of_atLine_fault hout
        change (g.atLine node.line).line ≠ 0
        unfold Fault.atLine
        split
        · exact hline
        · next hg => exact hg
    | _ => trivial

/-- The errors of the statements of a text have lines. -/
theorem raises_lined_statements [Host.Limits] (text : String) :
    Raises Interrupt.Lined m (runStatements (evaluate levels) config (Source.parse text).failure
      (Source.parse text).statements) := by
  obtain ⟨hstatements, hfailure⟩ := Source.parse_lines text
  have hline : ∀ line, Source.IsLineOf text line → line ≠ 0 := by
    rintro line ⟨hle, -⟩ rfl
    exact absurd hle (by decide)
  refine raises_runStatements (fun s hs m => raises_lined (hline _ (hstatements s hs).self))
    fun f _ hf _ => ?_
  cases f with
  | fault f => exact hline _ (hfailure _ hf)
  | crash c => trivial

/-! ### Files that run away -/

theorem Cause.eq_recursionTooDeep {cause : Cause} (h : cause.family = .recursion) :
    cause = .recursionTooDeep := by
  cases cause with
  | recursionTooDeep => rfl
  | _ => cases h

section

variable [Host.Limits]

/-- Whether a file that an import runs, which has so many levels, runs away at a line: its
statements end with the report of a runaway there. -/
def FileRunsAway (levels : Nat) (config : Config) (m : Machine) (target : String) (line : Int) :
    Prop :=
  ∃ inner path text final, levels = inner + 1 ∧ NamesFile config m.world target path text ∧
    ¬config.maxCallDepth ≤ m.frames.length ∧
    (runStatements (evaluate inner) (config.withScript path) (Source.parse text).failure
      (Source.parse text).statements).outcome (moduleStart m path) = (.error (tooDeep line), final)

/-- An error of a file that still has a line when it is passed on is a runaway of its statements. -/
theorem runsAway_of_loadFile {target : String} {f : Fault}
    (h : (loadFile (evaluate levels) config target).outcome m = (.error (.failed (.fault f)), m'))
    (hf : f.line ≠ 0) : FileRunsAway (levels + 1) config m target f.line := by
  rcases namesFile_or_refused config m.world target with ⟨path, text, hnames⟩ | ⟨failure, hrefused⟩
  · have hresult := (congrArg Prod.fst h).symm.trans (hnames.loadFile_result (evaluate levels))
    -- An error without room for the frame of the file has no line.
    split at hresult
    · cases hresult
      exact absurd rfl hf
    · next hroom =>
      split at hresult
      · next i final hrun =>
        have hblamed : .failed (.fault f) = i.blamed path := Except.error.inj hresult
        cases i with
        | failed failure =>
          cases failure with
          | crash c => cases hblamed
          | fault g =>
            -- Only a runaway is passed on with its line; any other error is made anew.
            rw [Interrupt.blamed] at hblamed
            split at hblamed
            · next hfamily =>
              cases hblamed
              refine ⟨levels, path, text, final, rfl, hnames, hroom, ?_⟩
              rw [hrun, tooDeep, ← Cause.eq_recursionTooDeep hfamily]
            · cases hblamed
              exact absurd rfl hf
        | _ => cases hblamed
      · cases hresult
  · rw [hrefused.outcome_loadFile] at h
    cases hrefused <;> cases h <;> exact absurd rfl hf

/-- An error that leaves the import of a file has the line of the import, or it is a runaway of the
file. -/
theorem fault_of_importing {target : Quotation} {asName : Option String} {line : Int} {f : Fault}
    (hextension : (Source.unquote target.raw).endsWith sourceExtension = true)
    (h : (evaluate levels config (.importing target asName line)).outcome m =
      (.error (.failed (.fault f)), m')) :
    f.line = line ∨ FileRunsAway levels config m (Source.unquote target.raw) f.line := by
  cases levels with
  | zero => cases h
  | succ levels =>
    obtain ⟨g, hg, rfl⟩ := exists_of_atLine_fault h
    change (g.atLine line).line = line ∨ _
    unfold Fault.atLine
    split
    · exact .inl rfl
    · next hline =>
      right
      rw [outcome_importing_file _ _ _ _ _ hextension] at hg
      rcases hload : (loadFile (evaluate levels) config (Source.unquote target.raw)).outcome m with
        ⟨i | members, m₁⟩
      · rw [outcome_bind_error hload] at hg
        cases hg
        exact runsAway_of_loadFile hload hline
      · -- Once the file has run, its members are bound without an error.
        rw [outcome_bind, hload] at hg
        simp only at hg
        rw [outcome_bind, outcome_bindImport] at hg
        cases hg

/-- A file that runs away ends its import with the line where it does. -/
theorem FileRunsAway.outcome_importing {target : Quotation} {asName : Option String} {line l : Int}
    (hextension : (Source.unquote target.raw).endsWith sourceExtension = true)
    (h : FileRunsAway levels config m (Source.unquote target.raw) l) :
    ∃ m', (evaluate levels config (.importing target asName line)).outcome m =
      (.error (tooDeep l), m') := by
  obtain ⟨inner, path, text, final, rfl, hnames, hroom, hrun⟩ := h
  have hlined : l ≠ 0 := raises_lined_statements text _ _ hrun
  have hresult : ((loadFile (evaluate inner) config (Source.unquote target.raw)).outcome m).1 =
      .error (tooDeep l) := by
    rw [hnames.loadFile_result, if_neg hroom, hrun]
    rfl
  obtain ⟨m', hload⟩ := exists_outcome hresult
  have hnode := (outcome_importing_file (evaluate inner) config target asName line hextension).trans
    (outcome_bind_error hload)
  -- The import would give its line to an error that has none.
  have hkeeps : (⟨.recursionTooDeep, l⟩ : Fault).atLine line = ⟨.recursionTooDeep, l⟩ :=
    if_neg hlined
  exact ⟨_, (outcome_atLine_fault line hnode).trans (by rw [hkeeps, tooDeep])⟩

/-- The errors that leave the import of a file all have the line of the import, exactly if the file
never runs away at another line. -/
theorem file_import_errors_at_line_iff (levels : Nat) (config : Config) (target : Quotation)
    (asName : Option String) (line : Int) (m : Machine)
    (hextension : (Source.unquote target.raw).endsWith sourceExtension = true) :
    (∀ f m', (evaluate levels config (.importing target asName line)).outcome m =
        (.error (.failed (.fault f)), m') → f.line = line) ↔
      ∀ l, FileRunsAway levels config m (Source.unquote target.raw) l → l = line := by
  constructor
  · intro h l hruns
    obtain ⟨m', hout⟩ := hruns.outcome_importing hextension
    exact h _ m' hout
  · intro h f m' hout
    rcases fault_of_importing hextension hout with hsame | hruns
    · exact hsame
    · exact h _ hruns

end

/-! ### Files that fail -/

/-- A world with one file. -/
def worldWithFile (text : String) : World :=
  { files := { entries := [(["a.modu"], .file text.toUTF8.data.toList)] } }

/-- A file that uses a name that is not bound. -/
def failingFile : String := "let b = c"

theorem namesFile_failingFile : NamesFile {} (worldWithFile failingFile) "a.modu" ⟨"/", ["a.modu"]⟩
    failingFile where
  isHostText := by decide +kernel
  path_eq := by decide +kernel
  text_eq := ⟨failingFile.toUTF8.data.toList, by decide +kernel, by decide +kernel⟩

theorem parse_failingFile :
    Source.parse failingFile = ⟨[.binding "b" (.identifier "c" 1) 1], none⟩ := by
  have htokens : Source.tokenize failingFile =
      ([⟨.letWord, "let", 1⟩, ⟨.identifier, "b", 1⟩, ⟨.assign, "=", 1⟩, ⟨.identifier, "c", 1⟩,
        ⟨.newline, "\n", 1⟩], none) := by
    decide +kernel
  unfold Source.parse
  rw [htokens]
  cbv

/-- The error of the file at its first line is reported at the second line, that of the import. -/
theorem import_of_failingFile :
    (Source.unquote "\"a.modu\"").endsWith sourceExtension = true ∧
      ((evaluate 9 {} (.importing ⟨"\"a.modu\"", 2⟩ none 2)).outcome
        { world := worldWithFile failingFile }).1 =
          .error (.failed (.fault ⟨.inFile (.notFound "Variable" "c") "/a.modu" 1, 2⟩)) ∧
      ∀ l, FileRunsAway 9 {} { world := worldWithFile failingFile } (Source.unquote "\"a.modu\"") l →
        l = 2 := by
  have hextension : (Source.unquote "\"a.modu\"").endsWith sourceExtension = true := by
    decide +kernel
  have hname : Source.unquote "\"a.modu\"" = "a.modu" := by decide +kernel
  have hresult : ((loadFile (evaluate 8) {} (Source.unquote "\"a.modu\"")).outcome
      { world := worldWithFile failingFile }).1 =
        .error (.failed (.fault ⟨.inFile (.notFound "Variable" "c") "/a.modu" 1, 0⟩)) := by
    rw [hname, namesFile_failingFile.loadFile_result, parse_failingFile]
    cbv
  obtain ⟨m₁, hload⟩ := exists_outcome hresult
  have hnode := (outcome_importing_file (evaluate 8) {} ⟨"\"a.modu\"", 2⟩ none 2 hextension).trans
    (outcome_bind_error hload)
  have hout := outcome_atLine_fault 2 hnode
  have hiff := file_import_errors_at_line_iff 9 {} ⟨"\"a.modu\"", 2⟩ none 2
    { world := worldWithFile failingFile } hextension
  refine ⟨hextension, congrArg Prod.fst hout, hiff.mp fun f m' hfails => ?_⟩
  cases hout.symm.trans hfails
  rfl

/-- A file that imports itself at its second line. -/
def circularFile : String := "\nimport \"a.modu\""

/-- A configuration with room for one frame. -/
def oneFrame : Config := { maxCallDepth := 1 }

theorem namesFile_circularFile (script : Option Path)
    (hscript : script ∈ [none, some ⟨"/", ["a.modu"]⟩]) :
    NamesFile { oneFrame with scriptPath := script } (worldWithFile circularFile) "a.modu"
      ⟨"/", ["a.modu"]⟩ circularFile where
  isHostText := by decide +kernel
  path_eq := by
    rcases List.mem_pair.mp hscript with rfl | rfl <;> decide +kernel
  text_eq := ⟨circularFile.toUTF8.data.toList, by decide +kernel, by decide +kernel⟩

theorem parse_circularFile :
    Source.parse circularFile = ⟨[.importing ⟨"\"a.modu\"", 2⟩ none 2], none⟩ := by
  have htokens : Source.tokenize circularFile =
      ([⟨.newline, "\n", 1⟩, ⟨.importWord, "import", 2⟩, ⟨.string, "\"a.modu\"", 2⟩,
        ⟨.newline, "\n", 2⟩], none) := by
    decide +kernel
  unfold Source.parse
  rw [htokens]
  cbv

/-- The import at the second line of the file finds no room, and the error keeps that line when it
leaves the import at the first line of a program. -/
theorem circular_import_keeps_line :
    ∃ f m', (evaluate 9 oneFrame (.importing ⟨"\"a.modu\"", 1⟩ none 1)).outcome
          { world := worldWithFile circularFile } = (.error (.failed (.fault f)), m') ∧
      f.line ≠ 1 := by
  have hextension : (Source.unquote "\"a.modu\"").endsWith sourceExtension = true := by
    decide +kernel
  have hname : Source.unquote "\"a.modu\"" = "a.modu" := by decide +kernel
  have hnames := namesFile_circularFile none (by simp)
  let inner : Point := ⟨oneFrame.withScript ⟨"/", ["a.modu"]⟩, .importing ⟨"\"a.modu\"", 2⟩ none 2,
    moduleStart { world := worldWithFile circularFile } ⟨"/", ["a.modu"]⟩⟩
  -- The one frame is that of the file, so the import inside it is refused.
  have hinner : ∃ final, (evaluate 8).answer inner = (.error (tooDeep 2), final) :=
    ⟨_, (answer_import (p := inner) rfl hname (by decide +kernel)
      (namesFile_circularFile _ (by simp))).trans (if_pos (by decide))⟩
  obtain ⟨final, hinner⟩ := hinner
  have hruns : FileRunsAway 9 oneFrame { world := worldWithFile circularFile }
      (Source.unquote "\"a.modu\"") 2 := by
    rw [hname]
    refine ⟨8, _, _, final, rfl, hnames, by decide, ?_⟩
    rw [parse_circularFile]
    exact outcome_bind_error hinner
  have hfails : ∃ m', (evaluate 9 oneFrame (.importing ⟨"\"a.modu\"", 1⟩ none 1)).outcome
      { world := worldWithFile circularFile } = (.error (tooDeep 2), m') :=
    hruns.outcome_importing hextension
  obtain ⟨m', hout⟩ := hfails
  exact ⟨_, m', hout, by decide⟩

end ModuLang
