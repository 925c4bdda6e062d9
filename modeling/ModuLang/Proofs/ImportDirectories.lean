import Mathlib.Logic.Relation
import ModuLang.Proofs.CallStatements
import ModuLang.Proofs.FileImports

/-!
# Where imports are looked for

A relative target of an import is looked for in the directory of the file that is being run first.
Which file that is depends on the files that the run is importing and on nothing else: it is the one
whose statements are being run, and a function that is called runs its body in the file that calls
it. A function is a value without any record of the file that it comes from.

So an import that stands among the statements of a file is looked for beside that file. The import in
the body of a function is looked for beside the file that is being run when the function is called,
which `strayImport_beside_caller` shows to be another one than the file that contains it.

`RunsIn` says which file is being run at a point of a run. It follows the frames: a node is evaluated
in the frame that is there, or a call pushed one for the body of a function, or an import did for the
statements of a file.
-/

namespace ModuLang

open Eval Host

variable {config : Config} {source : String} {m : Machine} {levels : Nat} {p q : Point}

/-- A file with a program: its path, if it has one, and its text. -/
structure SourceFile where
  path : Option Path
  text : String

/-- The directory of a source file, and the working directory if it has no path. -/
def SourceFile.directory (file : SourceFile) (w : World) : Path :=
  match file.path with
  | some path => (path.resolve w.files.workingDirectory).parent
  | none => ⟨"/", w.files.workingDirectory⟩

/-- The file that a relative target names if it is looked for in some directories: the first that is
there, or else the one in the first directory. -/
def fileAmong (w : World) (first : Path) (others : List Path) (target : Path) : Except OsError Path :=
  (firstFile? w.files ((first :: others).map (·.join target))).map (·.getD (first.join target))

theorem baseDirectory_of_scriptPath {file : SourceFile} (h : config.scriptPath = file.path) (w : World) :
    baseDirectory config w = file.directory w := by
  rw [baseDirectory, h]
  rfl

theorem resolveSource_of_relative (config : Config) (w : World) {target : Path}
    (h : target.isAbsolute = false) :
    resolveSource config w target = fileAmong w (baseDirectory config w) (importRoots w) target := by
  unfold resolveSource
  exact if_neg (by simp [h])

section

variable [Host.Limits]

/-- Runs the file that a target was found to name, if there is one, and gives what it bound. -/
def loadFound (ev : Evaluator) (config : Config) (found : Except OsError Path) :
    Eval (List (String × Value)) :=
  match found with
  | .error e => crash (.os e)
  | .ok path => do
    let text ← readSource path
    let moduleEnv ← clone (← env)
    inside moduleEnv do
      runModule ev (config.withScript path) path text
      return (← env).boundSinceCreation

/-- Imports the file that a target was found to name. -/
def importFound (ev : Evaluator) (config : Config) (asName : Option String) (stem : String)
    (found : Except OsError Path) : Eval Value := do
  let members ← loadFound ev config found
  bindImport asName stem members
  return .null

/-- Whether a node stands in the text of a source file. -/
def SourceFile.Contains (file : SourceFile) (node : Node) : Prop :=
  ∃ statement ∈ (Source.parse file.text).statements,
    Relation.ReflTransGen (fun whole part => part ∈ whole.children) statement node

/-- The file that is being run at a point of a run, and whether the point is in a call of a function
that this file makes. -/
inductive RunsIn (config : Config) (source : String) (m : Machine) :
    SourceFile → Bool → Nat → Point → Prop where
  | statement {p : Point} : Asks (runBy config source) (evaluate stackLimit) m p →
      RunsIn config source m ⟨config.scriptPath, source⟩ false stackLimit p
  | inside {file : SourceFile} {inCall : Bool} {levels : Nat} {p q : Point} :
      RunsIn config source m file inCall (levels + 1) p →
      Asks (fun ev => evaluateNode ev p.config p.node) (evaluate levels) p.machine q →
      q.machine.frames.length = p.machine.frames.length → RunsIn config source m file inCall levels q
  | called {file : SourceFile} {inCall : Bool} {levels : Nat} {p q : Point} :
      RunsIn config source m file inCall (levels + 1) p →
      Asks (fun ev => evaluateNode ev p.config p.node) (evaluate levels) p.machine q →
      p.node.IsCall → p.machine.frames.length < q.machine.frames.length →
      RunsIn config source m file true levels q
  | imported {file : SourceFile} {inCall : Bool} {levels : Nat} {p q : Point} {path : Path}
      {text : String} : RunsIn config source m file inCall (levels + 1) p →
      Asks (fun ev => evaluateNode ev p.config p.node) (evaluate levels) p.machine q →
      ReadsFile p.config p.machine p.node path text →
      RunsIn config source m ⟨some path, text⟩ false levels q

/-! ### The ways into a point -/

/-- A node inside an evaluated one is a part of it, under the same configuration. -/
theorem Leads.of_length_eq (h : Leads p q)
    (hlength : q.machine.frames.length = p.machine.frames.length) :
    q.config = p.config ∧ p.node.HasPart q.node := by
  cases h with
  | inner hpart _ => exact ⟨rfl, hpart⟩
  | body _ hentered => exact absurd (hlength.symm.trans hentered.length_eq) (by omega)
  | file _ _ hentered => exact absurd (hlength.symm.trans hentered.length_eq) (by omega)

/-- A body runs under the configuration of the call. -/
theorem Leads.config_eq_of_isCall (h : Leads p q) (hcall : p.node.IsCall) : q.config = p.config := by
  cases h with
  | inner _ _ => rfl
  | body _ _ => rfl
  | file hfile _ _ =>
    obtain ⟨pconfig, node, machine⟩ := p
    cases hfile
    exact hcall.elim

/-- An import leads to the statements of its file, under the configuration of that file. -/
theorem Leads.of_readsFile {path : Path} {text : String} (h : Leads p q)
    (hfile : ReadsFile p.config p.machine p.node path text) :
    q.config = p.config.withScript path ∧ q.node ∈ (Source.parse text).statements := by
  obtain ⟨pconfig, node, machine⟩ := p
  cases hfile with
  | importing _ hnames =>
    cases h with
    | inner hpart _ =>
      -- There is nothing inside an import.
      rcases hpart with hchild | ⟨hne, -⟩
      · exact absurd hchild List.not_mem_nil
      · exact absurd rfl hne
    | body hcall _ => exact hcall.elim
    | file hfile hmem _ =>
      cases hfile with
      | importing _ hnames' =>
        obtain ⟨rfl, rfl⟩ := hnames.eq hnames'
        exact ⟨rfl, hmem⟩

/-! ### The file that is being run -/

theorem Evaluates.runsIn (h : Evaluates config source m levels p) :
    ∃ file inCall, RunsIn config source m file inCall levels p := by
  induction h with
  | statement hasks => exact ⟨_, _, .statement hasks⟩
  | @inner levels p q _ hasks ih =>
    obtain ⟨file, inCall, hp⟩ := ih
    cases hasks.leads (keepsFrames_evaluate levels) with
    | inner _ hframes => exact ⟨_, _, .inside hp hasks hframes.length_eq⟩
    | body hcall hentered =>
      exact ⟨_, _, .called hp hasks hcall (hentered.length_eq ▸ Nat.lt_succ_self _)⟩
    | file hfile _ _ => exact ⟨_, _, .imported hp hasks hfile⟩

variable {file : SourceFile} {inCall : Bool}

theorem RunsIn.evaluates (h : RunsIn config source m file inCall levels p) :
    Evaluates config source m levels p := by
  induction h with
  | statement hasks => exact .statement hasks
  | inside _ hasks _ ih => exact .inner ih hasks
  | called _ hasks _ _ ih => exact .inner ih hasks
  | imported _ hasks _ ih => exact .inner ih hasks

/-- The configuration at a point has the path of the file that is being run. -/
theorem RunsIn.scriptPath_eq (h : RunsIn config source m file inCall levels p) :
    p.config.scriptPath = file.path := by
  induction h with
  | statement hasks =>
    rw [(Asks.of_runTopLevel (keepsFrames_evaluate stackLimit) hasks).1]
  | @inside _ _ levels _ _ _ hasks hlength ih =>
    rw [((hasks.leads (keepsFrames_evaluate levels)).of_length_eq hlength).1, ih]
  | @called _ _ levels _ _ _ hasks hcall _ ih =>
    rw [(hasks.leads (keepsFrames_evaluate levels)).config_eq_of_isCall hcall, ih]
  | @imported _ _ levels _ _ path _ _ hasks hfile _ =>
    rw [((hasks.leads (keepsFrames_evaluate levels)).of_readsFile hfile).1]
    rfl

/-- Outside of calls the node at a point stands in the text of the file that is being run. The receiver
of a method stands in a literal of its own. -/
theorem RunsIn.contains (h : RunsIn config source m file inCall levels p) (hcall : inCall = false) :
    file.Contains p.node ∨ ∃ v line, p.node = .literal v line := by
  induction h with
  | statement hasks =>
    obtain ⟨-, hmem, -⟩ := Asks.of_runTopLevel (keepsFrames_evaluate stackLimit) hasks
    exact .inl ⟨_, hmem, .refl⟩
  | @inside _ _ levels p _ _ hasks hlength ih =>
    obtain ⟨-, hpart⟩ := (hasks.leads (keepsFrames_evaluate levels)).of_length_eq hlength
    rcases hpart with hchild | ⟨-, hreceiver⟩
    · rcases ih hcall with ⟨statement, hmem, hstands⟩ | ⟨v, line, hliteral⟩
      · exact .inl ⟨statement, hmem, hstands.tail hchild⟩
      · -- There is nothing inside a literal.
        rw [hliteral] at hchild
        exact absurd hchild List.not_mem_nil
    · exact .inr hreceiver
  | called => cases hcall
  | @imported _ _ levels _ _ _ _ _ hasks hfile _ =>
    obtain ⟨-, hmem⟩ := (hasks.leads (keepsFrames_evaluate levels)).of_readsFile hfile
    exact .inl ⟨_, hmem, .refl⟩

/-- The file that is run is the one that the target is found to name. -/
theorem outcome_loadFile_found (ev : Evaluator) (config : Config) {target : String}
    (hhost : Library.isHostText target = true) (m : Machine) :
    (loadFile ev config target).outcome m =
      (loadFound ev config (resolveSource config m.world (Path.ofString target))).outcome m := by
  unfold loadFile
  simp only [hhost, Bool.not_true, Bool.false_eq_true, if_false]
  rw [outcome_world_bind]
  cases resolveSource config m.world (Path.ofString target) <;> rfl

/-- At every point of a run some file is being run, and a relative target of an import is looked for
in the directory of that file first; what is found there is what the import runs. Outside of calls the
file is the one that contains the import. -/
theorem imports_resolve_beside_running_file (config : Config) (source : String) (m : Machine) :
    (∀ levels p, Evaluates config source m levels p ↔
      ∃ file inCall, RunsIn config source m file inCall levels p) ∧
    ∀ file inCall levels p target asName line, RunsIn config source m file inCall levels p →
      p.node = .importing target asName line →
      (Path.ofString (Source.unquote target.raw)).isAbsolute = false →
      resolveSource p.config p.machine.world (Path.ofString (Source.unquote target.raw)) =
        fileAmong p.machine.world (file.directory p.machine.world) (importRoots p.machine.world)
          (Path.ofString (Source.unquote target.raw)) ∧
      (∀ below, levels = below + 1 → (Source.unquote target.raw).endsWith sourceExtension = true →
        Library.isHostText (Source.unquote target.raw) = true →
        (evaluate levels).answer p = (atLine line (importFound (evaluate below) p.config asName
          (Path.ofString (Source.unquote target.raw)).stem
          (fileAmong p.machine.world (file.directory p.machine.world) (importRoots p.machine.world)
            (Path.ofString (Source.unquote target.raw))))).outcome p.machine) ∧
      (inCall = false → file.Contains p.node) := by
  refine ⟨fun levels p => ⟨Evaluates.runsIn, ?_⟩, ?_⟩
  · rintro ⟨file, inCall, h⟩
    exact h.evaluates
  · intro file inCall levels p target asName line h hnode hrelative
    have hresolve : resolveSource p.config p.machine.world (Path.ofString (Source.unquote target.raw)) =
        fileAmong p.machine.world (file.directory p.machine.world) (importRoots p.machine.world)
          (Path.ofString (Source.unquote target.raw)) := by
      rw [resolveSource_of_relative _ _ hrelative, baseDirectory_of_scriptPath h.scriptPath_eq]
    refine ⟨hresolve, fun below hlevels hextension hhost => ?_, fun hcall =>
      (h.contains hcall).resolve_right ?_⟩
    · rw [hlevels, ← hresolve]
      change (atLine p.node.line (evaluateNode (evaluate below) p.config p.node)).outcome p.machine = _
      rw [hnode]
      refine outcome_tryCatch_congr ?_
      rw [outcome_importing_file _ _ _ _ _ hextension]
      exact outcome_bind_congr (outcome_loadFile_found _ _ hhost _)
    · rintro ⟨v, l, hliteral⟩
      rw [hnode] at hliteral
      cases hliteral

end

/-! ### A function that is called from another file -/

/-- A call gets to the first statement of its body, in the environment and the frame of the call. -/
theorem asks_callBody_first {ev : Evaluator} {call : UserCall} {bodyEnv : Environment}
    {statement : Node} {rest : List Node} (hbody : call.body = statement :: rest)
    (hroom : ¬config.maxCallDepth ≤ m.frames.length)
    (hcounts : countsToward ⟨call.name, true, 0⟩ statement = true)
    (hlimit : ¬config.maxBodyStatements < ((0 + 1 : Nat) : Int)) :
    Asks (fun ev => callBody ev config call bodyEnv) ev m
      ⟨config, statement, { m with env := bodyEnv, frames := ⟨call.name, true, 1⟩ :: m.frames }⟩ := by
  let counted : Machine := { m with env := bodyEnv, frames := ⟨call.name, true, 1⟩ :: m.frames }
  have hcount : (countStatement config statement).outcome (callStart call m bodyEnv) =
      (.ok (), counted) := by
    unfold countStatement callStart
    rw [outcome_get_bind]
    simp only [hcounts, if_true]
    rw [outcome_modify_bind, if_neg hlimit]
    rfl
  rw [asks_callBody_iff hroom, hbody, begunAlong_cons_iff, hcount]
  exact .inl rfl

/-- The file with the function, which imports its neighbour. -/
def libraryFile : SourceFile :=
  ⟨some ⟨"/", ["lib", "a.modu"]⟩, "fn f() \x7b import \"b.modu\" as * \x7d"⟩

/-- The neighbour, a file with nothing in it. -/
def neighbourFile : SourceFile :=
  ⟨some ⟨"/", ["lib", "b.modu"]⟩, ""⟩

/-- A program that imports the function and calls it. -/
def borrowingFile : SourceFile :=
  ⟨none, "import \"lib/a.modu\" as *\nf()"⟩

/-- A world with the two files in a directory. -/
def libraryWorld : World :=
  { files := { entries := [(["lib"], .directory),
      (["lib", "a.modu"], .file libraryFile.text.toUTF8.data.toList), (["lib", "b.modu"], .file [])] } }

/-- The import in the body of the function. -/
def strayImport : Node :=
  .importing ⟨"\"b.modu\"", 1⟩ (some "*") 1

/-- The function. -/
def borrowedFunction : Value :=
  .function "f" [] [strayImport]

/-- The import of the function. -/
def libraryImport : Node :=
  .importing ⟨"\"lib/a.modu\"", 1⟩ (some "*") 1

theorem parse_libraryFile : Source.parse libraryFile.text =
    ⟨[.definition "f" [] [strayImport] 1], none⟩ := by
  have htokens : Source.tokenize libraryFile.text =
      ([⟨.fnWord, "fn", 1⟩, ⟨.identifier, "f", 1⟩, ⟨.leftParen, "(", 1⟩, ⟨.rightParen, ")", 1⟩,
        ⟨.leftBrace, "\x7b", 1⟩, ⟨.importWord, "import", 1⟩, ⟨.string, "\"b.modu\"", 1⟩,
        ⟨.asWord, "as", 1⟩, ⟨.star, "*", 1⟩, ⟨.rightBrace, "\x7d", 1⟩, ⟨.newline, "\n", 1⟩], none) := by
    decide +kernel
  unfold Source.parse
  rw [htokens]
  cbv

theorem parse_borrowingFile : Source.parse borrowingFile.text =
    ⟨[libraryImport, .call "f" [] 2], none⟩ := by
  have htokens : Source.tokenize borrowingFile.text =
      ([⟨.importWord, "import", 1⟩, ⟨.string, "\"lib/a.modu\"", 1⟩, ⟨.asWord, "as", 1⟩,
        ⟨.star, "*", 1⟩, ⟨.newline, "\n", 1⟩, ⟨.identifier, "f", 2⟩, ⟨.leftParen, "(", 2⟩,
        ⟨.rightParen, ")", 2⟩, ⟨.newline, "\n", 2⟩], none) := by
    decide +kernel
  unfold Source.parse
  rw [htokens]
  cbv

theorem namesFile_libraryFile : NamesFile {} libraryWorld "lib/a.modu" ⟨"/", ["lib", "a.modu"]⟩
    libraryFile.text where
  isHostText := by decide +kernel
  path_eq := by decide +kernel
  text_eq := ⟨libraryFile.text.toUTF8.data.toList, by decide +kernel, by decide +kernel⟩

/-- The machine where the program starts. -/
def borrowingStart : Machine :=
  (Session.new {} libraryWorld).machine

/-- The machine where the function is imported. -/
def borrowedMachine : Machine :=
  { borrowingStart with
    env := borrowingStart.env.define "f" borrowedFunction
    heap := (borrowingStart.env.clone borrowingStart.heap).2 }

theorem outcome_libraryImport :
    (evaluate stackLimit {} libraryImport).outcome borrowingStart = (.ok .null, borrowedMachine) := by
  have hnode := outcome_importing_file (m := borrowingStart) (evaluate 899) {}
    ⟨"\"lib/a.modu\"", 1⟩ (some "*") 1 (by decide +kernel)
  have hname : Source.unquote "\"lib/a.modu\"" = "lib/a.modu" := by decide +kernel
  let start : Machine :=
    { borrowingStart with
      env := (borrowingStart.env.clone borrowingStart.heap).1
      heap := (borrowingStart.env.clone borrowingStart.heap).2 }
  have hrun : (runModule (evaluate 899) (Config.withScript {} ⟨"/", ["lib", "a.modu"]⟩)
      ⟨"/", ["lib", "a.modu"]⟩ libraryFile.text).outcome start =
        (.ok (), { start with env := start.env.define "f" borrowedFunction }) := by
    unfold runModule
    rw [parse_libraryFile]
    rfl
  have hexports : (start.env.define "f" borrowedFunction).boundSinceCreation =
      [("f", borrowedFunction)] :=
    (Environment.boundSinceCreation_update rfl [("f", borrowedFunction)]).trans rfl
  have hload : (loadFile (evaluate 899) {} "lib/a.modu").outcome borrowingStart =
      (.ok [("f", borrowedFunction)],
        { borrowingStart with heap := (borrowingStart.env.clone borrowingStart.heap).2 }) := by
    rw [NamesFile.outcome_loadFile namesFile_libraryFile, outcome_inside, outcome_bind, hrun]
    simp only [outcome_env_bind, hexports]
    rfl
  refine outcome_atLine_ok 1 (hnode.trans ?_)
  rw [hname, outcome_bind, hload]
  rfl

/-- Where the import in the body of the function is evaluated. -/
def strayPoint : Point :=
  ⟨{}, strayImport, { borrowedMachine with
    env := (borrowedMachine.env.clone borrowedMachine.heap).1
    frames := [⟨"f", true, 1⟩] }⟩

theorem asks_borrowedCall :
    Asks (runBy {} borrowingFile.text) (evaluate stackLimit) borrowingStart
      ⟨{}, .call "f" [] 2, borrowedMachine⟩ := by
  have hbefore : (runTopLevel (evaluate stackLimit) {} none 0 [libraryImport]).outcome
      borrowingStart = (.ok (), borrowedMachine) :=
    (outcome_runTopLevel_ok outcome_libraryImport).trans rfl
  have hasks : Asks (fun ev => runTopLevel ev {} none 0 ([libraryImport] ++ [.call "f" [] 2]))
      (evaluate stackLimit) borrowingStart ⟨{}, .call "f" [] 2, borrowedMachine⟩ :=
    asks_statement hbefore
  unfold runBy
  rw [parse_borrowingFile]
  exact hasks

theorem asks_strayImport :
    Asks (fun ev => evaluateNode ev {} (.call "f" [] 2)) (evaluate 899) borrowedMachine
      strayPoint := by
  have hcall : Calls (evaluate 899) {} borrowedMachine (.call "f" [] 2)
      ⟨false, "f", [], [strayImport], []⟩ borrowedMachine :=
    .named ((Environment.get?_define _ _ _ _).trans (if_pos rfl))
  have hstart : (enterCall (evaluate 899) {} "f" [] []).outcome borrowedMachine =
      (.ok ([], (borrowedMachine.env.clone borrowedMachine.heap).1), borrowedMachine) := by
    cbv
  exact hcall.asks_of_callBody hstart (asks_callBody_first rfl (by decide) rfl (by decide))

theorem runsIn_strayPoint :
    RunsIn {} borrowingFile.text borrowingStart borrowingFile true 899 strayPoint :=
  .called (.statement asks_borrowedCall) asks_strayImport trivial (by decide)

theorem SourceFile.contains_iff_of_children_eq_nil {file : SourceFile} {node : Node}
    (h : ∀ statement ∈ (Source.parse file.text).statements, statement.children = []) :
    file.Contains node ↔ node ∈ (Source.parse file.text).statements := by
  constructor
  · rintro ⟨statement, hmem, hstands⟩
    rcases hstands.cases_head with rfl | ⟨child, hchild, -⟩
    · exact hmem
    · rw [h statement hmem] at hchild
      exact absurd hchild List.not_mem_nil
  · exact fun hmem => ⟨node, hmem, .refl⟩

/-- The call of the function runs its import in the file of the program. So the neighbour is looked
for in the working directory, where it is not. -/
theorem strayImport_beside_caller :
    RunsIn {} borrowingFile.text borrowingStart borrowingFile true 899 strayPoint ∧
    (Path.ofString (Source.unquote "\"b.modu\"")).isAbsolute = false ∧
    resolveSource strayPoint.config strayPoint.machine.world
      (Path.ofString (Source.unquote "\"b.modu\"")) = .ok ⟨"/", ["b.modu"]⟩ := by
  have hrelative : (Path.ofString (Source.unquote "\"b.modu\"")).isAbsolute = false := by
    decide +kernel
  refine ⟨runsIn_strayPoint, hrelative, ?_⟩
  obtain ⟨hresolve, -⟩ := (imports_resolve_beside_running_file {} borrowingFile.text
    borrowingStart).2 borrowingFile true 899 strayPoint ⟨"\"b.modu\"", 1⟩ (some "*") 1
    runsIn_strayPoint rfl hrelative
  rw [hresolve]
  decide +kernel

/-- Not every import is looked for beside a file that contains it, if the program and the files in its
world are all the files that there are: the import that the call evaluates stands in the first file of
the library alone, and there it would find its neighbour. -/
theorem not_all_imports_beside_their_file :
    ¬∀ levels p target asName line,
      Evaluates {} borrowingFile.text borrowingStart levels p →
      p.node = .importing target asName line →
      (Source.unquote target.raw).endsWith sourceExtension = true →
      (Path.ofString (Source.unquote target.raw)).isAbsolute = false →
      ∃ file ∈ [borrowingFile, libraryFile, neighbourFile], file.Contains p.node ∧
        resolveSource p.config p.machine.world (Path.ofString (Source.unquote target.raw)) =
          fileAmong p.machine.world (file.directory p.machine.world)
            (importRoots p.machine.world) (Path.ofString (Source.unquote target.raw)) := by
  intro hall
  obtain ⟨file, hfile, hcontains, hresolve⟩ := hall 899 strayPoint ⟨"\"b.modu\"", 1⟩ (some "*") 1
    runsIn_strayPoint.evaluates rfl (by decide +kernel) (by decide +kernel)
  simp only [List.mem_cons, List.not_mem_nil, or_false] at hfile
  rcases hfile with rfl | rfl | rfl
  · rw [SourceFile.contains_iff_of_children_eq_nil, parse_borrowingFile] at hcontains
    · simp [strayPoint, strayImport, libraryImport] at hcontains
    · rw [parse_borrowingFile]
      simp [libraryImport, Node.children]
  · revert hresolve
    decide +kernel
  · have hparse : (Source.parse neighbourFile.text).statements = [] := by
      decide +kernel
    rw [SourceFile.contains_iff_of_children_eq_nil, hparse] at hcontains
    · exact absurd hcontains List.not_mem_nil
    · rw [hparse]
      exact fun _ h => absurd h List.not_mem_nil

end ModuLang
