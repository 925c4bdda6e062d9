import ModuLang.Proofs.FrameDiscipline
import ModuLang.Proofs.ImportBases
import ModuLang.Proofs.ImportDirectories
import ModuLang.Proofs.ImportErrors
import ModuLang.Proofs.TokenLines

/-!
# Runs of files that cannot be read

A session that is asked to run a file takes the path of the file for its script before it reads the
file. If the file cannot be read, nothing was done, but the script stays. Later imports are then looked
for in the directory of a file that was never run.

Whether this is noticed depends on that directory alone, since a program sees nothing else of the script,
and the next run of a file replaces it. The other direction needs events that tell two directories apart
in every session, also one whose files tell nothing: in a world without files an import fails with an
error that says where it looked, and the text of a path tells its names as long as there is no slash in
them.
-/

namespace ModuLang

open Eval Host Library

/-! ### The text of a path -/

namespace Text

variable {α : Type} [BEq α] [LawfulBEq α] {separator : α}

/-- Pieces without separators are found again between them. -/
theorem splitAt_intercalate {pieces : List (List α)} (hne : pieces ≠ [])
    (h : ∀ piece ∈ pieces, separator ∉ piece) :
    splitAt separator ([separator].intercalate pieces) = pieces := by
  induction pieces with
  | nil => exact absurd rfl hne
  | cons piece rest ih =>
    obtain ⟨hpiece, hrest⟩ := List.forall_mem_cons.mp h
    cases rest with
    | nil => rw [List.intercalate_singleton, splitAt_of_not_mem hpiece]
    | cons next rest =>
      rw [List.intercalate_cons_cons, List.append_assoc, List.singleton_append, splitAt_append,
        splitAt_of_not_mem hpiece, ih (List.cons_ne_nil _ _) hrest, List.singleton_append]

end Text

/-- Whether there is no slash in any of some names. -/
def PlainNames (names : List String) : Prop :=
  ∀ name ∈ names, '/' ∉ name.toList

/-- Names without slashes are told by the text of their path. -/
theorem PlainNames.intercalate_injective {ps qs : List String} (hps : PlainNames ps)
    (hqs : PlainNames qs) (hne : ps ≠ []) (hne' : qs ≠ [])
    (h : "/".intercalate ps = "/".intercalate qs) : ps = qs := by
  have hpieces : ∀ {names : List String}, PlainNames names → names ≠ [] →
      Text.splitAt '/' ("/".intercalate names).toList = names.map String.toList := by
    intro names hnames hne
    rw [String.toList_intercalate]
    refine Text.splitAt_intercalate (by simpa using hne) fun piece hpiece => ?_
    obtain ⟨name, hname, rfl⟩ := List.mem_map.mp hpiece
    exact hnames name hname
  have hmap : ps.map String.toList = qs.map String.toList := by
    rw [← hpieces hps hne, h, hpieces hqs hne']
  exact List.map_injective_iff.mpr (fun _ _ => String.toList_injective) hmap

theorem plainNames_ofString (s : String) : PlainNames (Path.ofString s).parts := by
  intro name hname
  obtain ⟨hmem, -⟩ := List.mem_filter.mp hname
  obtain ⟨piece, hpiece, rfl⟩ := List.mem_map.mp hmem
  rw [String.toList_ofList]
  exact Text.not_mem_of_mem_splitAt hpiece

/-- The names of a path seen from a directory are its own and those of the directory. -/
theorem PlainNames.resolve {p : Path} {place : List String} (hp : PlainNames p.parts)
    (hplace : PlainNames place) : PlainNames (p.resolve place).parts := by
  have hstart : PlainNames (if p.isAbsolute then [] else place) := by
    split
    · exact fun name hname => absurd hname List.not_mem_nil
    · exact hplace
  have hwalk : ∀ (parts place : List String), PlainNames parts → PlainNames place →
      PlainNames (parts.foldl
        (fun place part => if part = ".." then place.dropLast else place ++ [part]) place) := by
    intro parts
    induction parts with
    | nil => exact fun _ _ hplace => hplace
    | cons part parts ih =>
      intro place hparts hplace
      obtain ⟨hpart, hparts⟩ := List.forall_mem_cons.mp hparts
      refine ih _ hparts ?_
      simp only
      split
      · exact fun name hname => hplace name (List.mem_of_mem_dropLast hname)
      · exact List.forall_mem_append.mpr ⟨hplace, List.forall_mem_singleton.mpr hpart⟩
  exact hwalk p.parts _ hp hstart

/-- The directory that imports start from has no slash in its names. -/
theorem plainNames_baseDirectory {config : Config} {w : World}
    (hscript : ∀ p, config.scriptPath = some p → PlainNames p.parts)
    (hplace : PlainNames w.files.workingDirectory) :
    PlainNames (baseDirectory config w).parts := by
  unfold baseDirectory
  split
  · next p hp =>
    exact fun name hname => (hscript p hp).resolve hplace name (List.mem_of_mem_dropLast hname)
  · exact hplace

/-- It is a place below the root. -/
theorem baseDirectory_eq (config : Config) (w : World) :
    baseDirectory config w = ⟨"/", (baseDirectory config w).parts⟩ := by
  unfold baseDirectory
  split
  · rfl
  · rfl

/-- The text of a name in the directory tells the directory. -/
theorem baseDirectory_eq_of_text {c d : Config} {w : World} {name : String} (hname : '/' ∉ name.toList)
    (hc : PlainNames (baseDirectory c w).parts) (hd : PlainNames (baseDirectory d w).parts)
    (h : ((baseDirectory c w).join ⟨"", [name]⟩).text = ((baseDirectory d w).join ⟨"", [name]⟩).text) :
    baseDirectory c w = baseDirectory d w := by
  have htext : ∀ e : Config, ((baseDirectory e w).join ⟨"", [name]⟩).text =
      "/" ++ "/".intercalate ((baseDirectory e w).parts ++ [name]) := by
    intro e
    rw [baseDirectory_eq e w]
    rfl
  have hplain : ∀ {names : List String}, PlainNames names → PlainNames (names ++ [name]) :=
    fun hnames => List.forall_mem_append.mpr ⟨hnames, List.forall_mem_singleton.mpr hname⟩
  rw [htext c, htext d] at h
  have hnames : (baseDirectory c w).parts ++ [name] = (baseDirectory d w).parts ++ [name] :=
    (hplain hc).intercalate_injective (hplain hd) (by simp) (by simp)
      ((String.append_right_inj _).mp h)
  rw [baseDirectory_eq c w, baseDirectory_eq d w, List.append_cancel_right hnames]

/-! ### What is done with a session -/

/-- What happens to a session: a program or a file is run in it, or the world around it changes. -/
inductive Session.Event where
  | eval (source : String)
  | runFile (path : String)
  | meanwhile (change : World → World)

/-- Whether an event leaves a working directory as it is. -/
def Session.Event.StaysIn (place : List String) : Session.Event → Prop
  | .meanwhile change =>
    ∀ w, w.files.workingDirectory = place → (change w).files.workingDirectory = place
  | _ => True

namespace Session

variable {s : Session} {place : List String} {c d : Config} {m : Machine}

variable [Host.Limits]

/-- How an event ends, and the session behind it. -/
def take (s : Session) : Event → Except Interrupt Unit × Session
  | .eval source => s.eval source
  | .runFile path => s.runFile path
  | .meanwhile change =>
    (.ok (), { s with machine := { s.machine with world := change s.machine.world } })

/-- How events end, one after the other, and the machines that they leave. -/
def answers (s : Session) : List Event → List (Except Interrupt Unit × Machine)
  | [] => []
  | event :: events =>
    ((s.take event).1, (s.take event).2.machine) :: (s.take event).2.answers events

theorem eval_eq (c : Config) (m : Machine) (source : String) :
    Session.eval ⟨c, m⟩ source =
      (((runProgram c source).outcome m).1, ⟨c, ((runProgram c source).outcome m).2⟩) :=
  rfl

/-- Nothing is left of the old script when a file is run. -/
theorem runFile_congr (h : ∀ p, c.withScript p = d.withScript p) (path : String) :
    Session.runFile ⟨c, m⟩ path = Session.runFile ⟨d, m⟩ path := by
  unfold runFile
  simp only [h]

/-- Sessions whose configurations share their base are the same to every event. -/
theorem answers_congr (h : c.SharesBase place d) {events : List Event}
    (hevents : ∀ event ∈ events, event.StaysIn place) (hm : m.place = place) :
    answers ⟨c, m⟩ events = answers ⟨d, m⟩ events := by
  induction events generalizing m with
  | nil => rfl
  | cons event events ih =>
    obtain ⟨hevent, hrest⟩ := List.forall_mem_cons.mp hevents
    cases event with
    | eval source =>
      obtain ⟨heq, hplace⟩ := agrees_runProgram h source m hm
      simp only [answers, take, eval_eq]
      rw [← heq, ih hrest hplace]
    | runFile path =>
      simp only [answers, take]
      rw [runFile_congr h.rest]
    | meanwhile change =>
      have hplace : ({ m with world := change m.world } : Machine).place = place :=
        hevent m.world hm
      simp only [answers, take]
      rw [ih hrest hplace]

/-- A run of a file that cannot be read changes the script alone. -/
theorem runFile_of_error {path : String} {crash : Crash}
    (h : readScript s.machine.world path = .error crash) :
    s.runFile path = (.error (.failed (.crash crash)),
      { s with config := s.config.withScript (Path.ofString path) }) := by
  unfold runFile
  simp only [h]

end Session

/-! ### Imports in a world without files -/

/-- A world without its files, and without further directories to import from. -/
def emptied (w : World) : World :=
  { w with files := { w.files with entries := [] }, searchPath := none }

/-- A program that imports a file. -/
def importProgram : String := "import \"a.modu\""

theorem parse_importProgram [Host.Limits] :
    Source.parse importProgram = ⟨[.importing ⟨"\"a.modu\"", 1⟩ none 1], none⟩ := by
  have htokens : Source.tokenize importProgram =
      ([⟨.importWord, "import", 1⟩, ⟨.string, "\"a.modu\"", 1⟩, ⟨.newline, "\n", 1⟩], none) := by
    decide +kernel
  obtain ⟨levels, hlevels⟩ := exists_stackLimit_eq
  unfold Source.parse
  rw [htokens, hlevels]
  cbv

/-- The path in an error of the operating system. -/
def Failure.path? : Failure → Option String
  | .crash (.os e) => e.path
  | .fault ⟨.sourceUnreadable e, _⟩ => e.path
  | _ => none

/-- Where there are no files, a path leads to a directory or nowhere. -/
theorem find_emptied (w : World) (p : Path) :
    (emptied w).files.find p = .ok .directory ∨ ∃ kind, (emptied w).files.find p = .error kind := by
  unfold FileSystem.find
  cases (emptied w).files.locate p with
  | error kind => exact .inr ⟨kind, rfl⟩
  | ok place =>
    cases place with
    | nil => exact .inl rfl
    | cons name names => exact .inr ⟨.missing, rfl⟩

theorem read_emptied (w : World) (p : Path) :
    ∃ kind, (emptied w).files.read p = .error ⟨kind, some p.text⟩ := by
  unfold FileSystem.read
  rcases find_emptied w p with hfind | ⟨kind, hfind⟩
  · rw [hfind]
    exact ⟨.isADirectory, rfl⟩
  · rw [hfind]
    exact ⟨kind, rfl⟩

/-- A relative target is looked for in the one directory that there is, unless its name is too long. -/
theorem resolveSource_emptied (config : Config) (w : World) {target : Path}
    (h : target.isAbsolute = false) :
    resolveSource config (emptied w) target = .ok ((baseDirectory config w).join target) ∨
      resolveSource config (emptied w) target =
        .error ⟨.nameTooLong, some ((baseDirectory config w).join target).text⟩ := by
  have hbase : baseDirectory config (emptied w) = baseDirectory config w := rfl
  have hroots : importRoots (emptied w) = [] := rfl
  rw [resolveSource_of_relative _ _ h, hbase, hroots, fileAmong, List.map_singleton]
  generalize (baseDirectory config w).join target = p
  unfold firstFile?
  rcases find_emptied w p with hfind | ⟨kind, hfind⟩
  · rw [hfind]
    exact .inl rfl
  · rw [hfind]
    cases kind with
    | nameTooLong => exact .inr rfl
    | _ => exact .inl rfl

/-- So an import fails, with an error that says where it looked. -/
theorem refusesTarget_emptied (config : Config) (w : World) {target : String}
    (hhost : isHostText target = true) (h : (Path.ofString target).isAbsolute = false) :
    ∃ failure, RefusesTarget config (emptied w) target failure ∧
      failure.path? = some ((baseDirectory config w).join (Path.ofString target)).text := by
  rcases resolveSource_emptied config w h with hpath | hlong
  · obtain ⟨kind, hread⟩ := read_emptied w ((baseDirectory config w).join (Path.ofString target))
    exact ⟨_, .unreadable hhost hpath hread, rfl⟩
  · exact ⟨_, .name hhost hlong, rfl⟩

/-- The program fails with an error of its own line where its target is refused. -/
theorem outcome_importProgram [Host.Limits] {config : Config} {m : Machine} {failure : Failure}
    (h : RefusesTarget config m.world "a.modu" failure) :
    ∃ failure', (runProgram config importProgram).outcome m = (.error (.failed failure'), m) ∧
      failure'.path? = failure.path? := by
  have hname : Source.unquote "\"a.modu\"" = "a.modu" := by decide +kernel
  have hextension : (Source.unquote "\"a.modu\"").endsWith sourceExtension = true := by
    decide +kernel
  obtain ⟨levels, hlevels⟩ := exists_stackLimit_eq
  have hnode : (evaluateNode (evaluate (levels + 31)) config
      (.importing ⟨"\"a.modu\"", 1⟩ none 1)).outcome m = (.error (.failed failure), m) := by
    refine (outcome_importing_file _ config ⟨"\"a.modu\"", 1⟩ none 1 hextension).trans
      (outcome_bind_error ?_)
    rw [hname]
    exact h.outcome_loadFile _
  have hrun : ∀ i, (evaluate (levels + 32) config (.importing ⟨"\"a.modu\"", 1⟩ none 1)).outcome m =
      (.error i, m) → i ≠ .failed (.crash .stackOverflow) →
      (runProgram config importProgram).outcome m = (.error i, m) := by
    intro i hi hne
    rw [runProgram_eq_runBy, runBy, parse_importProgram, hlevels]
    exact outcome_runTopLevel_error hi hne
  cases h with
  | text | name =>
    have huncaught := outcome_atLine_uncaught 1 (by simp [Interrupt.Uncaught]) hnode
    exact ⟨_, hrun _ huncaught (by simp), rfl⟩
  | unreadable | undecodable => exact ⟨_, hrun _ (outcome_atLine_fault 1 hnode) (by simp), rfl⟩

/-! ### When a failed run is noticed -/

namespace Session

variable {s : Session} {path : String} {crash : Crash}

/-- The events that tell where imports start from: the files go away, and a file is imported. -/
def probe : List Event := [.meanwhile emptied, .eval importProgram]

/-- Sessions that answer them alike look for imports in the same directory. -/
theorem text_eq_of_probe [Host.Limits] {c d : Config} {m : Machine}
    (h : answers ⟨c, m⟩ probe = answers ⟨d, m⟩ probe) :
    ((baseDirectory c m.world).join (Path.ofString "a.modu")).text =
      ((baseDirectory d m.world).join (Path.ofString "a.modu")).text := by
  let m' : Machine := { m with world := emptied m.world }
  have hends : ∀ e : Config, ∃ failure, ((runProgram e importProgram).outcome m').1 =
      .error (.failed failure) ∧
        failure.path? = some ((baseDirectory e m.world).join (Path.ofString "a.modu")).text := by
    intro e
    have hhost : isHostText "a.modu" = true := by decide +kernel
    have hrelative : (Path.ofString "a.modu").isAbsolute = false := by decide +kernel
    obtain ⟨failure, hrefused, hpath⟩ := refusesTarget_emptied e m.world hhost hrelative
    obtain ⟨failure', hrun, hpath'⟩ := outcome_importProgram (m := m') hrefused
    exact ⟨failure', congrArg Prod.fst hrun, hpath'.trans hpath⟩
  obtain ⟨f, hf, hftext⟩ := hends c
  obtain ⟨g, hg, hgtext⟩ := hends d
  have hresults : ((runProgram c importProgram).outcome m').1 =
      ((runProgram d importProgram).outcome m').1 := by
    simp only [probe, answers, take, eval_eq] at h
    exact (Prod.mk.inj (List.cons.inj (List.cons.inj h).2).1).1
  rw [hf, hg] at hresults
  cases hresults
  exact Option.some.inj (hftext.symm.trans hgtext)

/-- A run of a file that cannot be read leaves the machine alone, but the script is the path of this file
from then on. Whatever happens to the session afterwards is as if the run had not been, exactly if that
path lies in the directory that imports started from before. -/
theorem failed_runFile_unnoticed_iff [Host.Limits]
    (hfails : readScript s.machine.world path = .error crash)
    (hscript : ∀ p, s.config.scriptPath = some p → PlainNames p.parts)
    (hplace : PlainNames s.machine.place) :
    s.runFile path = (.error (.failed (.crash crash)),
        ⟨s.config.withScript (Path.ofString path), s.machine⟩) ∧
      ((∀ events : List Event, (∀ event ∈ events, event.StaysIn s.machine.place) →
          (s.runFile path).2.answers events = s.answers events) ↔
        baseDirectory (s.config.withScript (Path.ofString path)) s.machine.world =
          baseDirectory s.config s.machine.world) := by
  have hrun := runFile_of_error hfails
  refine ⟨hrun, ?_⟩
  rw [hrun]
  constructor
  · intro hsame
    have hprobe : ∀ event ∈ probe, event.StaysIn s.machine.place :=
      List.forall_mem_cons.mpr ⟨fun _ hw => hw, List.forall_mem_singleton.mpr trivial⟩
    have hfile : Path.ofString "a.modu" = ⟨"", ["a.modu"]⟩ := by decide +kernel
    have htext := text_eq_of_probe (hsame probe hprobe)
    rw [hfile] at htext
    refine baseDirectory_eq_of_text (by decide) (plainNames_baseDirectory ?_ hplace)
      (plainNames_baseDirectory hscript hplace) htext
    intro p hp
    cases hp
    exact plainNames_ofString path
  · intro hbase events hevents
    have hshares : (s.config.withScript (Path.ofString path)).SharesBase s.machine.place s.config := by
      refine ⟨fun _ => rfl, fun w hw => ?_⟩
      -- Where imports start from depends on the working directory alone.
      have hworld : ∀ e : Config, baseDirectory e w = baseDirectory e s.machine.world := by
        intro e
        have hsame : w.files.workingDirectory = s.machine.world.files.workingDirectory := hw
        unfold baseDirectory
        rw [hsame]
      rw [hworld, hworld, hbase]
    exact answers_congr hshares hevents rfl

/-! ### A failed run that is noticed and one that is not -/

/-- The file that the program imports. -/
def importedFile : String := "let x = true"

/-- A session with that file in its working directory. -/
def besideFile : Session := ⟨{}, { world := worldWithFile importedFile }⟩

/-- A file that is missing from the directory where imports start is as if it had not been run. -/
theorem failed_runFile_beside_unnoticed :
    readScript besideFile.machine.world "b.modu" = .error (.os ⟨.missing, some "b.modu"⟩) ∧
      ∀ events : List Event, (∀ event ∈ events, event.StaysIn besideFile.machine.place) →
        (besideFile.runFile "b.modu").2.answers events = besideFile.answers events := by
  have hfails : readScript besideFile.machine.world "b.modu" =
      .error (.os ⟨.missing, some "b.modu"⟩) := by
    decide +kernel
  obtain ⟨-, hiff⟩ := failed_runFile_unnoticed_iff hfails (fun p hp => by cases hp)
    fun name hname => absurd hname List.not_mem_nil
  exact ⟨hfails, hiff.mpr (by decide +kernel)⟩

theorem parse_importedFile :
    Source.parse importedFile = ⟨[.binding "x" (.literal (.bool true) 1) 1], none⟩ := by
  have htokens : Source.tokenize importedFile =
      ([⟨.letWord, "let", 1⟩, ⟨.identifier, "x", 1⟩, ⟨.assign, "=", 1⟩, ⟨.boolean, "true", 1⟩,
        ⟨.newline, "\n", 1⟩], none) := by
    decide +kernel
  unfold Source.parse
  rw [htokens]
  cbv

/-- The program runs well in the session. -/
theorem eval_besideFile : (besideFile.eval importProgram).1 = .ok () := by
  have hnames : NamesFile {} besideFile.machine.world "a.modu" ⟨"/", ["a.modu"]⟩ importedFile :=
    ⟨by decide +kernel, by decide +kernel, importedFile.toUTF8.data.toList, by decide +kernel,
      by decide +kernel⟩
  have hname : Source.unquote "\"a.modu\"" = "a.modu" := by decide +kernel
  have hnode := outcome_importing_file (m := besideFile.machine) (evaluate 899) {}
    ⟨"\"a.modu\"", 1⟩ none 1 (by decide +kernel)
  have hload : ∃ members m', (loadFile (evaluate 899) {} "a.modu").outcome besideFile.machine =
      (.ok members, m') := by
    rw [hnames.outcome_loadFile]
    unfold runModule
    rw [parse_importedFile]
    exact ⟨_, _, rfl⟩
  obtain ⟨members, m', hload⟩ := hload
  have hvalue : ∃ m', (evaluateNode (evaluate 899) {}
      (.importing ⟨"\"a.modu\"", 1⟩ none 1)).outcome besideFile.machine = (.ok .null, m') := by
    rw [hnode, hname, outcome_bind, hload]
    exact ⟨_, rfl⟩
  obtain ⟨m', hvalue⟩ := hvalue
  have hanswer : (evaluate (899 + 1)).answer
      ⟨{}, .importing ⟨"\"a.modu\"", 1⟩ none 1, besideFile.machine⟩ = (.ok .null, m') :=
    outcome_atLine_ok 1 hvalue
  have hrun : (runTopLevel (evaluate stackLimit) {} none 0
      [.importing ⟨"\"a.modu\"", 1⟩ none 1]).outcome besideFile.machine = (.ok (), m') :=
    (outcome_runTopLevel_ok hanswer).trans rfl
  change ((runBy {} importProgram (evaluate stackLimit)).outcome besideFile.machine).1 = _
  rw [runBy, parse_importProgram, hrun]

/-- A file that is missing from another directory leaves imports to be looked for there: the program
imports its file before the run and does not find it afterwards. -/
theorem failed_runFile_redirects_imports :
    readScript besideFile.machine.world "lib/b.modu" =
        .error (.os ⟨.missing, some "lib/b.modu"⟩) ∧
      (besideFile.eval importProgram).1 = .ok () ∧
      ∃ failure, ((besideFile.runFile "lib/b.modu").2.eval importProgram).1 =
          .error (.failed failure) ∧ failure.path? = some "/lib/a.modu" := by
  have hfails : readScript besideFile.machine.world "lib/b.modu" =
      .error (.os ⟨.missing, some "lib/b.modu"⟩) := by
    decide +kernel
  have hrefused : RefusesTarget (Config.withScript {} (Path.ofString "lib/b.modu"))
      besideFile.machine.world "a.modu"
      (.fault ⟨.sourceUnreadable ⟨.missing, some "/lib/a.modu"⟩, 0⟩) := by
    have hpath : resolveSource (Config.withScript {} (Path.ofString "lib/b.modu"))
        besideFile.machine.world (Path.ofString "a.modu") = .ok ⟨"/", ["lib", "a.modu"]⟩ := by
      decide +kernel
    exact .unreadable (by decide +kernel) hpath (by decide +kernel)
  obtain ⟨failure, hrun, hpath⟩ := outcome_importProgram hrefused
  rw [runFile_of_error hfails]
  exact ⟨hfails, eval_besideFile, failure, congrArg Prod.fst hrun, hpath⟩

end Session

end ModuLang
