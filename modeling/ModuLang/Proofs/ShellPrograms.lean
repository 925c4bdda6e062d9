import ModuLang.CommandLine
import ModuLang.Proofs.ProgramCuts

/-!
# The programs that the shell reads

The shell takes lines until no bracket is open, and runs them as a program of their own. For a
program without a comment that runs over the end of a line this cuts it between statements: each
part can be read, and the statements of the parts are those of the whole, with the lines counted from
where the part begins.
-/

namespace ModuLang

/-! ### Lines with their ends -/

namespace Text

/-- The lines of a text, each with its line feed; only the last one may have none. -/
def fullLines : List Char → List (List Char)
  | [] => []
  | c :: cs =>
    if c == '\n' then [c] :: fullLines cs
    else
      match fullLines cs with
      | [] => [[c]]
      | line :: rest => (c :: line) :: rest

/-- The lines of a text make up the text. -/
theorem flatten_fullLines (cs : List Char) : (fullLines cs).flatten = cs := by
  induction cs with
  | nil => rfl
  | cons c cs ih =>
    rw [fullLines]
    split
    · rw [List.flatten_cons, ih]
      rfl
    · split
      · next hnone =>
        rw [hnone] at ih
        rw [← ih]
        rfl
      · next line rest hlines =>
        rw [hlines] at ih
        rw [← ih]
        rfl

/-- What the first line of a text is: what is taken from the text first, with a line feed at its end
if another line follows. -/
structure FirstLine (cs line : List Char) (rest : List (List Char)) : Prop where
  taken : takeLine cs = (line, rest.flatten)
  others : fullLines rest.flatten = rest
  nonempty : line ≠ []
  ended : rest ≠ [] → ∃ body, line = body ++ ['\n'] ∧ lines body = [body]

theorem firstLine_of_fullLines {cs line : List Char} {rest : List (List Char)}
    (h : fullLines cs = line :: rest) : FirstLine cs line rest := by
  -- A line feed ends the first line at once; any other character stands in front of the first line
  -- of what follows.
  induction cs generalizing line rest with
  | nil => cases h
  | cons c cs ih =>
    rw [fullLines] at h
    split at h
    · next hc =>
      obtain rfl : c = '\n' := by simpa using hc
      obtain ⟨rfl, rfl⟩ := List.cons_eq_cons.mp h
      refine ⟨?_, ?_, by simp, fun _ => ⟨[], rfl, rfl⟩⟩
      · rw [takeLine, if_pos hc, flatten_fullLines]
      · rw [flatten_fullLines]
    · next hc =>
      split at h
      · next hnone =>
        obtain ⟨rfl, rfl⟩ := List.cons_eq_cons.mp h
        obtain rfl : cs = [] := by
          rw [← flatten_fullLines cs, hnone]
          rfl
        refine ⟨?_, rfl, by simp, fun hrest => absurd rfl hrest⟩
        rw [takeLine, if_neg hc]
        rfl
      · next first more hlines =>
        obtain ⟨rfl, rfl⟩ := List.cons_eq_cons.mp h
        have hfirst := ih hlines
        refine ⟨?_, hfirst.others, by simp, fun hmore => ?_⟩
        · rw [takeLine, if_neg hc, hfirst.taken]
        · obtain ⟨body, rfl, hbody⟩ := hfirst.ended hmore
          refine ⟨c :: body, rfl, ?_⟩
          have hsplit : lines (c :: body) = [c :: body] := by
            rw [lines, splitAt]
            rw [lines] at hbody
            rw [hbody]
            simp [hc]
          exact hsplit

/-- Lines in front of others end with a line feed, and what stands before it has as many lines. -/
theorem exists_body_of_fullLines {cs : List Char} {run rest : List (List Char)}
    (h : fullLines cs = run ++ rest) (hrun : run ≠ []) (hrest : rest ≠ []) :
    ∃ body, run.flatten = body ++ ['\n'] ∧ (lines body).length = run.length := by
  induction run generalizing cs with
  | nil => exact absurd rfl hrun
  | cons line run ih =>
    have hfirst := firstLine_of_fullLines h
    obtain ⟨body, rfl, hbody⟩ := hfirst.ended (by simp [hrest])
    by_cases hmore : run = []
    · subst hmore
      exact ⟨body, by simp, by simp [hbody]⟩
    · obtain ⟨behind, hbehind, hlength⟩ := ih hfirst.others hmore
      refine ⟨body ++ '\n' :: behind, by simp [hbehind], ?_⟩
      rw [lines_append, List.length_append, hbody, hlength, List.length_cons]
      exact Nat.add_comm 1 run.length

/-- Cutting a text between two lines is cutting it behind a line feed. -/
theorem exists_cut_of_fullLines {cs : List Char} {run rest : List (List Char)}
    (h : fullLines cs = run ++ rest) (hrun : run ≠ []) (hrest : rest ≠ []) :
    ∃ body, cs = body ++ '\n' :: rest.flatten ∧ run.flatten = body ++ ['\n'] ∧
      (lines body).length = run.length := by
  obtain ⟨body, hbody, hlength⟩ := exists_body_of_fullLines h hrun hrest
  refine ⟨body, ?_, hbody, hlength⟩
  rw [← flatten_fullLines cs, h, List.flatten_append, hbody, List.append_assoc]
  rfl

/-- The lines behind the first ones are the lines of what stands behind these. -/
theorem fullLines_behind {cs : List Char} {run rest : List (List Char)}
    (h : fullLines cs = run ++ rest) : fullLines rest.flatten = rest := by
  induction run generalizing cs with
  | nil =>
    rw [List.nil_append] at h
    rw [← h, flatten_fullLines]
  | cons line run ih => exact ih (firstLine_of_fullLines h).others

end Text

/-! ### Runs of lines -/

section

variable [Host.Limits]

namespace Source

open Text

/-- The text of a run of lines. -/
def textOf (run : List (List Char)) : String :=
  String.ofList run.flatten

/-- Whether a run of lines is the shortest one that needs no more input. -/
structure ShortestRun (run : List (List Char)) : Prop where
  nonempty : run ≠ []
  complete : needsMoreInput (textOf run) = .ok false
  shortest : ∀ shorter, shorter <+: run → shorter ≠ [] → shorter ≠ run →
    needsMoreInput (textOf shorter) = .ok true

/-- The statements of programs of which each begins where the one before it ends; `before` is the
number of lines in front of the first one. -/
def statementsOf (before : Nat) : List (List (List Char)) → Except Failure (List Node)
  | [] => .ok []
  | run :: runs => do
    let ns ← parseAll (textOf run)
    let ms ← statementsOf (before + run.length) runs
    return ns.map (Node.shift before) ++ ms

section Runs

variable {cs : List Char} {nodes : List Node}

/-- The shell can tell of every run of lines of a program whether it needs more input. -/
theorem exists_needsMoreInput (halone : ReadAlone (lines cs))
    (hparse : parseAll (String.ofList cs) = .ok nodes) {run rest : List (List Char)}
    (hlines : fullLines cs = run ++ rest) (hrun : run ≠ []) :
    ∃ b, needsMoreInput (textOf run) = .ok b := by
  by_cases hrest : rest = []
  · -- The run is the whole program.
    have hwhole : run.flatten = cs := by
      rw [← flatten_fullLines cs, hlines, hrest, List.append_nil]
    rw [textOf, hwhole]
    exact ⟨false, needsMoreInput_of_parseAll hparse⟩
  · obtain ⟨body, rfl, hbody, -⟩ := exists_cut_of_fullLines hlines hrun hrest
    rw [textOf, hbody]
    exact ⟨_, needsMoreInput_front (readAlone_cut.mp halone).1⟩

/-- The lines of a program begin with a shortest run; it is found by taking line after line as long
as more input is needed. -/
theorem exists_shortestRun (halone : ReadAlone (lines cs))
    (hparse : parseAll (String.ofList cs) = .ok nodes) {read unread : List (List Char)}
    (hlines : fullLines cs = read ++ unread) (hne : fullLines cs ≠ [])
    (hread : ∀ run, run <+: read → run ≠ [] → needsMoreInput (textOf run) = .ok true) :
    ∃ run rest, fullLines cs = run ++ rest ∧ ShortestRun run := by
  induction unread generalizing read with
  | nil =>
    -- All lines are read, and the whole program needs no more input.
    rw [List.append_nil] at hlines
    have hmore := hread read (List.prefix_refl read) (hlines ▸ hne)
    rw [textOf, ← hlines, flatten_fullLines, needsMoreInput_of_parseAll hparse] at hmore
    cases hmore
  | cons line unread ih =>
    have hsplit : fullLines cs = (read ++ [line]) ++ unread := by
      rw [hlines, List.append_assoc]
      rfl
    obtain ⟨more, hmore⟩ := exists_needsMoreInput halone hparse hsplit (by simp)
    cases more with
    | false =>
      refine ⟨_, _, hsplit, by simp, hmore, fun shorter hprefix hshorter hproper => ?_⟩
      exact hread shorter ((List.prefix_concat_iff.mp hprefix).resolve_left hproper) hshorter
    | true =>
      refine ih hsplit fun run hprefix hrun => ?_
      rcases List.prefix_concat_iff.mp hprefix with rfl | hprefix
      · exact hmore
      · exact hread run hprefix hrun

/-- A program is a shortest run of lines, or one in front of another program that stands further
down. -/
theorem exists_run (halone : ReadAlone (lines cs))
    (hparse : parseAll (String.ofList cs) = .ok nodes) (hne : fullLines cs ≠ []) :
    ∃ run rest ns ls, fullLines cs = run ++ rest ∧ ShortestRun run ∧ nodes = ns ++ ls ∧
      parseAll (textOf run) = .ok ns ∧ ReadAlone (lines rest.flatten) ∧
      ReadsAt (1 + run.length) rest.flatten ls := by
  obtain ⟨run, rest, hlines, hrun⟩ := exists_shortestRun halone hparse (List.nil_append _).symm hne
    fun run hprefix hnil => absurd (List.prefix_nil.mp hprefix) hnil
  -- Where lines follow, the program is cut behind the run: no bracket is open there, since the run
  -- is complete.
  by_cases hrest : rest = []
  · subst hrest
    have hwhole : run.flatten = cs := by
      rw [← flatten_fullLines cs, hlines, List.append_nil]
    refine ⟨run, [], nodes, [], hlines, hrun, (List.append_nil _).symm, ?_, readAlone_empty,
      0, programStatements_empty 0 _⟩
    rw [textOf, hwhole]
    exact hparse
  · obtain ⟨body, rfl, hbody, hlength⟩ := exists_cut_of_fullLines hlines hrun.nonempty hrest
    obtain ⟨hfront, hbehind⟩ := readAlone_cut.mp halone
    have hclosed : depth (tokensFrom 1 (lines body)) = 0 := by
      have hnonneg := depth_front_nonneg halone hparse
      have hcomplete := hrun.complete
      rw [textOf, hbody, needsMoreInput_front hfront] at hcomplete
      have hnot := of_decide_eq_false (Except.ok.inj hcomplete)
      omega
    obtain ⟨ns, ls, rfl, hns, hls⟩ := parseAll_cut halone hparse hclosed
    rw [← hbody] at hns
    rw [hlength] at hls
    exact ⟨run, rest, ns, ls, hlines, hrun, rfl, hns, hbehind, hls⟩

/-- The lines of a program are shortest runs, one after the other, and their statements, moved down
by the lines in front of each of them, are those of the program. -/
theorem exists_runs (cs : List Char) {nodes : List Node} {before : Nat}
    (halone : ReadAlone (lines cs)) (hread : ReadsAt (1 + before) cs nodes) :
    ∃ runs, runs.flatten = fullLines cs ∧ (∀ run ∈ runs, ShortestRun run) ∧
      statementsOf before runs = .ok nodes := by
  by_cases hne : fullLines cs = []
  · obtain rfl : cs = [] := by
      rw [← flatten_fullLines cs, hne]
      rfl
    obtain ⟨endLine, hread⟩ := hread
    rw [programStatements_empty] at hread
    cases hread
    exact ⟨[], rfl, fun run hrun => absurd hrun List.not_mem_nil, rfl⟩
  · obtain ⟨ms, hms, rfl⟩ := hread.parseAll halone
    obtain ⟨run, rest, ns, ls, hlines, hrun, rfl, hns, hbehind, hls⟩ := exists_run halone hms hne
    -- What is behind the run has fewer lines, so the recursion is on their number.
    have hfewer : (fullLines rest.flatten).length < (fullLines cs).length := by
      have hpos := List.length_pos_iff.mpr hrun.nonempty
      rw [fullLines_behind hlines, hlines, List.length_append]
      omega
    have hread' : ReadsAt (1 + (before + run.length : Nat)) rest.flatten
        (ls.map (Node.shift before)) := by
      have hmoved := hls.shift before
      have hline : (1 + run.length + before : Int) = 1 + (before + run.length : Nat) := by omega
      rw [hline] at hmoved
      exact hmoved
    obtain ⟨runs, hruns, hshortest, hstatements⟩ := exists_runs rest.flatten hbehind hread'
    refine ⟨run :: runs, ?_, List.forall_mem_cons.mpr ⟨hrun, hshortest⟩, ?_⟩
    · rw [List.flatten_cons, hruns, hlines, fullLines_behind hlines]
    · rw [statementsOf, hns, hstatements, List.map_append]
      rfl
termination_by (fullLines cs).length

end Runs

end Source

end

/-! ### The lines of the standard input -/

namespace CommandLine

open Source Text

/-- What is left of the standard input of a session. -/
def inputOf (s : Session) : List Char :=
  s.machine.world.input

@[simp]
theorem inputOf_say (s : Session) (text : String) : inputOf (say s text) = inputOf s := rfl

/-- The programs that the shell reads from the standard input of a session, one after the other, if
nothing else reads from it. -/
inductive ShellReads : Session → List String → Prop where
  | finished {s : Session} : nextLine? (say s "> ") = none → ShellReads s []
  | program {s s₁ s₂ : Session} {line source : String} {sources : List String} :
      nextLine? (say s "> ") = some (line, s₁) →
      (∀ fuel, (inputOf s₁).length < fuel → readOn fuel s₁ line = (.ok source, s₂)) →
      ShellReads s₂ sources → ShellReads s (source :: sources)

/-- The shell takes one line after the other. -/
theorem nextLine?_of_fullLines {s : Session} {line : List Char} {rest : List (List Char)}
    (h : fullLines (inputOf s) = line :: rest) :
    ∃ s', nextLine? s = some (String.ofList line, s') ∧ fullLines (inputOf s') = rest ∧
      (inputOf s').length < (inputOf s).length := by
  have hfirst := firstLine_of_fullLines h
  have htaken : takeLine s.machine.world.input = (line, rest.flatten) := hfirst.taken
  refine ⟨{ s with machine.world.input := rest.flatten }, ?_, hfirst.others, ?_⟩
  · have hline : (String.ofList line).isEmpty = false := by
      simpa [String.isEmpty_iff] using hfirst.nonempty
    unfold nextLine? Host.World.readLine
    rw [htaken]
    simp [hline]
  · have hwhole : inputOf s = line ++ rest.flatten := by
      rw [← flatten_fullLines (inputOf s), h, List.flatten_cons]
    have hpos := List.length_pos_iff.mpr hfirst.nonempty
    rw [hwhole, List.length_append]
    exact Nat.lt_add_of_pos_left hpos

/-- The shell reads a shortest run to its end. -/
theorem readOn_shortestRun {read unread rest : List (List Char)} (hrun : ShortestRun (read ++ unread))
    (hread : read ≠ []) {s : Session} (hinput : fullLines (inputOf s) = unread ++ rest) :
    ∃ s', fullLines (inputOf s') = rest ∧ ∀ fuel, (inputOf s).length < fuel →
      readOn fuel s (textOf read) = (.ok (textOf (read ++ unread)), s') := by
  induction unread generalizing read s with
  | nil =>
    rw [List.append_nil] at hrun ⊢
    refine ⟨s, hinput, fun fuel hfuel => ?_⟩
    obtain ⟨fuel, rfl⟩ := Nat.exists_eq_succ_of_ne_zero (Nat.ne_zero_of_lt hfuel)
    rw [readOn, hrun.complete]
  | cons line unread ih =>
    have hmore : needsMoreInput (textOf read) = .ok true :=
      hrun.shortest read (List.prefix_append _ _) hread (by simp)
    obtain ⟨s₁, hnext, hinput₁, hshorter⟩ := nextLine?_of_fullLines (s := say s "|   ") hinput
    have hrun₁ : ShortestRun ((read ++ [line]) ++ unread) := by
      rw [List.append_assoc]
      exact hrun
    obtain ⟨s₂, hinput₂, hon⟩ := ih hrun₁ (by simp) hinput₁
    refine ⟨s₂, hinput₂, fun fuel hfuel => ?_⟩
    obtain ⟨fuel, rfl⟩ := Nat.exists_eq_succ_of_ne_zero (Nat.ne_zero_of_lt hfuel)
    have htext : textOf read ++ String.ofList line = textOf (read ++ [line]) := by
      simp [textOf, String.ofList_append]
    rw [readOn, hmore]
    simp only [hnext, htext]
    rw [hon fuel (by rw [inputOf_say] at hshorter; omega), List.append_assoc]
    rfl

/-- The shell reads one shortest run after the other. -/
theorem shellReads_runs {runs : List (List (List Char))} (hruns : ∀ run ∈ runs, ShortestRun run)
    {s : Session} (hinput : runs.flatten = fullLines (inputOf s)) :
    ShellReads s (runs.map textOf) := by
  induction runs generalizing s with
  | nil =>
    have hempty : (say s "> ").machine.world.input = [] := by
      have hnone := flatten_fullLines (inputOf s)
      rw [← hinput] at hnone
      exact hnone.symm
    refine .finished ?_
    unfold nextLine? Host.World.readLine
    rw [hempty]
    rfl
  | cons run runs ih =>
    obtain ⟨hrun, hothers⟩ := List.forall_mem_cons.mp hruns
    obtain ⟨line, unread, rfl⟩ := List.exists_cons_of_ne_nil hrun.nonempty
    obtain ⟨s₁, hnext, hinput₁, -⟩ := nextLine?_of_fullLines (s := say s "> ") hinput.symm
    have hread : ShortestRun ([line] ++ unread) := hrun
    obtain ⟨s₂, hinput₂, hon⟩ := readOn_shortestRun hread (by simp) hinput₁
    have htext : textOf [line] = String.ofList line := by
      simp [textOf]
    rw [htext] at hon
    exact .program hnext hon (ih hothers hinput₂.symm)

/-- A program that can be read needs no more input. If no comment of it runs over the end of a line,
its lines are shortest runs that need no more input, each of which can be read; the statements of
the runs, moved down by the lines in front of each of them, are those of the program; and the runs
are the programs that the shell reads if the program is its standard input. -/
theorem shell_splits_program [Host.Limits] {source : String} {nodes : List Node}
    (hparse : parseAll source = .ok nodes) :
    needsMoreInput source = .ok false ∧
      ((∀ cs ∈ lines source.toList, ClosesComments cs) →
        ∃ runs, runs.flatten = fullLines source.toList ∧ (∀ run ∈ runs, ShortestRun run) ∧
          statementsOf 0 runs = .ok nodes ∧
          ∀ s : Session, inputOf s = source.toList → ShellReads s (runs.map textOf)) := by
  refine ⟨needsMoreInput_of_parseAll hparse, fun hclosed => ?_⟩
  have halone : ReadAlone (lines source.toList) := readAlone_of_closed hclosed (parse_sound hparse).1
  have hread : ReadsAt (1 + (0 : Nat)) source.toList nodes := by
    rw [← String.ofList_toList (s := source), parseAll_eq_ok, parse_eq, tokenize_readAlone halone]
      at hparse
    exact ⟨_, hparse⟩
  obtain ⟨runs, hruns, hshortest, hstatements⟩ := exists_runs source.toList halone hread
  refine ⟨runs, hruns, hshortest, hstatements, fun s hinput => shellReads_runs hshortest ?_⟩
  rw [hinput, hruns]

/-- A function over three lines, a blank line, and a call over two lines, with brackets in comments
and in a string. -/
def bracketsProgram : String :=
  "fn f(x) \x7b // )\n  return x\n\x7d\n\nlet s = \"(\" /* \x7b */\nprint(f(1),\n  s)"

/-- The shell splits the program between its statements. -/
theorem shell_splits_bracketsProgram :
    ∃ nodes runs, parseAll bracketsProgram = .ok nodes ∧
      needsMoreInput bracketsProgram = .ok false ∧
      runs.flatten = fullLines bracketsProgram.toList ∧ (∀ run ∈ runs, ShortestRun run) ∧
      statementsOf 0 runs = .ok nodes := by
  have hfailure : (parse bracketsProgram).failure = none := by
    decide +kernel
  have hparse : parseAll bracketsProgram = .ok (parse bracketsProgram).statements := by
    rw [parseAll_eq_ok, ← hfailure]
  have hread : ∀ cs ∈ lines bracketsProgram.toList, (lexLine 0 cs).2.isNone = true := by
    decide +kernel
  have hclosed : ∀ cs ∈ lines bracketsProgram.toList, ClosesComments cs := by
    intro cs hcs line l hopen
    have hnone : (lexLine 0 cs).2 = none := Option.isNone_iff_eq_none.mp (hread cs hcs)
    rw [lexLine_line hnone line, hnone] at hopen
    cases hopen
  obtain ⟨hcomplete, hsplits⟩ := shell_splits_program hparse
  obtain ⟨runs, hruns, hshortest, hstatements, -⟩ := hsplits hclosed
  exact ⟨_, runs, hparse, hcomplete, hruns, hshortest, hstatements⟩

end CommandLine

end ModuLang
