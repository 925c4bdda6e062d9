import ModuLang.Proofs.EvaluationConfinement
import ModuLang.Proofs.ProgramGrammar
import ModuLang.Proofs.TokenLines

/-!
# A program behind another one

A program that stands behind another one, on a line of its own, runs as if it came after it: what is
read behind a statement does not change how the statement is read, and what is run behind it does not
change how it runs. For this the reader has to be in its first state again at the end of the first
program: outside any comment, any body and any statement; and the machine has to have no frame left.

The lines of the first program are kept as blank lines in front of the second, so that all errors
name the same lines.
-/

namespace ModuLang

open Eval

/-! ### Reading -/

namespace Source

open Text

variable {s₁ s₂ : String} {nodes : List Node}

/-- Separators and a statement behind them do not end with a separator. -/
theorem Derives.stmt_not_concat {f : Bool} {ss ts us : List Token} {n : Node} {sep : Token}
    (h : Derives (.stmt f) ts n) (hsep : sep.Separates) : ss ++ ts ≠ us ++ [sep] := by
  intro heq
  obtain ⟨first, rest, rfl, -⟩ := h.headed
  have hclosed : Closed (first :: rest) := h.ends
  have hlast : (first :: rest).getLast? = some sep := by
    have hboth := congrArg List.getLast? heq
    rw [List.getLast?_append, List.getLast?_concat, List.getLast?_cons] at hboth
    rw [List.getLast?_cons]
    exact hboth
  exact hclosed sep hlast hsep

/-- Where there are no tokens there are no statements. -/
theorem Derives.stmts_nil {f : Bool} {ns : List Node} (h : Derives (.stmts f) [] ns) : ns = [] := by
  suffices hall : ∀ ts ns, Derives (.stmts f) ts ns → ts = [] → ns = [] from hall _ _ h rfl
  intro ts ns h
  refine Derives.stmts_induction (fun ts ns => ts = [] → ns = []) ?_ ?_ ?_ h
  · intro _ _ _
    rfl
  · intro ss ts n _ hstmt heq
    obtain ⟨first, rest, rfl, -⟩ := hstmt.headed
    simp at heq
  · intro ss ts us n ns sep _ _ _ _ _ heq
    simp at heq

/-- A separator behind the last statement can be left out. -/
theorem Derives.stmts_of_concat {f : Bool} {us : List Token} {ns : List Node} {sep : Token}
    (h : Derives (.stmts f) (us ++ [sep]) ns) (hsep : sep.Separates) : Derives (.stmts f) us ns := by
  suffices hall : ∀ ts ns, Derives (.stmts f) ts ns →
      ∀ us, ts = us ++ [sep] → Derives (.stmts f) us ns from hall _ _ h us rfl
  intro ts ns h
  refine Derives.stmts_induction (fun ts ns => ∀ us, ts = us ++ [sep] → Derives (.stmts f) us ns)
    ?_ ?_ ?_ h
  · rintro ss hss us rfl
    exact .noStmts fun t ht => hss t (List.mem_append_left _ ht)
  · intro ss ts n _ hstmt us heq
    exact absurd heq (hstmt.stmt_not_concat hsep)
  · intro ss ts vs n ns sep' hss hstmt hsep' hrest ih us heq
    rcases List.eq_nil_or_concat vs with rfl | ⟨vs, last, rfl⟩
    · -- The separator is the one behind the statement, and no statement follows it.
      obtain ⟨rfl, -⟩ := List.append_inj' heq rfl
      rw [hrest.stmts_nil]
      exact .lastStmt hss hstmt
    · have hsplit : (ss ++ ts ++ sep' :: vs) ++ [last] = us ++ [sep] := by
        simpa using heq
      obtain ⟨rfl, hlast⟩ := List.append_inj' hsplit rfl
      obtain rfl : last = sep := List.singleton_inj.mp hlast
      exact .moreStmts hss hstmt hsep' (ih vs (by simp))

theorem parseAll_eq_ok [Host.Limits] : parseAll s₁ = .ok nodes ↔ parse s₁ = ⟨nodes, none⟩ := by
  unfold parseAll
  generalize parse s₁ = program
  obtain ⟨statements, failure⟩ := program
  cases failure with
  | some failure => simp
  | none => simp

/-- What is read to its end without a failure is read to its last token, which is the end of a
line, and all tokens in front of it are a program of the grammar. -/
theorem parse_sound [Host.Limits] (h : parseAll s₁ = .ok nodes) :
    (tokenize s₁).2 = none ∧
      ∃ us last, (tokenize s₁).1 = us ++ [last] ∧ last.Separates ∧ Derives (.stmts false) us nodes := by
  have hparse := parseAll_eq_ok.mp h
  rw [parse_eq] at hparse
  obtain ⟨used, rest, t, hused, htokens, hpeek, ht⟩ :=
    programStatements_sound stackLimit _ (congrArg Program.failure hparse)
  rw [hparse] at hused
  have hkinds : NoEnd (tokenize s₁).1 := tokenizeLines_noEnd 1 none (lines s₁.toList)
  -- The end of the text is no token of a line, so nothing is left in front of it.
  obtain rfl : rest = [] := by
    cases rest with
    | nil => rfl
    | cons u rest =>
      obtain rfl : u = t := Except.ok.inj hpeek
      rw [htokens, noEnd_append, noEnd_cons] at hkinds
      exact absurd ht hkinds.2.1
  have hread : (tokenize s₁).2 = none := by
    cases hfailed : (tokenize s₁).2 with
    | none => rfl
    | some failure =>
      rw [hfailed] at hpeek
      cases hpeek
  have hends : EndsLine (tokenize s₁).1 := tokenizeLines_endsLine hread (.inr (lines_ne_nil _))
  obtain ⟨us, last, hlast, hkind⟩ := hends
  refine ⟨hread, us, last, hlast, .inl hkind, ?_⟩
  rw [List.append_nil] at htokens
  obtain rfl : used = us ++ [last] := htokens.symm.trans hlast
  exact hused.stmts_of_concat (.inl hkind)

/-- As many line feeds as a text has lines. -/
def lineFeeds (source : String) : String :=
  String.ofList (List.replicate (lines source.toList).length '\n')

/-- The tokens of a text behind another one. -/
theorem tokenize_append (h : (tokenize s₁).2 = none) (s₂ : String) :
    ∃ ts failure, tokenize (s₁ ++ "\n" ++ s₂) = ((tokenize s₁).1 ++ ts, failure) ∧
      tokenize (lineFeeds s₁ ++ s₂) = (blankEnds 1 (lines s₁.toList).length ++ ts, failure) ∧
      (failure = none → ts ≠ []) := by
  refine ⟨(tokenizeLines (1 + (lines s₁.toList).length) none (lines s₂.toList)).1,
    (tokenizeLines (1 + (lines s₁.toList).length) none (lines s₂.toList)).2, ?_, ?_, ?_⟩
  · unfold tokenize
    have hlines : lines (s₁ ++ "\n" ++ s₂).toList = lines s₁.toList ++ lines s₂.toList := by
      rw [← lines_append]
      simp
    rw [hlines]
    exact tokenizeLines_append h _
  · unfold tokenize lineFeeds
    have hlines : lines (String.ofList (List.replicate (lines s₁.toList).length '\n') ++ s₂).toList =
        List.replicate (lines s₁.toList).length [] ++ lines s₂.toList := by
      rw [← lines_replicate_append]
      simp
    rw [hlines]
    exact tokenizeLines_blank 1 _ _
  · intro hread hnil
    obtain ⟨us, last, htokens, -⟩ := tokenizeLines_endsLine hread (.inr (lines_ne_nil _))
    rw [hnil] at htokens
    simp at htokens

/-- The ending of a text does not depend on what stands in front of its last line. -/
theorem endingOf_append (ts : List Token) {us : List Token} {failure : Option Failure}
    (h : failure = none → us ≠ []) : endingOf (ts ++ us) failure = endingOf us failure := by
  cases failure with
  | some failure => rfl
  | none =>
    obtain ⟨vs, last, rfl⟩ := (List.eq_nil_or_concat us).resolve_left (h rfl)
    simp [endingOf]

/-- A program behind another one is read as it is behind blank lines. -/
theorem parse_append [Host.Limits] (h : parseAll s₁ = .ok nodes) (s₂ : String) :
    parse (s₁ ++ "\n" ++ s₂) =
      ⟨nodes ++ (parse (lineFeeds s₁ ++ s₂)).statements, (parse (lineFeeds s₁ ++ s₂)).failure⟩ := by
  obtain ⟨hread, us, last, htokens, hlast, hus⟩ := parse_sound h
  obtain ⟨ts, failure, hboth, hblank, hmore⟩ := tokenize_append hread s₂
  have hreads : ReadsAs stackLimit us nodes := by
    have hparse := parseAll_eq_ok.mp h
    rw [parse_eq, htokens] at hparse
    exact (programStatements_front hus hlast hparse).1
  have hskip : ∀ ending, programStatements ending stackLimit
      (blankEnds 1 (lines s₁.toList).length ++ ts) = programStatements ending stackLimit ts := by
    intro ending
    rw [programStatements_eq, skipSeparators_append (blankEnds_separators _ _), ← programStatements_eq]
  rw [parse_eq, parse_eq, hboth, hblank]
  simp only
  rw [endingOf_append _ hmore, endingOf_append _ hmore, hskip, htokens, List.append_assoc,
    List.singleton_append, hreads _ _ (next_separator hlast _ _), programStatements_cons hlast]

end Source

/-! ### Running -/

variable {ev : Evaluator} {config : Config} {failure : Option Failure}

/-- A failure that is no stack overflow is reported as it is. -/
theorem overflowAt_throw {f : Failure} (hf : f ≠ .crash .stackOverflow) (line : Int) :
    overflowAt line (throw (.failed f) : Eval Unit) = throw (.failed f) := by
  cases f with
  | fault _ => rfl
  | crash c =>
    cases c with
    | stackOverflow => exact absurd rfl hf
    | _ => rfl

/-- The line that was begun last does not matter, unless the next statement is nested too deeply to
be read. -/
theorem runTopLevel_line (hfailure : failure ≠ some (.crash .stackOverflow)) (line line' : Int)
    (nodes : List Node) :
    runTopLevel ev config failure line nodes = runTopLevel ev config failure line' nodes := by
  cases nodes with
  | cons statement rest => rfl
  | nil =>
    cases failure with
    | none => rfl
    | some f =>
      have hf : f ≠ .crash .stackOverflow := fun heq => hfailure (congrArg some heq)
      rw [runTopLevel, runTopLevel, overflowAt_throw hf, overflowAt_throw hf]

/-- Statements behind others run after them. -/
theorem runTopLevel_append (hfailure : failure ≠ some (.crash .stackOverflow)) (line line' : Int)
    (ns ms : List Node) :
    runTopLevel ev config failure line (ns ++ ms) =
      (do
        runTopLevel ev config none line ns
        runTopLevel ev config failure line' ms) := by
  induction ns generalizing line with
  | nil =>
    have hdone : runTopLevel ev config none line [] = pure () := rfl
    rw [List.nil_append, hdone, pure_bind]
    exact runTopLevel_line hfailure line line' ms
  | cons statement rest ih =>
    rw [List.cons_append, runTopLevel, runTopLevel, bind_assoc]
    simp only [ih]

/-- A run leaves no frame behind. -/
theorem runProgram_frames [Host.Limits] (config : Config) (source : String) {m : Machine}
    (h : m.frames = []) :
    ((runProgram config source).outcome m).2.frames = [] := by
  have hkeeps : Keeps .absent (knownEnv .absent) m (runProgram config source)
      (runProgram config source) fun _ _ => True :=
    keeps_runTopLevel (complies_evaluate .absent stackLimit) _ fun hdrawn => hdrawn.elim
  obtain ⟨-, hkept⟩ := hkeeps (fun hdrawn => hdrawn.elim) fun _ _ hdrawn => hdrawn.elim
  have hframes := hkept.grows.frames
  rw [h] at hframes
  exact hframes

/-- A program behind one that can be read runs as the two one after the other, on the same machine,
with the lines of the first one kept in front of the second: whatever the first one does, it does
before any part of the second one is read, and the second one starts without frames if the first
one did. -/
theorem runProgram_append [Host.Limits] (config : Config) {s₁ : String} {nodes : List Node}
    (s₂ : String) (hparse : Source.parseAll s₁ = .ok nodes)
    (hdeep : (Source.parse (Source.lineFeeds s₁ ++ s₂)).failure ≠ some (.crash .stackOverflow)) :
    runProgram config (s₁ ++ "\n" ++ s₂) =
        (do
          runProgram config s₁
          runProgram config (Source.lineFeeds s₁ ++ s₂)) ∧
      ∀ m : Machine, m.frames = [] → ((runProgram config s₁).outcome m).2.frames = [] := by
  refine ⟨?_, fun m => runProgram_frames config s₁⟩
  unfold runProgram runWithin
  simp only [Source.parse_append hparse, Source.parseAll_eq_ok.mp hparse]
  exact runTopLevel_append hdeep 0 0 nodes _

/-- A comment over two lines, a binding behind it, and then what is no statement: the binding is made
before the rest is read. -/
theorem run_comment_then_paren :
    let start := (Session.new {} {}).machine
    let bound := { start with env := start.env.define "x" (.int 1) }
    runProgram {} "/* a\n*/ let x = 1\n)" =
        (do
          runProgram {} "/* a\n*/ let x = 1"
          runProgram {} "\n\n)") ∧
      (runProgram {} "/* a\n*/ let x = 1").outcome start = (.ok (), bound) ∧
      (runProgram {} "\n\n)").outcome bound =
        (.error (.failed (.fault ⟨.expectedExpression "')'", 3⟩)), bound) := by
  have hparse : Source.parse "/* a\n*/ let x = 1" = ⟨[.binding "x" (.literal (.int 1) 2) 2], none⟩ := by
    have htokens : Source.tokenize "/* a\n*/ let x = 1" =
        ([⟨.newline, "\n", 1⟩, ⟨.letWord, "let", 2⟩, ⟨.identifier, "x", 2⟩, ⟨.assign, "=", 2⟩,
          ⟨.number, "1", 2⟩, ⟨.newline, "\n", 2⟩], none) := by
      decide +kernel
    unfold Source.parse
    rw [htokens]
    cbv
  have hbroken : Source.parse "\n\n)" = ⟨[], some (.fault ⟨.expectedExpression "')'", 3⟩)⟩ := by
    have htokens : Source.tokenize "\n\n)" =
        ([⟨.newline, "\n", 1⟩, ⟨.newline, "\n", 2⟩, ⟨.rightParen, ")", 3⟩, ⟨.newline, "\n", 3⟩],
          none) := by
      decide +kernel
    unfold Source.parse
    rw [htokens]
    cbv
  have hfeeds : Source.lineFeeds "/* a\n*/ let x = 1" ++ ")" = "\n\n)" := by
    decide +kernel
  have hdeep : (Source.parse "\n\n)").failure ≠ some (.crash .stackOverflow) := by
    rw [hbroken]
    exact fun h => by cases h
  have hboth : "/* a\n*/ let x = 1\n)" = "/* a\n*/ let x = 1" ++ "\n" ++ ")" := by
    decide +kernel
  rw [← hfeeds] at hdeep
  have hrun := runProgram_append {} ")" (Source.parseAll_eq_ok.mpr hparse) hdeep
  rw [hfeeds, ← hboth] at hrun
  refine ⟨hrun.1, ?_, ?_⟩
  · unfold runProgram runWithin
    rw [hparse]
    rfl
  · unfold runProgram runWithin
    rw [hbroken]
    rfl

end ModuLang
