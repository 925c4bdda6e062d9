import ModuLang.Proofs.BracketDepth
import ModuLang.Proofs.LineShift
import ModuLang.Proofs.SequentialComposition

/-!
# Cutting a program between its lines

If no comment of a program runs over the end of a line, each line can be read alone. The tokens of a
part of the program are then found in those of the whole, some lines further down, so that a cut
behind a line feed where no bracket is open gives two programs: their statements are those of the
whole, the second ones moved down.
-/

namespace ModuLang.Source

open Text

/-! ### Lines that are read alone -/

/-- Whether no comment of a line runs over the end of the line. -/
def ClosesComments (cs : List Char) : Prop :=
  ∀ line l, (lexLine line cs).2 ≠ some (.fault ⟨.commentRunsOn, l⟩)

/-- Whether each of some lines can be read to its end without the others. -/
def ReadAlone (ls : List (List Char)) : Prop :=
  ∀ cs ∈ ls, (lexLine 0 cs).2 = none

/-- Whether a numeral is too large does not depend on its line. -/
theorem integerDefect?_line {digits : List Char} {line : Int}
    (h : integerDefect? digits line = none) (line' : Int) : integerDefect? digits line' = none :=
  integerDefect?_eq_none_iff.mpr (integerDefect?_eq_none_iff.mp h)

/-- A line is read the same way wherever it stands. -/
theorem lexLine_line {line : Int} {cs : List Char} (h : (lexLine line cs).2 = none) (line' : Int) :
    lexLine line' cs = lexLine line cs := by
  fun_induction lexLine line cs with
  | case1 => rw [lexLine]
  | case2 c tail hgap ih =>
    rw [lexLine, if_pos hgap]
    exact ih h
  | case3 c tail hgap text rest whole nonempty hscan _ ih =>
    rw [lexLine, if_neg hgap]
    simp only [hscan]
    exact ih h
  | case4 => cases h
  | case5 => cases h
  | case6 => cases h
  | case7 c tail hgap kind text rest whole nonempty hscan hdefect _ tokens failure hrest ih =>
    have hdefect' : (if kind = .number then integerDefect? text line' else none) = none := by
      split at hdefect
      · next hnumber => rw [if_pos hnumber, integerDefect?_line hdefect line']
      · next hother => rw [if_neg hother]
    rw [hrest] at ih
    rw [lexLine, if_neg hgap]
    simp only [hscan, hdefect', ih h]

/-- The tokens of lines that are read alone, from the given line on. -/
def tokensFrom (line : Int) : List (List Char) → List Token
  | [] => []
  | cs :: ls => lineTokens line (lexLine 0 cs).1 ++ tokensFrom (line + 1) ls

theorem tokenizeLines_readAlone {ls : List (List Char)} (h : ReadAlone ls) (line : Int) :
    tokenizeLines line none ls = (tokensFrom line ls, none) := by
  induction ls generalizing line with
  | nil => rfl
  | cons cs ls ih =>
    have hcs : (lexLine 0 cs).2 = none := h cs List.mem_cons_self
    have hline : lexLine line cs = ((lexLine 0 cs).1, none) :=
      (lexLine_line hcs line).trans (Prod.ext rfl hcs)
    rw [tokenizeLines, hline, ih fun ds hds => h ds (List.mem_cons_of_mem cs hds)]
    rfl

/-- If all comments are closed, lines that can be read can be read alone. -/
theorem readAlone_of_closed {ls : List (List Char)} {line : Int}
    (hclosed : ∀ cs ∈ ls, ClosesComments cs) (h : (tokenizeLines line none ls).2 = none) :
    ReadAlone ls := by
  induction ls generalizing line with
  | nil => exact fun cs hcs => absurd hcs List.not_mem_nil
  | cons cs ls ih =>
    have hcs := hclosed cs List.mem_cons_self
    rw [tokenizeLines] at h
    cases hlex : lexLine line cs with
    | mk tokens failure =>
    cases failure with
    | none =>
      simp only [hlex] at h
      have halone : (lexLine 0 cs).2 = none := by
        rw [lexLine_line (congrArg Prod.snd hlex) 0, hlex]
      exact List.forall_mem_cons.mpr
        ⟨halone, ih (fun ds hds => hclosed ds (List.mem_cons_of_mem cs hds)) h⟩
    | some failure =>
      exfalso
      simp only [hlex] at h
      split at h
      · next heq => cases heq
      · next l heq =>
        cases heq
        exact hcs line l (congrArg Prod.snd hlex)
      · cases h

theorem tokensFrom_append (line : Int) (ls ls' : List (List Char)) :
    tokensFrom line (ls ++ ls') = tokensFrom line ls ++ tokensFrom (line + ls.length) ls' := by
  induction ls generalizing line with
  | nil => simp [tokensFrom]
  | cons cs ls ih =>
    have hlines : line + 1 + (ls.length : Int) = line + ((cs :: ls).length : Nat) := by
      rw [List.length_cons]
      omega
    rw [List.cons_append, tokensFrom, tokensFrom, ih, hlines, List.append_assoc]

/-- The tokens of lines that stand further down. -/
theorem shiftTokens_tokensFrom (d line : Int) (ls : List (List Char)) :
    shiftTokens d (tokensFrom line ls) = tokensFrom (line + d) ls := by
  induction ls generalizing line with
  | nil => rfl
  | cons cs ls ih =>
    have hlines : line + 1 + d = line + d + 1 := by omega
    rw [tokensFrom, tokensFrom, ← hlines, ← ih]
    simp [shiftTokens, lineTokens, Token.shift]

/-- The tokens of a text whose lines are read alone. -/
theorem tokenize_readAlone {cs : List Char} (h : ReadAlone (lines cs)) :
    tokenize (String.ofList cs) = (tokensFrom 1 (lines cs), none) := by
  unfold tokenize
  rw [String.toList_ofList]
  exact tokenizeLines_readAlone h 1

theorem endsLine_tokensFrom {cs : List Char} (h : ReadAlone (lines cs)) (line : Int) :
    EndsLine (tokensFrom line (lines cs)) := by
  have hread := tokenizeLines_readAlone h line
  have hends := tokenizeLines_endsLine (congrArg Prod.snd hread) (.inr (lines_ne_nil cs))
  rw [hread] at hends
  exact hends

/-! ### Open brackets -/

/-- Whether a text needs more input, if its tokens can be read. -/
theorem needsMoreInput_eq {source : String} {ts : List Token} (h : tokenize source = (ts, none)) :
    needsMoreInput source = .ok (decide (0 < depth ts)) := by
  unfold needsMoreInput
  rw [h]
  simp only [foldl_opens, Int.zero_add]

/-- A program that can be read needs no more input. -/
theorem needsMoreInput_of_parseAll [Host.Limits] {source : String} {nodes : List Node}
    (h : parseAll source = .ok nodes) : needsMoreInput source = .ok false := by
  obtain ⟨hread, us, last, htokens, hlast, hus⟩ := parse_sound h
  have hclosed : depth (us ++ [last]) = 0 := by
    rw [depth_append, hus.nested.closed, depth_cons, hlast.opens]
    rfl
  rw [needsMoreInput_eq (Prod.ext htokens hread), hclosed]
  rfl

/-! ### Cutting a text behind a line feed -/

section Cut

variable {body rest : List Char} {nodes : List Node}

theorem readAlone_cut :
    ReadAlone (lines (body ++ '\n' :: rest)) ↔ ReadAlone (lines body) ∧ ReadAlone (lines rest) := by
  rw [lines_append]
  exact List.forall_mem_append

/-- The tokens in front of a line feed, and those behind it. -/
theorem tokensFrom_cut (line : Int) (body rest : List Char) :
    tokensFrom line (lines (body ++ '\n' :: rest)) =
      tokensFrom line (lines body) ++ tokensFrom (line + (lines body).length) (lines rest) := by
  rw [lines_append, tokensFrom_append]

/-- An empty text is one line without tokens. -/
theorem tokensFrom_empty (line : Int) : tokensFrom line (lines []) = [⟨.newline, "\n", line⟩] := by
  have hblank : lexLine 0 [] = ([], none) := by
    rw [lexLine]
  simp [lines, splitAt, tokensFrom, hblank, lineTokens]

theorem readAlone_empty : ReadAlone (lines []) := by
  refine List.forall_mem_singleton.mpr ?_
  rw [lexLine]

/-- A line feed at the end of a text is a token of its own. -/
theorem tokensFrom_front (line : Int) (body : List Char) :
    tokensFrom line (lines (body ++ ['\n'])) =
      tokensFrom line (lines body) ++ [⟨.newline, "\n", line + (lines body).length⟩] := by
  rw [tokensFrom_cut, tokensFrom_empty]

theorem ReadAlone.front (h : ReadAlone (lines body)) : ReadAlone (lines (body ++ ['\n'])) :=
  readAlone_cut.mpr ⟨h, readAlone_empty⟩

/-- What the shell sees of the lines in front of a line feed: the brackets that are open there. -/
theorem needsMoreInput_front (h : ReadAlone (lines body)) :
    needsMoreInput (String.ofList (body ++ ['\n'])) =
      .ok (decide (0 < depth (tokensFrom 1 (lines body)))) := by
  have hdepth : depth (tokensFrom 1 (lines (body ++ ['\n']))) =
      depth (tokensFrom 1 (lines body)) := by
    rw [tokensFrom_front, depth_append]
    exact Int.add_zero _
  rw [needsMoreInput_eq (tokenize_readAlone h.front), hdepth]

variable [Host.Limits]

/-- The tokens of a program up to a line feed, and those behind it. -/
theorem derives_cut (halone : ReadAlone (lines (body ++ '\n' :: rest)))
    (hparse : parseAll (String.ofList (body ++ '\n' :: rest)) = .ok nodes) :
    ∃ us nl vs, tokensFrom 1 (lines body) = us ++ [nl] ∧ nl.kind = .newline ∧
      Derives (.stmts false) (us ++ nl :: vs) nodes := by
  obtain ⟨hbody, hrest⟩ := readAlone_cut.mp halone
  obtain ⟨us, nl, hus, hnl⟩ := endsLine_tokensFrom hbody 1
  obtain ⟨vs, last', hvs, -⟩ := endsLine_tokensFrom hrest (1 + (lines body).length)
  obtain ⟨-, ts, last, hts, -, hderives⟩ := parse_sound hparse
  rw [tokenize_readAlone halone, tokensFrom_cut, hus, hvs, ← List.append_assoc] at hts
  obtain ⟨rfl, -⟩ := List.append_inj' hts rfl
  refine ⟨us, nl, vs, hus, hnl, ?_⟩
  rw [List.append_assoc] at hderives
  exact hderives

/-- No more brackets are closed than opened in front of a line feed of a program. -/
theorem depth_front_nonneg (halone : ReadAlone (lines (body ++ '\n' :: rest)))
    (hparse : parseAll (String.ofList (body ++ '\n' :: rest)) = .ok nodes) :
    0 ≤ depth (tokensFrom 1 (lines body)) := by
  obtain ⟨us, nl, vs, hus, -, hderives⟩ := derives_cut halone hparse
  rw [hus]
  refine hderives.nested.depth_nonneg ⟨vs, ?_⟩
  rw [List.append_assoc]
  rfl

/-- Whether a text is read as some statements if its first line has the given number. -/
def ReadsAt (line : Int) (cs : List Char) (ns : List Node) : Prop :=
  ∃ endLine, programStatements (.endOfText endLine) stackLimit (tokensFrom line (lines cs)) =
    ⟨ns, none⟩

/-- An empty text has no statements. -/
theorem programStatements_empty (endLine line : Int) :
    programStatements (.endOfText endLine) stackLimit (tokensFrom line (lines [])) =
      ⟨[], none⟩ := by
  rw [tokensFrom_empty, programStatements_cons (.inl rfl)]
  exact programStatements_endOfText rfl rfl stackLimit

theorem ReadsAt.shift {cs : List Char} {line : Int} {ns : List Node} (h : ReadsAt line cs ns)
    (d : Int) : ReadsAt (line + d) cs (ns.map (Node.shift d)) := by
  obtain ⟨endLine, hread⟩ := h
  refine ⟨endLine, ?_⟩
  rw [← shiftTokens_tokensFrom]
  exact programStatements_shift d endLine endLine stackLimit _ hread

/-- A program is read at its own lines if it is read further down. -/
theorem ReadsAt.parseAll {cs : List Char} {d : Int} {ns : List Node} (h : ReadAlone (lines cs))
    (hread : ReadsAt (1 + d) cs ns) :
    ∃ ms, parseAll (String.ofList cs) = .ok ms ∧ ns = ms.map (Node.shift d) := by
  obtain ⟨endLine, hread⟩ := hread
  rw [← shiftTokens_tokensFrom] at hread
  have hback : shiftTokens (-d) (shiftTokens d (tokensFrom 1 (lines cs))) =
      tokensFrom 1 (lines cs) := by
    rw [shiftTokens_tokensFrom, shiftTokens_tokensFrom, Int.add_neg_cancel_right]
  have hown := fun line => programStatements_shift (-d) endLine line stackLimit _ hread
  rw [hback] at hown
  refine ⟨ns.map (Node.shift (-d)), ?_, ?_⟩
  · rw [parseAll_eq_ok, parse_eq, tokenize_readAlone h]
    exact hown _
  · -- The same tokens, moved up and down again, are read as both.
    have hagain := programStatements_shift d endLine endLine stackLimit _ (hown endLine)
    rw [hread] at hagain
    exact (Program.mk.inj hagain).1

/-- A program can be cut behind a line feed where no bracket is open: both parts are programs. -/
theorem parseAll_cut (halone : ReadAlone (lines (body ++ '\n' :: rest)))
    (hparse : parseAll (String.ofList (body ++ '\n' :: rest)) = .ok nodes)
    (hdepth : depth (tokensFrom 1 (lines body)) = 0) :
    ∃ ns ls, nodes = ns ++ ls ∧ parseAll (String.ofList (body ++ ['\n'])) = .ok ns ∧
      ReadsAt (1 + (lines body).length) rest ls := by
  have hbody := (readAlone_cut.mp halone).1
  obtain ⟨us, nl, vs, hus, hnl, hderives⟩ := derives_cut halone hparse
  have hclosed : depth us = 0 := by
    rw [hus, depth_append, depth_cons, Token.Separates.opens (.inl hnl)] at hdepth
    simpa using hdepth
  obtain ⟨ns, -, -, hns, -⟩ := hderives.stmts_split hnl hclosed
  rw [parseAll_eq_ok, parse_eq, tokenize_readAlone halone, tokensFrom_cut, hus, List.append_assoc]
    at hparse
  obtain ⟨hreads, ls, rfl, hbehind⟩ := programStatements_front hns (.inl hnl) hparse
  refine ⟨ns, ls, rfl, ?_, _, hbehind⟩
  rw [parseAll_eq_ok, parse_eq, tokenize_readAlone hbody.front, tokensFrom_front, hus,
    List.append_assoc]
  refine programStatements_separators hreads (fun t ht => .inl ?_) _
  simp only [List.mem_append, List.mem_singleton] at ht
  rcases ht with rfl | rfl
  · exact hnl
  · rfl

end Cut

end ModuLang.Source
