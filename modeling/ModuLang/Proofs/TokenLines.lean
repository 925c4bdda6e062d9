import ModuLang.Proofs.PhraseBounds

/-!
# Tokens line by line

The tokens of a program are those of its lines, so a text behind another one is read as if it stood
alone, but for its line numbers: if the first text ends outside a comment, nothing is carried over
the end of its last line. Blank lines give one token each, the end of the line.

Two facts are of use to a parser: every text that is read to its end has the end of a line as its
last token, and no token is the end of the text.
-/

namespace ModuLang

/-! ### Lines -/

namespace Text

theorem splitAt_ne_nil {α : Type} [BEq α] (separator : α) (cs : List α) :
    splitAt separator cs ≠ [] := by
  cases cs with
  | nil => simp [splitAt]
  | cons c cs =>
    rw [splitAt]
    split
    · simp
    · split <;> simp

theorem lines_ne_nil (cs : List Char) : lines cs ≠ [] :=
  splitAt_ne_nil '\n' cs

/-- A separator cuts a list in two. -/
theorem splitAt_append {α : Type} [BEq α] [ReflBEq α] (separator : α) (cs ds : List α) :
    splitAt separator (cs ++ separator :: ds) = splitAt separator cs ++ splitAt separator ds := by
  induction cs with
  | nil =>
    obtain ⟨piece, pieces, hds⟩ := List.exists_cons_of_ne_nil (splitAt_ne_nil separator ds)
    simp [splitAt, hds]
  | cons c cs ih =>
    obtain ⟨piece, pieces, hcs⟩ := List.exists_cons_of_ne_nil (splitAt_ne_nil separator cs)
    rw [List.cons_append, splitAt, ih, splitAt, hcs]
    simp only [List.cons_append]
    split
    · rfl
    · rfl

/-- A list without separators is one piece. -/
theorem splitAt_of_not_mem {α : Type} [BEq α] [LawfulBEq α] {separator : α} {cs : List α}
    (h : separator ∉ cs) : splitAt separator cs = [cs] := by
  induction cs with
  | nil => rfl
  | cons c cs ih =>
    obtain ⟨hc, hcs⟩ := List.ne_and_not_mem_of_not_mem_cons h
    rw [splitAt, ih hcs]
    exact if_neg (by simpa using hc.symm)

/-- There is no separator in a piece. -/
theorem not_mem_of_mem_splitAt {α : Type} [BEq α] [LawfulBEq α] {separator : α} {cs piece : List α}
    (h : piece ∈ splitAt separator cs) : separator ∉ piece := by
  by_cases hcut : separator ∈ cs
  · obtain ⟨front, rest, rfl, hfront⟩ := List.eq_append_cons_of_mem hcut
    have hrest : rest.length < (front ++ separator :: rest).length := by
      rw [List.length_append, List.length_cons]
      omega
    rw [splitAt_append, splitAt_of_not_mem hfront] at h
    rcases List.mem_cons.mp h with rfl | h
    · exact hfront
    · exact not_mem_of_mem_splitAt h
  · rw [splitAt_of_not_mem hcut] at h
    rwa [List.mem_singleton.mp h]
termination_by cs.length

/-- A line feed ends a line. -/
theorem lines_append (cs ds : List Char) : lines (cs ++ '\n' :: ds) = lines cs ++ lines ds :=
  splitAt_append '\n' cs ds

/-- A text without line feeds is one line. -/
theorem lines_of_not_mem {cs : List Char} (h : '\n' ∉ cs) : lines cs = [cs] :=
  splitAt_of_not_mem h

/-- There is no line feed in a line. -/
theorem not_mem_of_mem_lines {cs l : List Char} (h : l ∈ lines cs) : '\n' ∉ l :=
  not_mem_of_mem_splitAt h

/-- Line feeds in front of a text are blank lines. -/
theorem lines_replicate_append (k : Nat) (cs : List Char) :
    lines (List.replicate k '\n' ++ cs) = List.replicate k [] ++ lines cs := by
  induction k with
  | zero => rfl
  | succ k ih =>
    have hfirst : lines ('\n' :: (List.replicate k '\n' ++ cs)) =
        [[]] ++ lines (List.replicate k '\n' ++ cs) :=
      lines_append [] _
    rw [List.replicate_succ, List.cons_append, hfirst, ih, List.replicate_succ]
    rfl

end Text

namespace Source

open Text

variable {line : Int} {ts : List Token}

/-! ### Kinds of tokens -/

/-- Whether what stands at the front of a text is not the end of the text. -/
def Scan.NoEnd {cs : List Char} : Scan cs → Prop
  | .token kind _ _ _ _ => kind ≠ .endOfText
  | _ => True

theorem wordKind_ne (word : String) : wordKind word ≠ .endOfText := by
  unfold wordKind
  repeat' split
  all_goals simp

theorem scanNumeral_noEnd (c : Char) (cs : List Char) : (scanNumeral c cs).NoEnd := by
  unfold scanNumeral
  simp only
  split
  · split
    · simp [Scan.NoEnd]
    · simp [Scan.NoEnd]
  · simp [Scan.NoEnd]

theorem scanString_noEnd (cs : List Char) : (scanString cs).NoEnd := by
  unfold scanString
  simp only
  split
  · trivial
  · simp [Scan.NoEnd]

theorem scanBlockComment_noEnd (cs : List Char) : (scanBlockComment cs).NoEnd := by
  unfold scanBlockComment
  split
  · trivial
  · trivial

/-- What stands at the front of a text is not the end of the text. -/
theorem scan_noEnd (cs : List Char) : (scan cs).NoEnd := by
  unfold scan
  split
  · trivial
  · trivial
  · exact scanBlockComment_noEnd _
  · exact scanString_noEnd _
  · simp [Scan.NoEnd]
  · simp [Scan.NoEnd]
  -- A digit, a letter, or one of the signs.
  · split
    · exact scanNumeral_noEnd _ _
    · split
      · exact wordKind_ne _
      · split
        all_goals simp [Scan.NoEnd, scanOne]

/-- A token of a line is what the scan finds at some place, and it is not a numeral that is too large. -/
theorem exists_scan_of_mem_lexLine {cs : List Char} {spelled : TokenKind × String}
    (h : spelled ∈ (lexLine line cs).1) :
    ∃ front kind text rest whole nonempty,
      scan front = .token kind text rest whole nonempty ∧ spelled = (kind, String.ofList text) ∧
        (kind = .number → integerDefect? text line = none) := by
  fun_induction lexLine line cs with
  | case1 => cases h
  | case2 c tail hgap ih => exact ih h
  | case3 c tail hgap text rest whole nonempty hscan _ ih => exact ih h
  | case4 => cases h
  | case5 => cases h
  | case6 => cases h
  | case7 c tail hgap kind text rest whole nonempty hscan hdefect _ tokens failure hrest ih =>
    rcases List.mem_cons.mp h with rfl | h
    · refine ⟨_, kind, text, rest, whole, nonempty, hscan, rfl, fun hnumber => ?_⟩
      rwa [dif_pos hnumber] at hdefect
    · rw [hrest] at ih
      exact ih h

theorem lexLine_noEnd (line : Int) (cs : List Char) :
    ∀ t ∈ (lexLine line cs).1, t.1 ≠ .endOfText := by
  intro t ht
  obtain ⟨front, kind, text, rest, _, _, hscan, rfl, -⟩ := exists_scan_of_mem_lexLine ht
  have hkind := scan_noEnd front
  rw [hscan] at hkind
  exact hkind

/-! ### One line after the other -/

/-- Whether some tokens end with the end of a line. -/
def EndsLine (ts : List Token) : Prop :=
  ∃ us last, ts = us ++ [last] ∧ last.kind = .newline

theorem EndsLine.append {us : List Token} (h : EndsLine us) (ts : List Token) :
    EndsLine (ts ++ us) := by
  obtain ⟨vs, last, rfl, hlast⟩ := h
  exact ⟨ts ++ vs, last, (List.append_assoc _ _ _).symm, hlast⟩

theorem endsLine_lineTokens (line : Int) (tokens : List (TokenKind × String)) :
    EndsLine (lineTokens line tokens) :=
  ⟨_, _, rfl, rfl⟩

theorem lineTokens_noEnd {tokens : List (TokenKind × String)}
    (h : ∀ t ∈ tokens, t.1 ≠ .endOfText) : NoEnd (lineTokens line tokens) := by
  unfold lineTokens
  rw [noEnd_append]
  refine ⟨fun t ht => ?_, ?_⟩
  · obtain ⟨source, hsource, rfl⟩ := List.mem_map.mp ht
    exact h source hsource
  · simp

/-- What a line gives in front of all other lines: its own tokens, which end with the end of the line
unless the line is inside a comment, and the comment that is open at its end. -/
structure LineGives (line : Int) (since : Option Int) (cs : List Char) (own : List Token)
    (since' : Option Int) : Prop where
  step : ∀ ls, tokenizeLines line since (cs :: ls) =
    (own ++ (tokenizeLines (line + 1) since' ls).1, (tokenizeLines (line + 1) since' ls).2)
  noEnd : NoEnd own
  ends : since' ≠ none ∨ EndsLine own

/-- What can be seen of a line: all of it, or what stands behind the comment that is open. -/
def visible? (since : Option Int) (cs : List Char) : Option (List Char) :=
  match since with
  | none => some cs
  | some _ => (splitAtCommentEnd? cs).map Prod.snd

/-- The tokens of a line that cannot be seen. -/
theorem tokenizeLines_hidden {since : Option Int} {cs : List Char} (h : visible? since cs = none)
    (ls : List (List Char)) :
    tokenizeLines line since (cs :: ls) = tokenizeLines (line + 1) since ls := by
  cases since with
  | none => cases h
  | some start =>
    have hend : (splitAtCommentEnd? cs).map (fun ends => ends.2) = none := h
    rw [tokenizeLines.eq_def]
    simp only [hend]

/-- The tokens of a line that can be seen. -/
theorem tokenizeLines_visible {since : Option Int} {cs visible : List Char}
    (h : visible? since cs = some visible) (ls : List (List Char)) :
    tokenizeLines line since (cs :: ls) = tokenizeLines line none (visible :: ls) := by
  cases since with
  | none =>
    cases h
    rfl
  | some start =>
    have hend : (splitAtCommentEnd? cs).map (fun ends => ends.2) = some visible := h
    rw [tokenizeLines.eq_def, tokenizeLines.eq_def line none]
    simp only [hend]

/-- A line gives tokens, or ends the text with a failure. -/
theorem tokenizeLines_cons (line : Int) (since : Option Int) (cs : List Char) :
    (∃ own since', LineGives line since cs own since') ∨
      ∃ failure, ∀ ls, tokenizeLines line since (cs :: ls) = ([], some failure) := by
  cases hvisible : visible? since cs with
  | none =>
    -- The whole line is inside a comment.
    have hopen : since ≠ none := by
      rintro rfl
      cases hvisible
    exact .inl ⟨[], since, tokenizeLines_hidden hvisible, noEnd_nil, .inl hopen⟩
  | some visible =>
    have hkinds := lexLine_noEnd line visible
    have hends := fun tokens => endsLine_lineTokens line tokens
    cases hlex : lexLine line visible with
    | mk tokens failure =>
    rw [hlex] at hkinds
    -- A comment that runs on is no failure of the text: it is carried to the next line.
    cases failure with
    | none =>
      refine .inl ⟨lineTokens line tokens, none, ?_, lineTokens_noEnd hkinds, .inr (hends tokens)⟩
      intro ls
      rw [tokenizeLines_visible hvisible, tokenizeLines]
      simp only [hlex]
    | some failure =>
      by_cases hrunsOn : ∃ l, failure = .fault ⟨.commentRunsOn, l⟩
      · obtain ⟨l, rfl⟩ := hrunsOn
        refine .inl ⟨lineTokens line tokens, some line, ?_, lineTokens_noEnd hkinds,
          .inr (hends tokens)⟩
        intro ls
        rw [tokenizeLines_visible hvisible, tokenizeLines]
        simp only [hlex]
      · refine .inr ⟨failure, fun ls => ?_⟩
        rw [tokenizeLines_visible hvisible, tokenizeLines]
        simp only [hlex]
        split
        · next heq => cases heq
        · next heq =>
          cases heq
          exact absurd ⟨_, rfl⟩ hrunsOn
        · next heq =>
          cases heq
          rfl

/-- A token is one of a line of the text, read with the number that the line has. -/
theorem exists_line_of_mem_tokenizeLines {since : Option Int} {ls : List (List Char)} {t : Token}
    (ht : t ∈ (tokenizeLines line since ls).1) :
    ∃ l visible, line ≤ l ∧ l < line + ls.length ∧ t ∈ lineTokens l (lexLine l visible).1 := by
  -- A line that is read stands in front of the others.
  have happend : ∀ {line : Int} {cs visible tokens result more} {rest : List (List Char)},
      lexLine line visible = (tokens, result) → t ∈ lineTokens line tokens ++ more →
      (t ∈ more → ∃ l visible, line + 1 ≤ l ∧ l < line + 1 + rest.length ∧
        t ∈ lineTokens l (lexLine l visible).1) →
      ∃ l visible, line ≤ l ∧ l < line + ((cs :: rest : List (List Char)).length : Nat) ∧
        t ∈ lineTokens l (lexLine l visible).1 := by
    intro line cs visible tokens result more rest hlex ht hmore
    rw [List.length_cons]
    rcases List.mem_append.mp ht with ht | ht
    · exact ⟨line, visible, Int.le_refl line, by omega, by rwa [hlex]⟩
    · obtain ⟨l, visible, hle, hlt, hmem⟩ := hmore ht
      exact ⟨l, visible, by omega, by omega, hmem⟩
  fun_induction tokenizeLines line since ls with
  | case1 => cases ht
  | case2 line since cs rest visible? hidden ih =>
    obtain ⟨l, visible, hle, hlt, hmem⟩ := ih ht
    rw [List.length_cons]
    exact ⟨l, visible, by omega, by omega, hmem⟩
  | case3 line since cs rest visible? visible hvisible tokens hlex more failure hmore ih =>
    rw [hmore] at ih
    exact happend hlex ht ih
  | case4 line since cs rest visible? visible hvisible tokens l hlex more failure hmore ih =>
    rw [hmore] at ih
    exact happend hlex ht ih
  | case5 => cases ht

/-- Lines behind lines that end outside a comment are read as if they stood alone. -/
theorem tokenizeLines_append {since : Option Int} {ls : List (List Char)}
    (h : (tokenizeLines line since ls).2 = none) (ls' : List (List Char)) :
    tokenizeLines line since (ls ++ ls') =
      ((tokenizeLines line since ls).1 ++ (tokenizeLines (line + ls.length) none ls').1,
        (tokenizeLines (line + ls.length) none ls').2) := by
  induction ls generalizing line since with
  | nil =>
    obtain rfl : since = none := Option.map_eq_none_iff.mp h
    simp [tokenizeLines]
  | cons cs ls ih =>
    rcases tokenizeLines_cons line since cs with ⟨own, since', hline⟩ | ⟨failure, hfails⟩
    · have hlines : line + 1 + (ls.length : Int) = line + ((cs :: ls).length : Nat) := by
        rw [List.length_cons]
        omega
      rw [hline.step] at h
      rw [List.cons_append, hline.step, hline.step, ih h, hlines, List.append_assoc]
    · rw [hfails] at h
      cases h

/-- No token is the end of the text. -/
theorem tokenizeLines_noEnd (line : Int) (since : Option Int) (ls : List (List Char)) :
    NoEnd (tokenizeLines line since ls).1 := by
  induction ls generalizing line since with
  | nil => exact noEnd_nil
  | cons cs ls ih =>
    rcases tokenizeLines_cons line since cs with ⟨own, since', hline⟩ | ⟨failure, hfails⟩
    · rw [hline.step]
      exact noEnd_append.mpr ⟨hline.noEnd, ih (line + 1) since'⟩
    · rw [hfails]
      exact noEnd_nil

/-- Lines that are read to their end have the end of a line as their last token. -/
theorem tokenizeLines_endsLine {since : Option Int} {ls : List (List Char)}
    (h : (tokenizeLines line since ls).2 = none) (hls : since ≠ none ∨ ls ≠ []) :
    EndsLine (tokenizeLines line since ls).1 := by
  induction ls generalizing line since with
  | nil =>
    -- A comment that is open behind the last line would be a failure.
    have hclosed : since = none := Option.map_eq_none_iff.mp h
    simp [hclosed] at hls
  | cons cs ls ih =>
    rcases tokenizeLines_cons line since cs with ⟨own, since', hline⟩ | ⟨failure, hfails⟩
    · rw [hline.step] at h ⊢
      by_cases hmore : since' ≠ none ∨ ls ≠ []
      · exact (ih h hmore).append own
      · -- This is the last line, and no comment is open at its end.
        obtain ⟨hclosed, hlast⟩ := not_or.mp hmore
        obtain rfl : since' = none := Decidable.of_not_not hclosed
        obtain rfl : ls = [] := Decidable.of_not_not hlast
        have hown : EndsLine own := hline.ends.resolve_left hclosed
        simpa [tokenizeLines] using hown
    · rw [hfails] at h
      cases h

/-- The ends of blank lines. -/
def blankEnds (line : Int) : Nat → List Token
  | 0 => []
  | k + 1 => ⟨.newline, "\n", line⟩ :: blankEnds (line + 1) k

/-- Blank lines in front of others give the ends of these lines. -/
theorem tokenizeLines_blank (line : Int) (k : Nat) (ls : List (List Char)) :
    tokenizeLines line none (List.replicate k [] ++ ls) =
      (blankEnds line k ++ (tokenizeLines (line + k) none ls).1,
        (tokenizeLines (line + k) none ls).2) := by
  induction k generalizing line with
  | zero => simp [blankEnds]
  | succ k ih =>
    have hblank : lexLine line [] = ([], none) := by
      rw [lexLine]
    have hlines : line + 1 + (k : Int) = line + ((k + 1 : Nat) : Int) := by
      omega
    rw [List.replicate_succ, List.cons_append, tokenizeLines]
    simp only [hblank]
    rw [ih, hlines]
    rfl

theorem blankEnds_separators (line : Int) (k : Nat) : Separators (blankEnds line k) := by
  induction k generalizing line with
  | zero => exact fun t ht => absurd ht List.not_mem_nil
  | succ k ih =>
    intro t ht
    rcases List.mem_cons.mp ht with rfl | ht
    · exact .inl rfl
    · exact ih (line + 1) t ht

end Source

end ModuLang
