import ModuLang.Proofs.Lexemes
import ModuLang.Proofs.LineShift
import ModuLang.Proofs.SequentialComposition

/-!
# Comments say nothing

A comment can be put aside before a program is cut into lines: `blankComments` scans the whole text
once, knows strings and the two kinds of comments and nothing else, and puts a blank for every
character of a comment. The program that is left is read as the one that was there, with the same
statements at the same lines and the same failure behind them, unless the lexer refuses the text.

The lexer goes another way. It reads one line after the other, and a comment that runs on is carried
to the next line. So the scan is followed line by line: its mode at the start of a line says what the
lexer carries there, and on the line both find the same tokens. What differs are the ends of lines
inside comments. They are tokens for the blanked text alone, but each of them stands behind the end of
a line, where the parser skips it.
-/

namespace ModuLang.Source

open Text

/-! ### The scan -/

/-- What the scan of a text is inside of. -/
inductive ScanMode where
  | code
  | string
  | lineComment
  | blockComment

/-- A text from where the scan is in some mode, with blanks for its comments. -/
def blankFrom : ScanMode → List Char → List Char
  | _, [] => []
  | .code, '/' :: '/' :: cs => ' ' :: ' ' :: blankFrom .lineComment cs
  | .code, '/' :: '*' :: cs => ' ' :: ' ' :: blankFrom .blockComment cs
  | .code, '"' :: cs => '"' :: blankFrom .string cs
  | .code, c :: cs => c :: blankFrom .code cs
  | .string, '"' :: cs => '"' :: blankFrom .code cs
  | .string, c :: cs => c :: blankFrom .string cs
  | .lineComment, '\n' :: cs => '\n' :: blankFrom .code cs
  | .lineComment, _ :: cs => ' ' :: blankFrom .lineComment cs
  | .blockComment, '*' :: '/' :: cs => ' ' :: ' ' :: blankFrom .code cs
  | .blockComment, '\n' :: cs => '\n' :: blankFrom .blockComment cs
  | .blockComment, _ :: cs => ' ' :: blankFrom .blockComment cs

/-- A text with a blank for every character of its comments but the ends of lines. -/
def blankComments (source : String) : String :=
  String.ofList (blankFrom .code source.toList)

/-- The mode of the scan behind a line that it begins in some mode. -/
def modeBehind : ScanMode → List Char → ScanMode
  | .lineComment, [] => .code
  | mode, [] => mode
  | .code, '/' :: '/' :: cs => modeBehind .lineComment cs
  | .code, '/' :: '*' :: cs => modeBehind .blockComment cs
  | .code, '"' :: cs => modeBehind .string cs
  | .code, _ :: cs => modeBehind .code cs
  | .string, '"' :: cs => modeBehind .code cs
  | .string, _ :: cs => modeBehind .string cs
  | .lineComment, '\n' :: cs => modeBehind .code cs
  | .lineComment, _ :: cs => modeBehind .lineComment cs
  | .blockComment, '*' :: '/' :: cs => modeBehind .code cs
  | .blockComment, _ :: cs => modeBehind .blockComment cs

/-- What does not begin with a character does not begin with it in front of a line feed either. -/
theorem append_newline_ne {x : Char} (hx : x ≠ '\n') {cs : List Char} (h : ∀ r, cs = x :: r → False)
    (ds r : List Char) (happend : cs ++ '\n' :: ds = x :: r) : False := by
  cases cs with
  | nil => exact hx (List.cons.inj happend).1.symm
  | cons c cs => exact h cs (by rw [(List.cons.inj happend).1])

/-- The scan of a text with a line feed in it goes on behind the line feed. -/
theorem blankFrom_append (mode : ScanMode) (cs ds : List Char) :
    blankFrom mode (cs ++ '\n' :: ds) =
      blankFrom mode cs ++ '\n' :: blankFrom (modeBehind mode cs) ds := by
  fun_induction blankFrom mode cs with
  | case1 mode => cases mode <;> simp [blankFrom, modeBehind]
  | case2 cs ih => simp [blankFrom, modeBehind, ih]
  | case3 cs ih => simp [blankFrom, modeBehind, ih]
  | case4 cs ih => simp [blankFrom, modeBehind, ih]
  | case5 c cs hline hblock hquote ih =>
    -- A line feed behind the line opens no comment with its last character.
    have hline' : ∀ r, c = '/' → cs ++ '\n' :: ds = '/' :: r → False := fun r hc =>
      append_newline_ne (by decide) (fun r => hline r hc) ds r
    have hblock' : ∀ r, c = '/' → cs ++ '\n' :: ds = '*' :: r → False := fun r hc =>
      append_newline_ne (by decide) (fun r => hblock r hc) ds r
    rw [List.cons_append, blankFrom, modeBehind, ih, List.cons_append]
    all_goals assumption
  | case6 cs ih => simp [blankFrom, modeBehind, ih]
  | case7 c cs hquote ih => simp [blankFrom, modeBehind, ih]
  | case8 cs ih => simp [blankFrom, modeBehind, ih]
  | case9 c cs hline ih => simp [blankFrom, modeBehind, ih]
  | case10 cs ih => simp [blankFrom, modeBehind, ih]
  | case11 cs ih => simp [blankFrom, modeBehind, ih]
  | case12 c cs hend hline ih =>
    have hend' : ∀ r, c = '*' → cs ++ '\n' :: ds = '/' :: r → False := fun r hc =>
      append_newline_ne (by decide) (fun r => hend r hc) ds r
    rw [List.cons_append, blankFrom, modeBehind, ih, List.cons_append]
    all_goals assumption

/-- A line stays one line. -/
theorem not_mem_blankFrom {mode : ScanMode} {cs : List Char} (h : '\n' ∉ cs) :
    '\n' ∉ blankFrom mode cs := by
  fun_induction blankFrom mode cs with
  | case1 => exact List.not_mem_nil
  | _ => simp_all

/-- Lines with blanks for their comments, where the first one is begun in some mode. -/
def blankLines (mode : ScanMode) : List (List Char) → List (List Char)
  | [] => []
  | cs :: ls => blankFrom mode cs :: blankLines (modeBehind mode cs) ls

/-- The text is cut into lines as it was. -/
theorem lines_blankFrom (mode : ScanMode) (cs : List Char) :
    lines (blankFrom mode cs) = blankLines mode (lines cs) := by
  by_cases h : '\n' ∈ cs
  · obtain ⟨front, rest, rfl, hfront⟩ := List.eq_append_cons_of_mem h
    have hrest : rest.length < (front ++ '\n' :: rest).length := by
      rw [List.length_append, List.length_cons]
      omega
    rw [blankFrom_append, lines_append, lines_append, lines_of_not_mem hfront,
      lines_of_not_mem (not_mem_blankFrom hfront), lines_blankFrom _ rest]
    rfl
  · rw [lines_of_not_mem h, lines_of_not_mem (not_mem_blankFrom h)]
    rfl
termination_by cs.length

/-! ### What the scan does to a line -/

section Line

variable {cs : List Char}

/-- Within a line a comment is blanked up to its end, or to the end of the line. -/
theorem blankFrom_blockComment (hline : '\n' ∉ cs) :
    match splitAtCommentEnd? cs with
    | some (text, rest) =>
      blankFrom .blockComment cs = List.replicate text.length ' ' ++ blankFrom .code rest ∧
        modeBehind .blockComment cs = modeBehind .code rest
    | none =>
      blankFrom .blockComment cs = List.replicate cs.length ' ' ∧
        modeBehind .blockComment cs = .blockComment := by
  fun_induction splitAtCommentEnd? cs with
  | case1 => exact ⟨rfl, rfl⟩
  | case2 c =>
    have hc : c ≠ '\n' := fun heq => hline (heq ▸ List.mem_cons_self)
    simp [blankFrom, modeBehind]
  | case3 c d cs hend =>
    obtain ⟨rfl, rfl⟩ := hend
    simp [blankFrom, modeBehind]
  | case4 c d cs hend ih =>
    obtain ⟨hc, hcs⟩ := List.ne_and_not_mem_of_not_mem_cons hline
    -- The character neither ends the comment nor the line, so it is blanked.
    have hopen : ∀ r, c = '*' → d :: cs = '/' :: r → False := fun r hc hd =>
      hend ⟨hc, (List.cons.inj hd).1⟩
    have hfeed : c = '\n' → False := fun heq => hc heq.symm
    have hblank : blankFrom .blockComment (c :: d :: cs) =
        ' ' :: blankFrom .blockComment (d :: cs) := by
      rw [blankFrom] <;> assumption
    have hmode : modeBehind .blockComment (c :: d :: cs) = modeBehind .blockComment (d :: cs) := by
      rw [modeBehind]
      assumption
    rw [hblank, hmode]
    have hrest := ih hcs
    cases hsplit : splitAtCommentEnd? (d :: cs) with
    | none =>
      rw [hsplit] at hrest
      simpa [List.replicate_succ] using hrest
    | some ends =>
      rw [hsplit] at hrest
      simpa [List.replicate_succ] using hrest

theorem blankFrom_lineComment (hline : '\n' ∉ cs) :
    blankFrom .lineComment cs = List.replicate cs.length ' ' ∧
      modeBehind .lineComment cs = .code := by
  induction cs with
  | nil => exact ⟨rfl, rfl⟩
  | cons c cs ih =>
    obtain ⟨hc, hcs⟩ := List.ne_and_not_mem_of_not_mem_cons hline
    obtain ⟨hblank, hmode⟩ := ih hcs
    simp [blankFrom, modeBehind, hc.symm, hblank, hmode, List.replicate_succ]

/-- Blanks in front of a line give no tokens. -/
theorem lexLine_blanks (line : Int) (k : Nat) (cs : List Char) :
    lexLine line (List.replicate k ' ' ++ cs) = lexLine line cs :=
  lexLine_gaps line (fun _ hc => List.eq_of_mem_replicate hc ▸ rfl) cs

theorem lexLine_replicate (line : Int) (k : Nat) :
    lexLine line (List.replicate k ' ') = ([], none) := by
  have hread := lexLine_blanks line k []
  rw [List.append_nil] at hread
  rw [hread, lexLine]

/-- A character that begins neither a string nor a comment stays. -/
theorem blankFrom_code {c : Char} (hslash : c ≠ '/') (hquote : c ≠ '"') (cs : List Char) :
    blankFrom .code (c :: cs) = c :: blankFrom .code cs ∧
      modeBehind .code (c :: cs) = modeBehind .code cs := by
  constructor
  · rw [blankFrom]
    · exact fun _ h => absurd h hslash
    · exact fun _ h => absurd h hslash
    · exact hquote
  · rw [modeBehind]
    · exact fun _ h => absurd h hslash
    · exact fun _ h => absurd h hslash
    · exact hquote

/-- Where a text goes on, it goes on with the same character or with a blank. -/
theorem exists_blankFrom_cons (c : Char) (cs : List Char) :
    ∃ d ds, blankFrom .code (c :: cs) = d :: ds ∧ (d = c ∨ d = ' ') := by
  by_cases hslash : c = '/'
  · subst hslash
    by_cases hline : ∃ rest, cs = '/' :: rest
    · obtain ⟨rest, rfl⟩ := hline
      exact ⟨_, _, rfl, .inr rfl⟩
    · by_cases hblock : ∃ rest, cs = '*' :: rest
      · obtain ⟨rest, rfl⟩ := hblock
        exact ⟨_, _, rfl, .inr rfl⟩
      · refine ⟨_, blankFrom .code cs, ?_, .inl rfl⟩
        rw [blankFrom]
        · exact fun rest _ h => hline ⟨rest, h⟩
        · exact fun rest _ h => hblock ⟨rest, h⟩
        · decide
  · by_cases hquote : c = '"'
    · subst hquote
      exact ⟨_, _, rfl, .inl rfl⟩
    · exact ⟨_, _, (blankFrom_code hslash hquote cs).1, .inl rfl⟩

/-- What is in front and is no blank was in front. -/
theorem exists_cons_of_blankFrom {x : Char} {ds : List Char} (hx : x ≠ ' ')
    (h : blankFrom .code cs = x :: ds) : ∃ rest, cs = x :: rest := by
  cases cs with
  | nil => cases h
  | cons c cs =>
    obtain ⟨d, _, hcons, hd⟩ := exists_blankFrom_cons c cs
    obtain rfl : d = x := (List.cons.inj (hcons.symm.trans h)).1
    exact ⟨cs, by rw [hd.resolve_right hx]⟩

/-- Characters that begin neither a string nor a comment stay, up to the first other one. -/
theorem blankFrom_dropWhile {p : Char → Bool} (hslash : p '/' = false) (hquote : p '"' = false)
    (hblank : p ' ' = false) (cs : List Char) :
    (blankFrom .code cs).takeWhile p = cs.takeWhile p ∧
      (blankFrom .code cs).dropWhile p = blankFrom .code (cs.dropWhile p) ∧
      modeBehind .code cs = modeBehind .code (cs.dropWhile p) := by
  induction cs with
  | nil => exact ⟨rfl, rfl, rfl⟩
  | cons c cs ih =>
    by_cases hc : p c = true
    · obtain ⟨hstep, hmode⟩ := blankFrom_code (c := c) (fun heq => by simp [heq, hslash] at hc)
        (fun heq => by simp [heq, hquote] at hc) cs
      obtain ⟨htake, hdrop, hbehind⟩ := ih
      simp [hstep, hmode, hc, htake, hdrop, hbehind]
    · obtain ⟨d, ds, hcons, hd⟩ := exists_blankFrom_cons c cs
      have hpd : p d = false := by
        rcases hd with rfl | rfl
        · exact Bool.eq_false_iff.mpr hc
        · exact hblank
      simp [hcons, hc, hpd]

/-- The scan of a string stops behind the next quote. -/
theorem blankFrom_string {body : List Char} (hbody : '"' ∉ body) (rest : List Char) :
    blankFrom .string (body ++ '"' :: rest) = body ++ '"' :: blankFrom .code rest ∧
      modeBehind .string (body ++ '"' :: rest) = modeBehind .code rest := by
  induction body with
  | nil => exact ⟨rfl, rfl⟩
  | cons c body ih =>
    obtain ⟨hc, hrest⟩ := List.ne_and_not_mem_of_not_mem_cons hbody
    obtain ⟨hblank, hmode⟩ := ih hrest
    simp [blankFrom, modeBehind, hc.symm, hblank, hmode]

/-! ### What becomes of the front of a line -/

/-- Blanks for comments do not make a fraction. -/
theorem not_hasFraction_blankFrom (h : ¬ HasFraction cs) : ¬ HasFraction (blankFrom .code cs) := by
  rintro ⟨d, more, hpoint, hd⟩
  obtain ⟨tail, rfl⟩ := exists_cons_of_blankFrom (by decide) hpoint
  rw [(blankFrom_code (by decide) (by decide) tail).1] at hpoint
  have hblank : d ≠ ' ' := fun heq => absurd (heq ▸ hd) (by decide)
  obtain ⟨rest, rfl⟩ := exists_cons_of_blankFrom hblank (List.cons.inj hpoint).2
  exact h ⟨d, rest, rfl, hd⟩

/-- What becomes of the front of a line: a token is still there, a comment is blank. -/
def Scan.Blanks {cs : List Char} : Scan cs → Prop
  | .token kind text rest _ _ =>
    blankFrom .code cs = text ++ blankFrom .code rest ∧
      modeBehind .code cs = modeBehind .code rest ∧
      (scan (blankFrom .code cs)).token? = some (kind, text, blankFrom .code rest)
  | .comment text rest _ _ =>
    blankFrom .code cs = List.replicate text.length ' ' ++ blankFrom .code rest ∧
      modeBehind .code cs = modeBehind .code rest
  | .openComment =>
    blankFrom .code cs = List.replicate cs.length ' ' ∧ modeBehind .code cs = .blockComment
  | .unrecognised => True

/-- A digit or a letter stays. -/
theorem blankFrom_wordPart {c : Char} (hc : isBasicDigit c = true ∨ isWordStart c = true)
    (cs : List Char) :
    blankFrom .code (c :: cs) = c :: blankFrom .code cs ∧
      modeBehind .code (c :: cs) = modeBehind .code cs :=
  blankFrom_code (fun heq => absurd (heq ▸ hc) (by decide))
    (fun heq => absurd (heq ▸ hc) (by decide)) cs

theorem scanNumeral_blanks {c : Char} (hc : isBasicDigit c = true) :
    (scanNumeral c cs).Blanks := by
  obtain ⟨hfirst, hmode⟩ := blankFrom_wordPart (.inl hc) cs
  obtain ⟨htake, hdrop, hbehind⟩ := blankFrom_dropWhile (p := isBasicDigit) rfl rfl rfl cs
  have hwhole : blankFrom .code (c :: cs) =
      c :: cs.takeWhile isBasicDigit ++ blankFrom .code (cs.dropWhile isBasicDigit) := by
    rw [hfirst, List.cons_append, ← htake, ← hdrop, List.takeWhile_append_dropWhile]
  -- Blanks make no fraction where there was none, so the digits end where they did.
  have hnumber (h : ¬ HasFraction (cs.dropWhile isBasicDigit)) :
      (scan (blankFrom .code (c :: cs))).token? =
        some (.number, c :: cs.takeWhile isBasicDigit,
          blankFrom .code (cs.dropWhile isBasicDigit)) := by
    have hpoint : ¬ HasFraction ((blankFrom .code cs).dropWhile isBasicDigit) := by
      rw [hdrop]
      exact not_hasFraction_blankFrom h
    rw [hfirst, token?_scan_number hc hpoint, htake, hdrop]
  unfold scanNumeral
  simp only
  split
  · next d rest heq =>
    split
    · next hd =>
      obtain ⟨hpoint, hpointMode⟩ := blankFrom_code (c := '.') (by decide) (by decide) (d :: rest)
      obtain ⟨hdigit, hdigitMode⟩ := blankFrom_wordPart (.inl hd) rest
      obtain ⟨htake', hdrop', hbehind'⟩ := blankFrom_dropWhile (p := isBasicDigit) rfl rfl rfl rest
      have hfraction : blankFrom .code (cs.dropWhile isBasicDigit) =
          '.' :: d :: blankFrom .code rest := by
        rw [heq, hpoint, hdigit]
      refine ⟨?_, ?_, ?_⟩
      · rw [hwhole, hfraction, ← htake', ← hdrop']
        simp only [List.append_assoc, List.cons_append, List.takeWhile_append_dropWhile]
      · rw [hmode, hbehind, heq, hpointMode, hdigitMode, hbehind']
      · rw [hfirst, token?_scan_float hc (hdrop.trans hfraction) hd, htake, htake', hdrop']
    · next hd =>
      have hno : ¬ HasFraction (cs.dropWhile isBasicDigit) := by
        rintro ⟨e, more, hcut, he⟩
        obtain ⟨rfl, -⟩ : d = e ∧ rest = more := by simpa using heq.symm.trans hcut
        exact hd he
      exact ⟨heq ▸ hwhole, heq ▸ hmode.trans hbehind, heq ▸ hnumber hno⟩
  · next hother =>
    have hno : ¬ HasFraction (cs.dropWhile isBasicDigit) := by
      rintro ⟨e, more, hcut, he⟩
      exact hother e more hcut
    exact ⟨hwhole, hmode.trans hbehind, hnumber hno⟩

theorem scanWord_blanks {c : Char} (hdigit : ¬ isBasicDigit c = true) (hc : isWordStart c = true) :
    (scanWord c cs).Blanks := by
  obtain ⟨hfirst, hmode⟩ := blankFrom_wordPart (.inr hc) cs
  obtain ⟨htake, hdrop, hbehind⟩ := blankFrom_dropWhile (p := isWordPart) rfl rfl rfl cs
  refine ⟨?_, hmode.trans hbehind, ?_⟩
  · rw [hfirst, List.cons_append, ← htake, ← hdrop, List.takeWhile_append_dropWhile]
  · rw [hfirst, token?_scan_word hdigit hc, htake, hdrop]

theorem scanString_blanks : (scanString cs).Blanks := by
  unfold scanString
  simp only
  split
  · trivial
  · next q rest heq =>
    have hbody : '"' ∉ cs.takeWhile (· != '"') := by
      intro hmem
      simpa using List.mem_takeWhile_imp hmem
    have hq : q = '"' := by
      have hhead := List.head?_dropWhile_not (· != '"') cs
      rw [heq] at hhead
      simpa using hhead
    subst hq
    have hcs : cs.takeWhile (· != '"') ++ '"' :: rest = cs := by
      rw [← heq, List.takeWhile_append_dropWhile]
    obtain ⟨hblank, hmode⟩ := blankFrom_string hbody rest
    rw [hcs] at hblank hmode
    have hfirst : blankFrom .code ('"' :: cs) = '"' :: blankFrom .string cs := rfl
    refine ⟨?_, hmode, ?_⟩
    · rw [hfirst, hblank]
      simp
    · rw [hfirst, hblank]
      exact token?_scan_string hbody

theorem scanLineComment_blanks (hline : '\n' ∉ cs) : (scanLineComment cs).Blanks := by
  obtain ⟨hblank, hmode⟩ := blankFrom_lineComment hline
  have hall : ∀ c ∈ cs, (c != '\n') = true := fun c hc =>
    bne_iff_ne.mpr fun heq => hline (heq ▸ hc)
  have htake : cs.takeWhile (· != '\n') = cs := List.takeWhile_eq_self_iff.mpr hall
  have hdrop : cs.dropWhile (· != '\n') = [] := List.dropWhile_eq_nil_iff.mpr hall
  unfold scanLineComment Scan.Blanks
  simp only [htake, hdrop]
  refine ⟨?_, hmode⟩
  have hopen : blankFrom .code ('/' :: '/' :: cs) = ' ' :: ' ' :: blankFrom .lineComment cs := rfl
  rw [hopen, hblank]
  exact (List.append_nil _).symm

theorem scanBlockComment_blanks (hline : '\n' ∉ cs) : (scanBlockComment cs).Blanks := by
  have hcomment := blankFrom_blockComment hline
  have hopen : blankFrom .code ('/' :: '*' :: cs) = ' ' :: ' ' :: blankFrom .blockComment cs := rfl
  unfold scanBlockComment
  split
  · next text rest hsplit =>
    rw [hsplit] at hcomment
    obtain ⟨hblank, hmode⟩ := hcomment
    refine ⟨?_, hmode⟩
    rw [hopen, hblank]
    rfl
  · next hsplit =>
    rw [hsplit] at hcomment
    obtain ⟨hblank, hmode⟩ := hcomment
    refine ⟨?_, hmode⟩
    rw [hopen, hblank]
    rfl

theorem scanOne_blanks {kind : TokenKind} {c : Char} (hslash : c ≠ '/') (hquote : c ≠ '"')
    (hscan : (scan (c :: blankFrom .code cs)).token? = some (kind, [c], blankFrom .code cs)) :
    (scanOne kind c cs).Blanks := by
  obtain ⟨hfirst, hmode⟩ := blankFrom_code hslash hquote cs
  refine ⟨hfirst, hmode, ?_⟩
  rw [hfirst]
  exact hscan

/-- At the front of a line without comments stands what stood there, or a blank for it. -/
theorem scan_blanks (hline : '\n' ∉ cs) : (scan cs).Blanks := by
  unfold scan
  split
  · trivial
  · next cs => exact scanLineComment_blanks (fun h => hline (by simp [h]))
  · next cs => exact scanBlockComment_blanks (fun h => hline (by simp [h]))
  · exact scanString_blanks
  · exact ⟨rfl, rfl, rfl⟩
  · exact ⟨rfl, rfl, rfl⟩
  · next hslash hstar hquote hequal hunequal =>
    split
    · next hdigit => exact scanNumeral_blanks hdigit
    · next hdigit =>
      split
      · next hword => exact scanWord_blanks hdigit hword
      · split
        · -- A blank for a comment does not make an equal sign of two.
          refine scanOne_blanks (by decide) (by decide) (token?_scan_assign rfl fun rest hcs => ?_)
          obtain ⟨tail, htail⟩ := exists_cons_of_blankFrom (by decide) hcs
          exact hequal tail rfl htail
        case h_13 => trivial
        all_goals exact scanOne_blanks (by decide) (by decide) rfl

end Line

/-! ### The tokens of a line -/

/-- How a line is read, how it is read with blanks for its comments, and what the scan is inside of
behind the line. A comment that runs on is no failure for what is read without it. -/
inductive LineReads : List (TokenKind × String) × Option Failure →
    List (TokenKind × String) × Option Failure → ScanMode → Prop where
  | read (tokens : List (TokenKind × String)) : LineReads (tokens, none) (tokens, none) .code
  | opened (tokens : List (TokenKind × String)) (line : Int) :
    LineReads (tokens, some (.fault ⟨.commentRunsOn, line⟩)) (tokens, none) .blockComment
  | crashed (tokens : List (TokenKind × String)) (c : Crash) (mode : ScanMode) :
    LineReads (tokens, some (.crash c)) (tokens, some (.crash c)) mode
  | refused (tokens : List (TokenKind × String)) (f : Fault) (hf : f.cause ≠ .commentRunsOn)
      (blanked : List (TokenKind × String) × Option Failure) (mode : ScanMode) :
    LineReads (tokens, some (.fault f)) blanked mode

/-- With one more token in front of both. -/
theorem LineReads.cons {read blanked : List (TokenKind × String) × Option Failure}
    {mode : ScanMode} (h : LineReads read blanked mode) (t : TokenKind × String) :
    LineReads (t :: read.1, read.2) (t :: blanked.1, blanked.2) mode := by
  cases h with
  | read tokens => exact .read (t :: tokens)
  | opened tokens line => exact .opened (t :: tokens) line
  | crashed tokens c mode => exact .crashed (t :: tokens) c mode
  | refused tokens f hf blanked mode => exact .refused (t :: tokens) f hf _ mode

/-- An integer token that is refused is not refused for a comment. -/
theorem integerDefect?_cause {digits : List Char} {line : Int} {f : Fault}
    (h : integerDefect? digits line = some (.fault f)) : f.cause ≠ .commentRunsOn := by
  unfold integerDefect? at h
  split at h
  · cases h
  · split at h
    · cases h
      intro hcause
      cases hcause
    · cases h

/-- A line that begins with a token begins with it where there are blanks for its comments. -/
theorem lexLine_blankFrom_token (line : Int) {c : Char} {tail text rest : List Char}
    {kind : TokenKind} {whole : text ++ rest = c :: tail} {nonempty : text ≠ []}
    (hline : '\n' ∉ c :: tail) (hgap : ¬ isGap c = true)
    (hscan : scan (c :: tail) = .token kind text rest whole nonempty) :
    lexLine line (blankFrom .code (c :: tail)) =
        (match if kind = .number then integerDefect? text line else none with
        | some failure => ([], some failure)
        | none =>
          ((kind, String.ofList text) :: (lexLine line (blankFrom .code rest)).1,
            (lexLine line (blankFrom .code rest)).2)) ∧
      modeBehind .code (c :: tail) = modeBehind .code rest := by
  have hfront := scan_blanks hline
  rw [hscan] at hfront
  obtain ⟨hblank, hmode, htoken⟩ := hfront
  obtain ⟨first, more, rfl⟩ := List.exists_cons_of_ne_nil nonempty
  obtain rfl : first = c := (List.cons.inj whole).1
  rw [hblank, List.cons_append] at htoken ⊢
  exact ⟨lexLine_token hgap htoken, hmode⟩

/-- With blanks for its comments a line has the tokens that it had. -/
theorem lexLine_blankFrom (line : Int) (cs : List Char) (hline : '\n' ∉ cs) :
    LineReads (lexLine line cs) (lexLine line (blankFrom .code cs)) (modeBehind .code cs) := by
  -- The cases are those of the lexer: the end, a gap, a comment, one that stays open, what begins
  -- no token, a token that is refused, and a token with the rest of the line behind it.
  fun_induction lexLine line cs with
  | case1 =>
    rw [blankFrom, lexLine]
    exact .read []
  | case2 c tail hgap ih =>
    have hslash : c ≠ '/' := fun heq => absurd (heq ▸ hgap) (by decide)
    have hquote : c ≠ '"' := fun heq => absurd (heq ▸ hgap) (by decide)
    obtain ⟨hblank, hmode⟩ := blankFrom_code hslash hquote tail
    rw [hblank, hmode, lexLine, if_pos hgap]
    exact ih (List.not_mem_of_not_mem_cons hline)
  | case3 c tail hgap text rest whole nonempty hscan _ ih =>
    have hfront := scan_blanks hline
    rw [hscan] at hfront
    obtain ⟨hblank, hmode⟩ := hfront
    rw [hblank, hmode, lexLine_blanks]
    exact ih fun hmem => hline (whole ▸ List.mem_append_right text hmem)
  | case4 c tail hgap hscan =>
    have hfront := scan_blanks hline
    rw [hscan] at hfront
    obtain ⟨hblank, hmode⟩ := hfront
    rw [hblank, hmode, lexLine_replicate]
    exact .opened [] line
  | case5 c tail hgap hscan =>
    refine .refused [] _ (fun hcause => ?_) _ _
    cases hcause
  | case6 c tail hgap kind text rest whole nonempty hscan failure hdefect =>
    obtain ⟨hblank, -⟩ := lexLine_blankFrom_token line hline hgap hscan
    rw [dite_eq_ite] at hdefect
    rw [hblank, hdefect]
    cases failure with
    | crash c => exact .crashed [] c _
    | fault f =>
      refine .refused [] f ?_ _ _
      split at hdefect
      · exact integerDefect?_cause hdefect
      · cases hdefect
  | case7 c tail hgap kind text rest whole nonempty hscan hdefect _ tokens failure hrest ih =>
    obtain ⟨hblank, hmode⟩ := lexLine_blankFrom_token line hline hgap hscan
    have hread := ih fun hmem => hline (whole ▸ List.mem_append_right text hmem)
    rw [hrest] at hread
    rw [dite_eq_ite] at hdefect
    rw [hblank, hmode, hdefect]
    exact hread.cons (kind, String.ofList text)

/-! ### The tokens of a text -/

/-- Behind the end of a line further ends of lines are left out. -/
theorem dropBlankLines_lineTokens (behindEnd : Bool) (line : Int)
    (tokens : List (TokenKind × String)) (more : List Token) :
    dropBlankLines behindEnd (lineTokens line tokens ++ more) =
      dropBlankLines behindEnd (lineTokens line tokens) ++ dropBlankLines true more := by
  unfold lineTokens
  induction tokens generalizing behindEnd with
  | nil => cases behindEnd <;> rfl
  | cons t tokens ih =>
    simp only [List.map_cons, List.cons_append, dropBlankLines]
    split
    · split
      · exact ih true
      · rw [ih true, List.cons_append]
    · rw [ih false, List.cons_append]

/-- The end of the last one of so many lines, if there are any. -/
def lastLineEnd? (line : Int) : Nat → Option Token
  | 0 => none
  | k + 1 => some ⟨.newline, "\n", line + k⟩

theorem lastLineEnd?_succ (line : Int) (k : Nat) :
    lastLineEnd? line (k + 1) = (lastLineEnd? (line + 1) k).or (some ⟨.newline, "\n", line⟩) := by
  cases k with
  | zero => simp [lastLineEnd?]
  | succ k =>
    have hline : line + ((k + 1 : Nat) : Int) = line + 1 + k := by omega
    rw [lastLineEnd?, lastLineEnd?, hline, Option.some_or]

/-- The last token of lines that are read to their end is the end of the last line. -/
theorem getLast?_tokenizeLines {line : Int} {since : Option Int} {ls : List (List Char)}
    (h : (tokenizeLines line since ls).2 = none) :
    (tokenizeLines line since ls).1.getLast? = lastLineEnd? line ls.length := by
  induction ls generalizing line since with
  | nil => rfl
  | cons cs ls ih =>
    have hvisibleLine : ∀ {tokens : List (TokenKind × String)} {more : List Token},
        more.getLast? = lastLineEnd? (line + 1) ls.length →
        (lineTokens line tokens ++ more).getLast? = lastLineEnd? line (cs :: ls).length := by
      intro tokens more hmore
      rw [List.getLast?_append, hmore, lineTokens, List.getLast?_concat, List.length_cons,
        lastLineEnd?_succ]
    cases hvisible : visible? since cs with
    | none =>
      rw [tokenizeLines_hidden hvisible] at h ⊢
      -- The comment that the line is in goes on behind it, so this is not the last line.
      obtain ⟨next, rest, rfl⟩ : ∃ next rest, ls = next :: rest := by
        cases ls with
        | nil =>
          obtain rfl : since = none := Option.map_eq_none_iff.mp h
          cases hvisible
        | cons next rest => exact ⟨next, rest, rfl⟩
      rw [ih h, List.length_cons, List.length_cons, lastLineEnd?_succ line]
      rfl
    | some visible =>
      rw [tokenizeLines_visible hvisible, tokenizeLines] at h ⊢
      simp only at h ⊢
      split at h
      · exact hvisibleLine (ih h)
      · exact hvisibleLine (ih h)
      · cases h

/-- What the scan is inside of at the start of a line, from the comment that is open there. -/
def modeSince : Option Int → ScanMode
  | none => .code
  | some _ => .blockComment

/-- What can be seen of a line is what is left of it behind blanks. -/
theorem lexLine_visible (line : Int) {since : Option Int} {cs visible : List Char}
    (hline : '\n' ∉ cs) (h : visible? since cs = some visible) :
    LineReads (lexLine line visible) (lexLine line (blankFrom (modeSince since) cs))
      (modeBehind (modeSince since) cs) := by
  cases since with
  | none =>
    cases h
    exact lexLine_blankFrom line cs hline
  | some start =>
    obtain ⟨⟨text, rest⟩, hsplit, rfl⟩ := Option.map_eq_some_iff.mp h
    have hcomment := blankFrom_blockComment hline
    rw [hsplit] at hcomment
    obtain ⟨hblank, hmode⟩ := hcomment
    have hrest : '\n' ∉ rest := fun hmem =>
      hline (splitAtCommentEnd?_append hsplit ▸ List.mem_append_right text hmem)
    rw [modeSince, hblank, hmode, lexLine_blanks]
    exact lexLine_blankFrom line rest hrest

/-- Of a line that cannot be seen only blanks are left, and the comment goes on behind it. -/
theorem lexLine_hidden (line : Int) {since : Option Int} {cs : List Char} (hline : '\n' ∉ cs)
    (h : visible? since cs = none) :
    since.isSome = true ∧ lexLine line (blankFrom (modeSince since) cs) = ([], none) ∧
      modeBehind (modeSince since) cs = modeSince since := by
  cases since with
  | none => cases h
  | some start =>
    have hcomment := blankFrom_blockComment hline
    rw [Option.map_eq_none_iff.mp h] at hcomment
    obtain ⟨hblank, hmode⟩ := hcomment
    rw [modeSince, hblank, lexLine_replicate]
    exact ⟨rfl, rfl, hmode⟩

/-- Lines that the lexer does not refuse have with blanks for their comments the tokens that they had,
apart from ends of lines behind the end of a line. Where a comment is open in front of the lines, the
end of a line is what they stand behind. -/
theorem tokenizeLines_blankLines (line : Int) (since : Option Int) {ls : List (List Char)}
    (hlines : ∀ cs ∈ ls, '\n' ∉ cs)
    (hread : ∀ f, (tokenizeLines line since ls).2 ≠ some (.fault f)) :
    (tokenizeLines line none (blankLines (modeSince since) ls)).2 =
        (tokenizeLines line since ls).2 ∧
      ∀ behindEnd, (since.isSome = true → behindEnd = true) →
        dropBlankLines behindEnd (tokenizeLines line none (blankLines (modeSince since) ls)).1 =
          dropBlankLines behindEnd (tokenizeLines line since ls).1 := by
  induction ls generalizing line since with
  | nil =>
    cases since with
    | none => exact ⟨rfl, fun _ _ => rfl⟩
    | some start => exact absurd rfl (hread _)
  | cons cs ls ih =>
    have hcs : '\n' ∉ cs := hlines cs List.mem_cons_self
    have hls : ∀ cs ∈ ls, '\n' ∉ cs := fun l hl => hlines l (List.mem_cons_of_mem cs hl)
    rw [blankLines]
    cases hvisible : visible? since cs with
    | none =>
      obtain ⟨hopen, hlex, hmode⟩ := lexLine_hidden line hcs hvisible
      rw [tokenizeLines_hidden hvisible] at hread ⊢
      obtain ⟨hfailure, htokens⟩ := ih (line + 1) since hls hread
      rw [tokenizeLines, hmode]
      simp only [hlex]
      refine ⟨hfailure, fun behindEnd hbehind => ?_⟩
      -- The blank line has a token, the end of the line, but an end of a line stands in front of it.
      rw [hbehind hopen]
      exact htokens true fun _ => rfl
    | some visible =>
      rw [tokenizeLines_visible hvisible] at hread ⊢
      have hlex := lexLine_visible line hcs hvisible
      rw [tokenizeLines] at hread
      rw [tokenizeLines, tokenizeLines]
      simp only
      generalize lexLine line visible = result at hlex hread ⊢
      generalize lexLine line (blankFrom (modeSince since) cs) = blanked at hlex ⊢
      generalize modeBehind (modeSince since) cs = mode at hlex ⊢
      cases hlex with
      | read tokens =>
        obtain ⟨hfailure, htokens⟩ := ih (line + 1) none hls hread
        refine ⟨hfailure, fun behindEnd _ => ?_⟩
        rw [dropBlankLines_lineTokens, dropBlankLines_lineTokens]
        exact congrArg _ (htokens true fun _ => rfl)
      | opened tokens l =>
        obtain ⟨hfailure, htokens⟩ := ih (line + 1) (some line) hls hread
        refine ⟨hfailure, fun behindEnd _ => ?_⟩
        rw [dropBlankLines_lineTokens, dropBlankLines_lineTokens]
        exact congrArg _ (htokens true fun _ => rfl)
      | crashed tokens c mode => exact ⟨rfl, fun _ _ => rfl⟩
      | refused tokens f hf blanked mode =>
        -- A comment that runs on is the only fault of a line that the text does not have.
        obtain ⟨cause, l⟩ := f
        refine absurd ?_ (hread ⟨cause, l⟩)
        cases cause with
        | commentRunsOn => exact absurd rfl hf
        | _ => rfl

theorem length_blankLines (mode : ScanMode) (ls : List (List Char)) :
    (blankLines mode ls).length = ls.length := by
  induction ls generalizing mode with
  | nil => rfl
  | cons cs ls ih => rw [blankLines, List.length_cons, List.length_cons, ih]

/-- Where a text ends depends on its failure and on the number of its lines alone. -/
theorem endingOf_tokenizeLines {line : Int} {since since' : Option Int} {ls ls' : List (List Char)}
    (hlength : ls'.length = ls.length)
    (hfailure : (tokenizeLines line since' ls').2 = (tokenizeLines line since ls).2) :
    endingOf (tokenizeLines line since' ls').1 (tokenizeLines line since' ls').2 =
      endingOf (tokenizeLines line since ls).1 (tokenizeLines line since ls).2 := by
  cases hends : (tokenizeLines line since ls).2 with
  | some failure =>
    rw [hfailure, hends]
    rfl
  | none =>
    rw [hends] at hfailure
    rw [hfailure, endingOf, endingOf, getLast?_tokenizeLines hfailure, getLast?_tokenizeLines hends,
      hlength]

/-- A program is read as it is with blanks for its comments, unless the lexer refuses it. -/
theorem parse_blankComments [Host.Limits] (source : String)
    (hread : ∀ f, (tokenize source).2 ≠ some (.fault f)) :
    parse (blankComments source) = parse source := by
  have hlines : ∀ cs ∈ lines source.toList, '\n' ∉ cs := fun cs hcs => not_mem_of_mem_lines hcs
  have hblanked : tokenize (blankComments source) =
      tokenizeLines 1 none (blankLines (modeSince none) (lines source.toList)) := by
    rw [tokenize, blankComments, String.toList_ofList, lines_blankFrom]
    rfl
  obtain ⟨hfailure, htokens⟩ := tokenizeLines_blankLines 1 none hlines hread
  have hending := endingOf_tokenizeLines (length_blankLines _ _) hfailure
  rw [parse_eq, parse_eq, hblanked, hending, ← programStatements_dropBlankLines,
    htokens false nofun]
  exact programStatements_dropBlankLines _ _ _

/-- A call with a quote in a comment over two lines and with slashes in a string, a comment behind it,
and a statement that breaks off: the call is read with its string, and the error is on the third
line. -/
theorem parse_call_with_comments :
    let program : Program := ⟨[.call "f" [.literal (.int 1) 1, .text ⟨"\"//\"", 2⟩] 1],
      some (.fault ⟨.expected (.assignmentTo "a") "end of line", 3⟩)⟩
    parse "f(1, /* \"\n*/ \"//\") // end\nlet a" = program ∧
      parse "f(1,     \n   \"//\")       \nlet a" = program := by
  have htokens : tokenize "f(1, /* \"\n*/ \"//\") // end\nlet a" =
      ([⟨.identifier, "f", 1⟩, ⟨.leftParen, "(", 1⟩, ⟨.number, "1", 1⟩, ⟨.comma, ",", 1⟩,
        ⟨.newline, "\n", 1⟩, ⟨.string, "\"//\"", 2⟩, ⟨.rightParen, ")", 2⟩, ⟨.newline, "\n", 2⟩,
        ⟨.letWord, "let", 3⟩, ⟨.identifier, "a", 3⟩, ⟨.newline, "\n", 3⟩], none) := by
    decide +kernel
  have hread : ∀ f, (tokenize "f(1, /* \"\n*/ \"//\") // end\nlet a").2 ≠ some (.fault f) := by
    rw [htokens]
    exact nofun
  have hblank : blankComments "f(1, /* \"\n*/ \"//\") // end\nlet a" =
      "f(1,     \n   \"//\")       \nlet a" := by
    decide +kernel
  rw [← hblank, parse_blankComments _ hread, and_self]
  unfold parse
  rw [htokens]
  cbv

end ModuLang.Source
