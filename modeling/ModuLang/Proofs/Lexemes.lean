import Mathlib.Data.List.Infix
import Mathlib.Data.List.TakeWhile
import Mathlib.Tactic.FinCases
import ModuLang.Source.Lexer

/-!
# Lexemes

The texts that form tokens, class by class and without a word on how they are found: numerals with and
without a fraction, strings, words and signs. A text forms a token of one kind alone.

The lexer looks at the first characters of a text and takes the first class that fits. It never takes
less than there is: what it finds is the longest lexeme that the text begins with, and it finds one
wherever a text begins with a lexeme. Since there is only one longest lexeme, this says what is found.
The first character carries the proof, as it tells which classes a lexeme can be of.
-/

namespace ModuLang.Source

open Text

/-! ### Texts that form tokens -/

/-- The signs of the language, each with its kind. -/
def signs : List (TokenKind × List Char) :=
  [(.equal, ['=', '=']), (.unequal, ['!', '=']), (.assign, ['=']), (.plus, ['+']), (.minus, ['-']),
    (.star, ['*']), (.dot, ['.']), (.comma, [',']), (.semicolon, [';']), (.colon, [':']),
    (.leftParen, ['(']), (.rightParen, [')']), (.leftBrace, ['\x7b']), (.rightBrace, ['\x7d'])]

/-- Whether a text consists of digits, of which there is at least one. -/
def Digits (cs : List Char) : Prop :=
  cs ≠ [] ∧ ∀ c ∈ cs, isBasicDigit c = true

/-- Whether a text forms a token of a kind. -/
inductive Lexeme : TokenKind → List Char → Prop where
  | number {digits : List Char} : Digits digits → Lexeme .number digits
  | float {whole fraction : List Char} : Digits whole → Digits fraction →
      Lexeme .float (whole ++ '.' :: fraction)
  | string {body : List Char} : '"' ∉ body → Lexeme .string ('"' :: body ++ ['"'])
  | word {c : Char} {cs : List Char} : isWordStart c = true → (∀ d ∈ cs, isWordPart d = true) →
      Lexeme (wordKind (String.ofList (c :: cs))) (c :: cs)
  | sign {kind : TokenKind} {text : List Char} : (kind, text) ∈ signs → Lexeme kind text

/-- Whether a text is the longest one that forms a token, in front of some others. -/
def Longest (text rest : List Char) : Prop :=
  ∀ more, more ≠ [] → more <+: rest → ∀ kind, ¬Lexeme kind (text ++ more)

/-! ### The first character of a lexeme -/

/-- No gap is a part of a numeral or of a word. -/
theorem not_isGap_of_isWordPart {c : Char} (h : isWordPart c = true) : isGap c = false := by
  refine Bool.eq_false_iff.mpr fun hgap => ?_
  simp only [isGap, Bool.or_eq_true, beq_iff_eq] at hgap
  rcases hgap with (((rfl | rfl) | rfl) | rfl) | rfl
  all_goals exact absurd h (by decide)

theorem not_isWordStart_of_isBasicDigit {c : Char} (h : isBasicDigit c = true) :
    isWordStart c = false := by
  simp only [isBasicDigit, isWordStart, Bool.and_eq_true, decide_eq_true_eq, Bool.or_eq_false_iff,
    Bool.and_eq_false_imp, decide_eq_false_iff_not, beq_eq_false_iff_ne] at h ⊢
  have hle : c.toNat ≤ '9'.toNat := h.2
  refine ⟨⟨fun hupper => ?_, fun hlower => ?_⟩, ?_⟩
  · have hupper' : 'A'.toNat ≤ c.toNat := hupper
    exact absurd (hupper'.trans hle) (by decide)
  · have hlower' : 'a'.toNat ≤ c.toNat := hlower
    exact absurd (hlower'.trans hle) (by decide)
  · rintro rfl
    exact absurd hle (by decide)

/-- The characters that a sign begins with are no digits, letters, quotes or gaps. -/
theorem signs_head : ∀ sign ∈ signs, ∀ c ∈ sign.2.head?,
    isBasicDigit c = false ∧ isWordStart c = false ∧ c ≠ '"' ∧ isGap c = false := by
  intro sign hsign c hc
  fin_cases hsign
  all_goals
    obtain rfl := Option.some.inj hc
    decide

section Inversion

variable {kind : TokenKind} {c : Char} {cs : List Char}

/-- What a lexeme can be: a numeral, a word, a string or a sign, which its first character tells. -/
theorem Lexeme.cases_head (h : Lexeme kind (c :: cs)) :
    (isBasicDigit c = true ∧ (kind = .number ∧ (∀ d ∈ cs, isBasicDigit d = true) ∨
      kind = .float ∧ ∃ whole fraction, cs = whole ++ '.' :: fraction ∧
        (∀ d ∈ whole, isBasicDigit d = true) ∧ Digits fraction)) ∨
    (isWordStart c = true ∧ kind = wordKind (String.ofList (c :: cs)) ∧
      ∀ d ∈ cs, isWordPart d = true) ∨
    (c = '"' ∧ kind = .string ∧ ∃ body, '"' ∉ body ∧ cs = body ++ ['"']) ∨
    (kind, c :: cs) ∈ signs := by
  have hdigits : ∀ {digits}, Digits digits → ∃ d ds, digits = d :: ds ∧ isBasicDigit d = true ∧
      ∀ e ∈ ds, isBasicDigit e = true := by
    rintro digits ⟨hne, hall⟩
    obtain ⟨d, ds, rfl⟩ := List.exists_cons_of_ne_nil hne
    exact ⟨d, ds, rfl, hall d List.mem_cons_self, fun e he => hall e (List.mem_cons_of_mem d he)⟩
  generalize htext : c :: cs = text at h
  cases h with
  | number h =>
    obtain ⟨d, ds, rfl, hd, hds⟩ := hdigits h
    obtain ⟨rfl, rfl⟩ := List.cons.inj htext
    exact .inl ⟨hd, .inl ⟨rfl, hds⟩⟩
  | float h hfraction =>
    obtain ⟨d, ds, rfl, hd, hds⟩ := hdigits h
    obtain ⟨rfl, rfl⟩ := List.cons.inj htext
    exact .inl ⟨hd, .inr ⟨rfl, ds, _, rfl, hds, hfraction⟩⟩
  | string hbody =>
    obtain ⟨rfl, rfl⟩ := List.cons.inj htext
    exact .inr (.inr (.inl ⟨rfl, rfl, _, hbody, rfl⟩))
  | word hstart hparts =>
    obtain ⟨rfl, rfl⟩ := List.cons.inj htext
    exact .inr (.inl ⟨hstart, rfl, hparts⟩)
  | sign h => exact .inr (.inr (.inr h))

/-- A lexeme that begins with a digit is a numeral, with a fraction or without. -/
theorem Lexeme.of_digit (h : Lexeme kind (c :: cs)) (hc : isBasicDigit c = true) :
    kind = .number ∧ (∀ d ∈ cs, isBasicDigit d = true) ∨
      kind = .float ∧ ∃ whole fraction, cs = whole ++ '.' :: fraction ∧
        (∀ d ∈ whole, isBasicDigit d = true) ∧ Digits fraction := by
  rcases h.cases_head with ⟨-, hnumeral⟩ | ⟨hstart, -⟩ | ⟨rfl, -⟩ | hsign
  · exact hnumeral
  · simp [not_isWordStart_of_isBasicDigit hc] at hstart
  · exact absurd hc (by decide)
  · simp [(signs_head _ hsign c rfl).1] at hc

/-- A lexeme that begins with a letter is a word. -/
theorem Lexeme.of_wordStart (h : Lexeme kind (c :: cs)) (hc : isWordStart c = true) :
    kind = wordKind (String.ofList (c :: cs)) ∧ ∀ d ∈ cs, isWordPart d = true := by
  rcases h.cases_head with ⟨hdigit, -⟩ | ⟨-, hword⟩ | ⟨rfl, -⟩ | hsign
  · simp [not_isWordStart_of_isBasicDigit hdigit] at hc
  · exact hword
  · exact absurd hc (by decide)
  · simp [(signs_head _ hsign c rfl).2.1] at hc

/-- A lexeme that begins with a quote is a string. -/
theorem Lexeme.of_quote (h : Lexeme kind ('"' :: cs)) :
    kind = .string ∧ ∃ body, '"' ∉ body ∧ cs = body ++ ['"'] := by
  rcases h.cases_head with ⟨hdigit, -⟩ | ⟨hstart, -⟩ | ⟨-, hstring⟩ | hsign
  · exact absurd hdigit (by decide)
  · exact absurd hstart (by decide)
  · exact hstring
  · exact absurd rfl (signs_head _ hsign '"' rfl).2.2.1

/-- All other lexemes are signs. -/
theorem Lexeme.of_other (h : Lexeme kind (c :: cs)) (hdigit : ¬ isBasicDigit c = true)
    (hword : ¬ isWordStart c = true) (hquote : c ≠ '"') : (kind, c :: cs) ∈ signs := by
  rcases h.cases_head with ⟨hc, -⟩ | ⟨hc, -⟩ | ⟨hc, -⟩ | hsign
  · exact absurd hc hdigit
  · exact absurd hc hword
  · exact absurd hc hquote
  · exact hsign

/-- A lexeme has a first character, which is no gap. -/
theorem Lexeme.exists_cons {text : List Char} (h : Lexeme kind text) :
    ∃ c cs, text = c :: cs ∧ isGap c = false := by
  have hne : text ≠ [] := by
    cases h with
    | number h => exact h.1
    | float => simp
    | string => simp
    | word => simp
    | sign h =>
      rintro rfl
      simp [signs] at h
  obtain ⟨c, cs, rfl⟩ := List.exists_cons_of_ne_nil hne
  refine ⟨c, cs, rfl, ?_⟩
  rcases h.cases_head with ⟨hc, -⟩ | ⟨hc, -⟩ | ⟨rfl, -⟩ | hsign
  · exact not_isGap_of_isWordPart (by simp [isWordPart, hc])
  · exact not_isGap_of_isWordPart (by simp [isWordPart, hc])
  · decide
  · exact (signs_head _ hsign c rfl).2.2.2

/-- A text forms a token of one kind alone. -/
theorem Lexeme.kind_unique {kind' : TokenKind} {text : List Char} (h : Lexeme kind text)
    (h' : Lexeme kind' text) : kind = kind' := by
  obtain ⟨c, cs, rfl, -⟩ := h.exists_cons
  by_cases hdigit : isBasicDigit c = true
  · -- A numeral has a fraction exactly if there is a point in it.
    have hpoint : ∀ whole fraction, (∀ d ∈ cs, isBasicDigit d = true) →
        cs ≠ whole ++ '.' :: fraction := by
      rintro whole fraction hall rfl
      exact absurd (hall '.' (by simp)) (by decide)
    rcases h.of_digit hdigit with ⟨rfl, hall⟩ | ⟨rfl, whole, fraction, hcs, -⟩
    · rcases h'.of_digit hdigit with ⟨rfl, -⟩ | ⟨-, whole, fraction, hcs, -⟩
      · rfl
      · exact absurd hcs (hpoint whole fraction hall)
    · rcases h'.of_digit hdigit with ⟨-, hall⟩ | ⟨rfl, -⟩
      · exact absurd hcs (hpoint whole fraction hall)
      · rfl
  · by_cases hword : isWordStart c = true
    · exact (h.of_wordStart hword).1.trans (h'.of_wordStart hword).1.symm
    · by_cases hquote : c = '"'
      · subst hquote
        exact h.of_quote.1.trans h'.of_quote.1.symm
      · have hsigns : ∀ sign ∈ signs, ∀ sign' ∈ signs, sign.2 = sign'.2 → sign.1 = sign'.1 := by
          decide
        exact hsigns _ (h.of_other hdigit hword hquote) _ (h'.of_other hdigit hword hquote) rfl

end Inversion

/-! ### What stands at the front of a text -/

section Front

variable {cs : List Char}

/-- The token at the front of a text, if one stands there: its kind, its text and what is behind. -/
def Scan.token? {cs : List Char} : Scan cs → Option (TokenKind × List Char × List Char)
  | .token kind text rest _ _ => some (kind, text, rest)
  | _ => none

/-- A digit or a letter begins a numeral or a word. -/
theorem token?_scan_cons {c : Char} {ds : List Char} (hds : ds = c :: cs)
    (hc : isBasicDigit c = true ∨ isWordStart c = true) :
    (scan ds).token? = (if isBasicDigit c then scanNumeral c cs else scanWord c cs).token? := by
  unfold scan
  split
  · cases hds
  all_goals
    obtain ⟨rfl, rfl⟩ := List.cons.inj hds
  · exact absurd hc (by decide)
  · exact absurd hc (by decide)
  · exact absurd hc (by decide)
  · exact absurd hc (by decide)
  · exact absurd hc (by decide)
  · split
    · rfl
    · next hdigit => rw [if_pos (hc.resolve_left hdigit)]

theorem token?_scan_word {c : Char} (hdigit : ¬ isBasicDigit c = true) (hc : isWordStart c = true) :
    (scan (c :: cs)).token? = some (wordKind (String.ofList (c :: cs.takeWhile isWordPart)),
      c :: cs.takeWhile isWordPart, cs.dropWhile isWordPart) := by
  rw [token?_scan_cons rfl (.inr hc), if_neg hdigit]
  rfl

theorem token?_scan_float {c d : Char} {rest : List Char} (hc : isBasicDigit c = true)
    (hcs : cs.dropWhile isBasicDigit = '.' :: d :: rest) (hd : isBasicDigit d = true) :
    (scan (c :: cs)).token? = some (.float,
      c :: cs.takeWhile isBasicDigit ++ '.' :: d :: rest.takeWhile isBasicDigit,
      rest.dropWhile isBasicDigit) := by
  rw [token?_scan_cons rfl (.inl hc), if_pos hc]
  unfold scanNumeral
  simp only
  split
  · next d' rest' heq =>
    obtain ⟨rfl, rfl⟩ : d = d' ∧ rest = rest' := by simpa using hcs.symm.trans heq
    rw [if_pos hd]
    rfl
  · next hother => exact absurd hcs (hother d rest)

/-- Whether digits behind a point follow, which belong to the numeral in front. -/
def HasFraction (cs : List Char) : Prop :=
  ∃ d rest, cs = '.' :: d :: rest ∧ isBasicDigit d = true

theorem token?_scan_number {c : Char} (hc : isBasicDigit c = true)
    (hcs : ¬ HasFraction (cs.dropWhile isBasicDigit)) :
    (scan (c :: cs)).token? =
      some (.number, c :: cs.takeWhile isBasicDigit, cs.dropWhile isBasicDigit) := by
  rw [token?_scan_cons rfl (.inl hc), if_pos hc]
  unfold scanNumeral
  simp only
  split
  · next d rest heq =>
    rw [if_neg fun hd => hcs ⟨d, rest, heq, hd⟩]
    simp [Scan.token?, heq]
  · rfl

theorem token?_scan_string {body rest : List Char} (hbody : '"' ∉ body) :
    (scan ('"' :: (body ++ '"' :: rest))).token? =
      some (.string, '"' :: body ++ ['"'], rest) := by
  have hall : ∀ c ∈ body, (c != '"') = true := fun c hc =>
    bne_iff_ne.mpr fun heq => hbody (heq ▸ hc)
  have htake : (body ++ '"' :: rest).takeWhile (· != '"') = body := by
    rw [List.takeWhile_append_of_pos hall]
    simp
  have hdrop : (body ++ '"' :: rest).dropWhile (· != '"') = '"' :: rest := by
    rw [List.dropWhile_append_of_pos hall]
    simp
  change (scanString (body ++ '"' :: rest)).token? = _
  unfold scanString
  simp only
  split
  · next heq =>
    rw [hdrop] at heq
    cases heq
  · next q rest' heq =>
    obtain ⟨rfl, rfl⟩ := List.cons.inj (hdrop.symm.trans heq)
    simp only [Scan.token?, htake]

/-- Where no equal sign follows, an equal sign stands for itself. -/
theorem token?_scan_assign {ds : List Char} (hds : ds = '=' :: cs) (hcs : ∀ rest, cs ≠ '=' :: rest) :
    (scan ds).token? = some (.assign, ['='], cs) := by
  unfold scan
  split
  · cases hds
  all_goals
    obtain ⟨hc, rfl⟩ := List.cons.inj hds
  · exact absurd hc (by decide)
  · exact absurd hc (by decide)
  · exact absurd hc (by decide)
  · exact absurd rfl (hcs _)
  · exact absurd hc (by decide)
  · obtain rfl := hc
    rw [if_neg (by decide), if_neg (by decide)]
    rfl

/-- A line that begins with a token. -/
theorem lexLine_token {line : Int} {c : Char} {tail text rest : List Char} {kind : TokenKind}
    (hgap : ¬ isGap c = true) (h : (scan (c :: tail)).token? = some (kind, text, rest)) :
    lexLine line (c :: tail) =
      match if kind = .number then integerDefect? text line else none with
      | some failure => ([], some failure)
      | none =>
        ((kind, String.ofList text) :: (lexLine line rest).1, (lexLine line rest).2) := by
  rw [lexLine, if_neg hgap]
  generalize hscan : scan (c :: tail) = front at h
  cases front with
  | token kind text rest whole nonempty =>
    cases h
    rfl
  | comment text rest whole nonempty => cases h
  | openComment => cases h
  | unrecognised => cases h

/-- Gaps in front of a line give no tokens. -/
theorem lexLine_gaps (line : Int) {gap : List Char} (hgap : ∀ c ∈ gap, isGap c = true)
    (cs : List Char) : lexLine line (gap ++ cs) = lexLine line cs := by
  induction gap with
  | nil => rfl
  | cons c gap ih =>
    obtain ⟨hc, hrest⟩ := List.forall_mem_cons.mp hgap
    rw [List.cons_append, lexLine, if_pos hc, ih hrest]

end Front

/-! ### The lexer finds the longest lexeme -/

section Longest

variable {cs : List Char}

theorem not_head?_dropWhile (p : Char → Bool) (cs : List Char) :
    ∀ c ∈ (cs.dropWhile p).head?, p c = false := by
  intro c hc
  have hhead := List.head?_dropWhile_not p cs
  rw [Option.mem_def.mp hc] at hhead
  simpa using hhead

/-- What goes on behind characters of a class goes on with the first other character. -/
theorem append_cons_inj {p : Char → Bool} {as bs xs ys : List Char} {c d : Char}
    (has : ∀ a ∈ as, p a = true) (hbs : ∀ b ∈ bs, p b = true) (hc : p c = false) (hd : p d = false)
    (h : as ++ c :: xs = bs ++ d :: ys) : as = bs ∧ c :: xs = d :: ys := by
  have htake := congrArg (List.takeWhile p) h
  rw [List.takeWhile_append_of_pos has, List.takeWhile_append_of_pos hbs,
    List.takeWhile_cons_of_neg (by simp [hc]), List.takeWhile_cons_of_neg (by simp [hd]),
    List.append_nil, List.append_nil] at htake
  subst htake
  exact ⟨rfl, List.append_cancel_left h⟩

/-- A text is the longest one if no lexeme goes on with the character that follows. -/
theorem longest_of_cons {text rest : List Char}
    (h : ∀ c more tail, rest = c :: tail → more <+: tail → ∀ kind, ¬Lexeme kind (text ++ c :: more)) :
    Longest text rest := by
  rintro more hne ⟨behind, rfl⟩ kind
  obtain ⟨c, ms, rfl⟩ := List.exists_cons_of_ne_nil hne
  exact h c ms (ms ++ behind) rfl (List.prefix_append ms behind) kind

/-- What the lexer takes for a token is the longest lexeme that the text begins with. -/
def Scan.IsLongest {cs : List Char} : Scan cs → Prop
  | .token kind text rest _ _ => Lexeme kind text ∧ Longest text rest
  | _ => True

/-- Digits go on with a digit or with a point and a digit. -/
theorem Digits.longest {digits rest : List Char} (h : Digits digits)
    (hdigit : ∀ c ∈ rest.head?, isBasicDigit c = false) (hfraction : ¬HasFraction rest) :
    Longest digits rest := by
  obtain ⟨hne, hall⟩ := h
  obtain ⟨d, ds, rfl⟩ := List.exists_cons_of_ne_nil hne
  obtain ⟨hd, hds⟩ := List.forall_mem_cons.mp hall
  refine longest_of_cons fun c more tail hrest hmore kind hlexeme => ?_
  have hc : isBasicDigit c = false := hdigit c (by simp [hrest])
  rcases hlexeme.of_digit hd with ⟨-, hlonger⟩ | ⟨-, whole, fraction, hcut, hwhole, hbehind⟩
  · rw [hlonger c (by simp)] at hc
    cases hc
  · obtain ⟨-, hpoint⟩ := append_cons_inj hds hwhole hc (by decide) hcut
    obtain ⟨rfl, rfl⟩ := List.cons.inj hpoint
    obtain ⟨e, es, rfl⟩ := List.exists_cons_of_ne_nil hbehind.1
    obtain ⟨behind, rfl⟩ := hmore
    exact hfraction ⟨e, es ++ behind, hrest, hbehind.2 e List.mem_cons_self⟩

/-- A word goes on with what is part of a word. -/
theorem longest_word {c : Char} {tail rest : List Char} (hc : isWordStart c = true)
    (hrest : ∀ d ∈ rest.head?, isWordPart d = false) : Longest (c :: tail) rest := by
  refine longest_of_cons fun d more behind hcons _ kind hlexeme => ?_
  have hd : isWordPart d = false := hrest d (by simp [hcons])
  rw [(hlexeme.of_wordStart hc).2 d (by simp)] at hd
  cases hd

theorem scanNumeral_isLongest {c : Char} (hc : isBasicDigit c = true) :
    (scanNumeral c cs).IsLongest := by
  have hdigits : Digits (c :: cs.takeWhile isBasicDigit) :=
    ⟨List.cons_ne_nil _ _, List.forall_mem_cons.mpr ⟨hc, fun d hd => List.mem_takeWhile_imp hd⟩⟩
  have hstop := not_head?_dropWhile isBasicDigit cs
  unfold scanNumeral
  simp only
  split
  · next d rest heq =>
    split
    · next hd =>
      have hfraction : Digits (d :: rest.takeWhile isBasicDigit) :=
        ⟨List.cons_ne_nil _ _, List.forall_mem_cons.mpr ⟨hd, fun e he => List.mem_takeWhile_imp he⟩⟩
      refine ⟨.float hdigits hfraction, longest_of_cons fun e more tail hrest _ kind hlexeme => ?_⟩
      have he : isBasicDigit e = false := not_head?_dropWhile isBasicDigit rest e (by simp [hrest])
      rw [List.append_assoc, List.cons_append, List.cons_append, List.cons_append] at hlexeme
      -- A longer lexeme has its point in the same place, and digits only behind it.
      rcases hlexeme.of_digit hc with ⟨-, hall⟩ | ⟨-, whole, fraction, hcut, hall, hfraction⟩
      · exact absurd (hall '.' (by simp)) (by decide)
      · have hwhole := (List.forall_mem_cons.mp hdigits.2).2
        obtain ⟨-, hpoint⟩ := append_cons_inj hwhole hall (by decide) (by decide) hcut
        have hmem : e ∈ fraction := by
          rw [← (List.cons.inj hpoint).2]
          simp
        rw [hfraction.2 e hmem] at he
        cases he
    · next hd =>
      have hno : ¬HasFraction (cs.dropWhile isBasicDigit) := by
        rintro ⟨e, more, hcut, he⟩
        obtain ⟨rfl, -⟩ : d = e ∧ rest = more := by simpa using heq.symm.trans hcut
        exact hd he
      rw [heq] at hno hstop
      exact ⟨.number hdigits, hdigits.longest hstop hno⟩
  · next hother =>
    have hno : ¬HasFraction (cs.dropWhile isBasicDigit) := by
      rintro ⟨e, more, hcut, he⟩
      exact hother e more hcut
    exact ⟨.number hdigits, hdigits.longest hstop hno⟩

theorem scanWord_isLongest {c : Char} (hc : isWordStart c = true) : (scanWord c cs).IsLongest :=
  ⟨.word hc fun _ hd => List.mem_takeWhile_imp hd,
    longest_word hc (not_head?_dropWhile isWordPart cs)⟩

/-- Behind the quote that ends a string, no string goes on. -/
theorem longest_string (body rest : List Char) :
    Longest ('"' :: body ++ ['"']) rest := by
  refine longest_of_cons fun c more tail _ _ kind hlexeme => ?_
  -- The closing quote would stand inside of a longer string.
  rw [List.cons_append, List.cons_append, List.append_assoc] at hlexeme
  obtain ⟨-, longer, hno, hcut⟩ := hlexeme.of_quote
  have hinside : '"' ∈ (body ++ '"' :: c :: more).dropLast := by
    rw [List.dropLast_append_of_ne_nil (List.cons_ne_nil _ _)]
    simp
  have hlonger : (body ++ '"' :: c :: more).dropLast = longer := by
    have hlast := congrArg List.dropLast hcut
    rw [List.dropLast_concat] at hlast
    simpa using hlast
  exact hno (hlonger ▸ hinside)

theorem scanString_isLongest : (scanString cs).IsLongest := by
  unfold scanString
  simp only
  split
  · trivial
  · next q rest heq =>
    have hbody : '"' ∉ cs.takeWhile (· != '"') := by
      intro hmem
      simpa using List.mem_takeWhile_imp hmem
    obtain rfl : q = '"' := by simpa using not_head?_dropWhile (· != '"') cs q (by simp [heq])
    exact ⟨.string hbody, longest_string _ rest⟩

/-- A sign goes on to a longer one only as an equal sign that another one follows. -/
theorem signs_extend : ∀ sign ∈ signs, ∀ sign' ∈ signs, sign.2 <+: sign'.2 → sign.2 ≠ sign'.2 →
    sign.2 = ['='] ∧ sign'.2 = ['=', '='] := by
  decide

/-- Where a sign does not go on, it is the longest lexeme. -/
theorem longest_of_sign {kind : TokenKind} {c : Char} {tail rest : List Char}
    (hsign : (kind, c :: tail) ∈ signs) (hrest : c :: tail = ['='] → ∀ more, rest ≠ '=' :: more) :
    Lexeme kind (c :: tail) ∧ Longest (c :: tail) rest := by
  refine ⟨.sign hsign, ?_⟩
  rintro more hne ⟨behind, rfl⟩ kind' hlexeme
  obtain ⟨hdigit, hword, hquote, -⟩ := signs_head _ hsign c rfl
  have hsign' : (kind', c :: (tail ++ more)) ∈ signs :=
    hlexeme.of_other (by simp [hdigit]) (by simp [hword]) hquote
  obtain ⟨heq, hlonger⟩ := signs_extend _ hsign _ hsign' (List.prefix_append (c :: tail) more)
    (by simpa using hne)
  obtain ⟨rfl, rfl⟩ := List.cons.inj heq
  obtain ⟨-, rfl⟩ := List.cons.inj hlonger
  exact hrest rfl _ rfl

theorem scan_isLongest (cs : List Char) : (scan cs).IsLongest := by
  unfold scan
  split
  · trivial
  · trivial
  · unfold scanBlockComment
    split <;> trivial
  · exact scanString_isLongest
  · refine longest_of_sign ?_ fun heq => ?_
    · decide
    · exact absurd heq (by decide)
  · refine longest_of_sign ?_ fun heq => ?_
    · decide
    · exact absurd heq (by decide)
  · next c cs _ _ _ hequal _ =>
    split
    · next hc => exact scanNumeral_isLongest hc
    · split
      · next hc => exact scanWord_isLongest hc
      · split
        · refine longest_of_sign ?_ fun _ more heq => hequal more rfl heq
          decide
        all_goals first
          | trivial
          | refine longest_of_sign ?_ fun heq => ?_
            · decide
            · exact absurd heq (by decide)

theorem isSome_token?_scan_sign {sign : TokenKind × List Char} (h : sign ∈ signs)
    (rest : List Char) : (scan (sign.2 ++ rest)).token?.isSome := by
  by_cases hassign : sign = (.assign, ['='])
  · -- Another equal sign may follow.
    subst hassign
    by_cases hequal : ∃ more, rest = '=' :: more
    · obtain ⟨more, rfl⟩ := hequal
      rfl
    · have hother : ∀ more, rest ≠ '=' :: more := fun more heq => hequal ⟨more, heq⟩
      rw [List.singleton_append, token?_scan_assign rfl hother]
      rfl
  · fin_cases h
    all_goals first
      | rfl
      | exact absurd rfl hassign

/-- A token is found wherever a text begins with a lexeme. -/
theorem isSome_token?_scan {kind : TokenKind} {text : List Char} (h : Lexeme kind text)
    (rest : List Char) : (scan (text ++ rest)).token?.isSome := by
  obtain ⟨c, tail, rfl, -⟩ := h.exists_cons
  by_cases hc : isBasicDigit c = true ∨ isWordStart c = true
  · rw [List.cons_append, token?_scan_cons rfl hc]
    split
    · unfold scanNumeral
      simp only
      repeat' split
      all_goals rfl
    · rfl
  · obtain ⟨hdigit, hword⟩ := not_or.mp hc
    by_cases hquote : c = '"'
    · subst hquote
      obtain ⟨-, body, hbody, rfl⟩ := h.of_quote
      rw [List.cons_append, List.append_assoc, List.singleton_append, token?_scan_string hbody]
      rfl
    · exact isSome_token?_scan_sign (h.of_other hdigit hword hquote) rest

/-- The longest lexeme holds every other one that the text begins with. -/
theorem Longest.isPrefix {kind : TokenKind} {text rest text' rest' : List Char}
    (h : Longest text rest) (h' : Lexeme kind text') (heq : text' ++ rest' = text ++ rest) :
    text' <+: text := by
  rcases List.append_eq_append_iff.mp heq with ⟨more, htext, -⟩ | ⟨more, htext, hrest⟩
  · exact ⟨more, htext.symm⟩
  · by_cases hmore : more = []
    · exact ⟨[], by simp [htext, hmore]⟩
    · exact absurd (htext ▸ h') (h more hmore ⟨rest', hrest.symm⟩ kind)

/-- The longest lexeme that a text begins with is what the lexer finds. -/
theorem token?_scan_of_longest {kind : TokenKind} {text rest : List Char} (h : Lexeme kind text)
    (hlongest : Longest text rest) : (scan (text ++ rest)).token? = some (kind, text, rest) := by
  obtain ⟨⟨kind', text', rest'⟩, hfound⟩ := Option.isSome_iff_exists.mp (isSome_token?_scan h rest)
  rw [hfound]
  have hfront := scan_isLongest (text ++ rest)
  generalize scan (text ++ rest) = front at hfound hfront
  cases front with
  | token kind₁ text₁ rest₁ whole nonempty =>
    cases hfound
    obtain ⟨h', hlongest'⟩ := hfront
    have hle := (hlongest.isPrefix h' whole).length_le
    obtain rfl : text = text' := (hlongest'.isPrefix h whole.symm).eq_of_length_le hle
    obtain rfl := List.append_cancel_left whole
    rw [h.kind_unique h']
  | comment => cases hfound
  | openComment => cases hfound
  | unrecognised => cases hfound

/-- A token ends at the end of the text or with a gap, whatever it is. -/
theorem Lexeme.longest {kind : TokenKind} {text rest : List Char} (h : Lexeme kind text)
    (hrest : ∀ c ∈ rest.head?, isGap c = true) : Longest text rest := by
  refine longest_of_cons fun c more tail hcons _ kind' hlexeme => ?_
  have hgap : isGap c = true := hrest c (by simp [hcons])
  have hpart : ¬isWordPart c = true := fun hc => by simp [not_isGap_of_isWordPart hc] at hgap
  have hdigit : ¬isBasicDigit c = true := fun hc => hpart (by simp [isWordPart, hc])
  obtain ⟨d, ds, rfl, -⟩ := h.exists_cons
  -- The first character tells what a longer lexeme would be; in none of them a gap can stand here.
  by_cases hd : isBasicDigit d = true
  · rcases hlexeme.of_digit hd with ⟨-, hall⟩ | ⟨-, whole, fraction, hcut, hall, -, hfraction⟩
    · exact hdigit (hall c (by simp))
    · have hmem : c ∈ whole ++ '.' :: fraction := hcut ▸ by simp
      rcases List.mem_append.mp hmem with hwhole | hbehind
      · exact hdigit (hall c hwhole)
      · rcases List.mem_cons.mp hbehind with rfl | hc
        · exact absurd hgap (by decide)
        · exact hdigit (hfraction c hc)
  · by_cases hword : isWordStart d = true
    · exact hpart ((hlexeme.of_wordStart hword).2 c (by simp))
    · by_cases hquote : d = '"'
      · subst hquote
        obtain ⟨-, body, hbody, rfl⟩ := h.of_quote
        exact longest_string body (c :: more) (c :: more) (List.cons_ne_nil _ _)
          List.prefix_rfl kind' hlexeme
      · have hsign := h.of_other hd hword hquote
        have hsign' := hlexeme.of_other hd hword hquote
        obtain ⟨heq, hlonger⟩ := signs_extend _ hsign _ hsign' (List.prefix_append (d :: ds) _)
          (by simp)
        obtain ⟨rfl, rfl⟩ := List.cons.inj heq
        obtain ⟨rfl, -⟩ := List.cons.inj (List.cons.inj hlonger).2
        exact absurd hgap (by decide)

end Longest

end ModuLang.Source
