import ModuLang.Proofs.Lexemes

/-!
# How a line divides

A line that the lexer reads without a failure divides into segments: tokens, gaps and comments. Its
tokens are those of the division and nothing of the line is lost. What may stand where in a division
is said without the lexer: a gap is a run of blanks that does not go on, a comment ends at its end and
not later, and a token is the longest lexeme at its place. And each line that divides so is read, so
the divisions are all that has to be known of the lexer (`lexLine_eq_iff`).

The tokens of a line with single spaces between them divide into these tokens and the spaces, as a
space ends every token. So they are read as they were.
-/

namespace ModuLang.Source

open Text

/-! ### Divisions -/

/-- A part of a line. -/
inductive Segment where
  | gap (text : List Char)
  | lineComment (body : List Char)
  | blockComment (body : List Char)
  | token (kind : TokenKind) (text : List Char)

def Segment.text : Segment → List Char
  | .gap text => text
  | .lineComment body => '/' :: '/' :: body
  | .blockComment body => '/' :: '*' :: body ++ ['*', '/']
  | .token _ text => text

def Segment.token? : Segment → Option (TokenKind × String)
  | .token kind text => some (kind, String.ofList text)
  | _ => none

/-- The text that segments make. -/
def spelling (segments : List Segment) : List Char :=
  segments.flatMap Segment.text

/-- The tokens among segments. -/
def tokensIn (segments : List Segment) : List (TokenKind × String) :=
  segments.filterMap Segment.token?

/-- Whether a text can be the text of a token as far as its value is concerned. -/
def Readable (kind : TokenKind) (text : List Char) : Prop :=
  kind = .number → text.length ≤ Number.digitLimit ∧ (Number.digitsValue text : Int) ≤ Number.intMax

/-- Whether a segment may stand in front of the rest of a line: it ends where it has to. -/
def Segment.Stands (rest : List Char) : Segment → Prop
  | .gap text => text ≠ [] ∧ (∀ c ∈ text, isGap c = true) ∧ ∀ c ∈ rest.head?, isGap c = false
  | .lineComment body => '\n' ∉ body ∧ ∀ c ∈ rest.head?, c = '\n'
  | .blockComment body => ¬['*', '/'] <:+: body ++ ['*']
  | .token kind text => Lexeme kind text ∧ Longest text rest ∧ Readable kind text

/-- Whether each segment may stand in front of what is behind it. -/
def Divides : List Segment → Prop
  | [] => True
  | segment :: segments => segment.Stands (spelling segments) ∧ Divides segments

@[simp] theorem spelling_nil : spelling [] = [] :=
  rfl

@[simp] theorem spelling_cons (segment : Segment) (segments : List Segment) :
    spelling (segment :: segments) = segment.text ++ spelling segments :=
  List.flatMap_cons

theorem Divides.tokens {segments : List Segment} (h : Divides segments) :
    ∀ t ∈ tokensIn segments, Lexeme t.1 t.2.toList ∧ Readable t.1 t.2.toList := by
  induction segments with
  | nil => simp [tokensIn]
  | cons segment segments ih =>
    intro t ht
    obtain ⟨segment', hmem, htoken⟩ := List.mem_filterMap.mp ht
    rcases List.mem_cons.mp hmem with rfl | hmem
    · cases segment' with
      | token kind text =>
        cases htoken
        obtain ⟨hlexeme, -, hreadable⟩ := h.1
        rw [String.toList_ofList]
        exact ⟨hlexeme, hreadable⟩
      | _ => cases htoken
    · exact ih h.2 t (List.mem_filterMap.mpr ⟨segment', hmem, htoken⟩)

/-! ### Reading a line that divides -/

section Reading

variable {cs text rest : List Char}

/-- A comment ends at the first place where one can end. -/
theorem splitAtCommentEnd?_body {body : List Char} (hfirst : ¬['*', '/'] <:+: body ++ ['*'])
    (rest : List Char) :
    splitAtCommentEnd? (body ++ '*' :: '/' :: rest) = some (body ++ ['*', '/'], rest) := by
  induction body with
  | nil => rfl
  | cons c body ih =>
    have hbody : ¬['*', '/'] <:+: body ++ ['*'] := fun hinfix => hfirst (List.infix_cons hinfix)
    -- No end begins here, as the next character shows.
    obtain ⟨d, ds, hds, hd⟩ : ∃ d ds, body ++ '*' :: '/' :: rest = d :: ds ∧ ¬(c = '*' ∧ d = '/') := by
      cases body with
      | nil => exact ⟨'*', '/' :: rest, rfl, fun h => absurd h.2 (by decide)⟩
      | cons d body =>
        refine ⟨d, body ++ '*' :: '/' :: rest, rfl, ?_⟩
        rintro ⟨rfl, rfl⟩
        exact hfirst ⟨[], body ++ ['*'], rfl⟩
    rw [List.cons_append, hds, splitAtCommentEnd?, if_neg hd, ← hds, ih hbody]
    rfl

theorem exists_body_of_splitAtCommentEnd? (h : splitAtCommentEnd? cs = some (text, rest)) :
    ∃ body, text = body ++ ['*', '/'] ∧ ¬['*', '/'] <:+: body ++ ['*'] := by
  fun_induction splitAtCommentEnd? cs generalizing text with
  | case1 => cases h
  | case2 => cases h
  | case3 c d cs hend =>
    cases h
    exact ⟨[], rfl, fun hinfix => by simpa using hinfix.length_le⟩
  | case4 c d cs hend ih =>
    obtain ⟨⟨text', rest'⟩, hsplit, hpair⟩ := Option.map_eq_some_iff.mp h
    obtain ⟨rfl, rfl⟩ := Prod.mk.inj hpair
    obtain ⟨body, rfl, hfirst⟩ := ih hsplit
    have hcs := splitAtCommentEnd?_append hsplit
    refine ⟨c :: body, rfl, fun hinfix => ?_⟩
    rcases List.infix_cons_iff.mp hinfix with hfront | hinfix
    · -- An end at the first character would have been found.
      obtain ⟨hc, hfront⟩ := List.cons_prefix_cons.mp hfront
      cases body with
      | nil => exact absurd (List.cons_prefix_cons.mp hfront).1 (by decide)
      | cons b body =>
        have hb : '/' = b := (List.cons_prefix_cons.mp hfront).1
        have hd : b = d := (List.cons.inj hcs).1
        exact hend ⟨hc.symm, (hb.trans hd).symm⟩
    · exact hfirst hinfix

/-- The comment at the front of a text, if one stands there, and what is behind. -/
def Scan.comment? {cs : List Char} : Scan cs → Option (List Char × List Char)
  | .comment text rest _ _ => some (text, rest)
  | _ => none

/-- A line that begins with a comment. -/
theorem lexLine_comment {line : Int} {c : Char} {tail : List Char} (hgap : ¬isGap c = true)
    (h : (scan (c :: tail)).comment? = some (text, rest)) :
    lexLine line (c :: tail) = lexLine line rest := by
  rw [lexLine, if_neg hgap]
  generalize hscan : scan (c :: tail) = front at h
  cases front with
  | comment text rest whole nonempty =>
    cases h
    rfl
  | token kind text rest whole nonempty => cases h
  | openComment => cases h
  | unrecognised => cases h

theorem comment?_scan_lineComment {body : List Char} (hbody : '\n' ∉ body)
    (hrest : ∀ c ∈ rest.head?, c = '\n') :
    (scan ('/' :: '/' :: (body ++ rest))).comment? = some ('/' :: '/' :: body, rest) := by
  have hall : ∀ c ∈ body, (c != '\n') = true := fun c hc =>
    bne_iff_ne.mpr fun heq => hbody (heq ▸ hc)
  have hend : rest.takeWhile (· != '\n') = [] ∧ rest.dropWhile (· != '\n') = rest := by
    cases rest with
    | nil => exact ⟨rfl, rfl⟩
    | cons c rest =>
      obtain rfl := hrest c rfl
      exact ⟨rfl, rfl⟩
  change some ('/' :: '/' :: (body ++ rest).takeWhile (· != '\n'),
    (body ++ rest).dropWhile (· != '\n')) = _
  rw [List.takeWhile_append_of_pos hall, List.dropWhile_append_of_pos hall, hend.1, hend.2,
    List.append_nil]

theorem comment?_scan_blockComment {body : List Char} (hfirst : ¬['*', '/'] <:+: body ++ ['*'])
    (rest : List Char) :
    (scan ('/' :: '*' :: (body ++ '*' :: '/' :: rest))).comment? =
      some ('/' :: '*' :: body ++ ['*', '/'], rest) := by
  have hsplit := splitAtCommentEnd?_body hfirst rest
  change (scanBlockComment _).comment? = _
  unfold scanBlockComment
  split
  · next text' rest' heq =>
    obtain ⟨rfl, rfl⟩ := Prod.mk.inj (Option.some.inj (hsplit.symm.trans heq))
    rfl
  · next heq => cases hsplit.symm.trans heq

/-- A segment that stands where it may gives its token, if it is one, and nothing else. -/
theorem lexLine_segment (line : Int) {segment : Segment} (h : segment.Stands rest) :
    lexLine line (segment.text ++ rest) =
      (segment.token?.toList ++ (lexLine line rest).1, (lexLine line rest).2) := by
  cases segment with
  | gap text => exact lexLine_gaps line h.2.1 rest
  | lineComment body => exact lexLine_comment (by decide) (comment?_scan_lineComment h.1 h.2)
  | blockComment body =>
    have hfound := comment?_scan_blockComment h rest
    have htext : (Segment.blockComment body).text ++ rest =
        '/' :: '*' :: (body ++ '*' :: '/' :: rest) := by
      simp [Segment.text]
    rw [htext, lexLine_comment (by decide) hfound]
    rfl
  | token kind text =>
    obtain ⟨hlexeme, hlongest, hreadable⟩ := h
    obtain ⟨c, tail, rfl, hgap⟩ := hlexeme.exists_cons
    have hfound : (scan (c :: (tail ++ rest))).token? = some (kind, c :: tail, rest) :=
      token?_scan_of_longest hlexeme hlongest
    have hdefect : (if kind = .number then integerDefect? (c :: tail) line else none) = none := by
      split
      · next hnumber => exact integerDefect?_eq_none_iff.mpr (hreadable hnumber)
      · rfl
    change lexLine line (c :: (tail ++ rest)) = _
    rw [lexLine_token (by simp [hgap]) hfound, hdefect]
    rfl

/-- A line that divides has the tokens of the division. -/
theorem Divides.lexLine_eq (line : Int) {segments : List Segment} (h : Divides segments) :
    lexLine line (spelling segments) = (tokensIn segments, none) := by
  induction segments with
  | nil => rw [spelling_nil, lexLine]; rfl
  | cons segment segments ih =>
    rw [spelling_cons, lexLine_segment line h.1, ih h.2]
    unfold tokensIn
    cases htoken : segment.token? with
    | none => rw [List.filterMap_cons_none htoken]; rfl
    | some token => rw [List.filterMap_cons_some htoken]; rfl

/-- What the lexer takes for a comment stands there as one. -/
theorem exists_comment_of_scan (h : (scan cs).comment? = some (text, rest)) :
    ∃ segment : Segment, segment.Stands rest ∧ segment.text ++ rest = cs ∧
      segment.token? = none := by
  -- Of all branches of the scan only two make comments: `//`, and `/*` where its end is found.
  unfold scan at h
  split at h
  · cases h
  · next cs =>
    cases h
    have hbody : '\n' ∉ cs.takeWhile (· != '\n') := by
      intro hmem
      simpa using List.mem_takeWhile_imp hmem
    have hrest : ∀ c ∈ (cs.dropWhile (· != '\n')).head?, c = '\n' := by
      intro c hc
      simpa using not_head?_dropWhile (· != '\n') cs c hc
    exact ⟨.lineComment _, ⟨hbody, hrest⟩, by simp [Segment.text], rfl⟩
  · next cs =>
    unfold scanBlockComment at h
    split at h
    · next text' rest' hsplit =>
      cases h
      obtain ⟨body, rfl, hfirst⟩ := exists_body_of_splitAtCommentEnd? hsplit
      have hcs := splitAtCommentEnd?_append hsplit
      exact ⟨.blockComment body, hfirst, by simp [Segment.text, ← hcs], rfl⟩
    · cases h
  · unfold scanString at h
    simp only at h
    split at h <;> cases h
  · cases h
  · cases h
  · split at h
    · unfold scanNumeral at h
      simp only at h
      repeat' split at h
      all_goals cases h
    · repeat' split at h
      all_goals cases h

/-- A gap in front of a division makes a division. -/
theorem exists_divides_gap {c : Char} (hc : isGap c = true) {segments : List Segment}
    (h : Divides segments) :
    ∃ segments', Divides segments' ∧ spelling segments' = c :: spelling segments ∧
      tokensIn segments' = tokensIn segments := by
  by_cases hgap : ∃ text more, segments = .gap text :: more
  · -- The gap goes on.
    obtain ⟨text, more, rfl⟩ := hgap
    obtain ⟨⟨-, hall, hend⟩, hmore⟩ := h
    have hall' : ∀ d ∈ c :: text, isGap d = true := List.forall_mem_cons.mpr ⟨hc, hall⟩
    exact ⟨.gap (c :: text) :: more, ⟨⟨List.cons_ne_nil c text, hall', hend⟩, hmore⟩, rfl, rfl⟩
  · have hend : ∀ d ∈ (spelling segments).head?, isGap d = false := by
      cases segments with
      | nil => simp
      | cons segment more =>
        cases segment with
        | gap text => exact absurd ⟨text, more, rfl⟩ hgap
        | lineComment body =>
          rintro d ⟨rfl⟩
          rfl
        | blockComment body =>
          rintro d ⟨rfl⟩
          rfl
        | token kind text =>
          obtain ⟨⟨hlexeme, -⟩, -⟩ := h
          obtain ⟨d, tail, rfl, hd⟩ := hlexeme.exists_cons
          rintro e ⟨rfl⟩
          exact hd
    have hone : ∀ d ∈ [c], isGap d = true := List.forall_mem_singleton.mpr hc
    exact ⟨.gap [c] :: segments, ⟨⟨List.cons_ne_nil c [], hone, hend⟩, h⟩, rfl, rfl⟩

end Reading

/-- A line is read with some tokens exactly if it divides into these tokens and what is skipped. -/
theorem lexLine_eq_iff {line : Int} {cs : List Char} {tokens : List (TokenKind × String)} :
    lexLine line cs = (tokens, none) ↔
      ∃ segments, spelling segments = cs ∧ tokensIn segments = tokens ∧ Divides segments := by
  constructor
  · intro h
    -- A step of the lexer gives a segment, unless it fails, which is excluded.
    fun_induction lexLine line cs generalizing tokens with
    | case1 =>
      cases h
      exact ⟨[], rfl, rfl, trivial⟩
    | case2 c tail hgap ih =>
      obtain ⟨segments, rfl, rfl, hdivides⟩ := ih h
      obtain ⟨segments', hdivides', htext, htokens⟩ := exists_divides_gap hgap hdivides
      exact ⟨segments', htext, htokens, hdivides'⟩
    | case3 c tail hgap text rest whole nonempty hscan _ ih =>
      obtain ⟨segments, rfl, rfl, hdivides⟩ := ih h
      have hcomment : (scan (c :: tail)).comment? = some (text, spelling segments) := by
        rw [hscan]
        rfl
      obtain ⟨segment, hstands, htext, hnone⟩ := exists_comment_of_scan hcomment
      exact ⟨segment :: segments, htext, List.filterMap_cons_none hnone, hstands, hdivides⟩
    | case4 => cases h
    | case5 => cases h
    | case6 => cases h
    | case7 c tail hgap kind text rest whole nonempty hscan hdefect _ tokens' failure hrest ih =>
      obtain ⟨rfl, rfl⟩ := Prod.mk.inj h
      obtain ⟨segments, rfl, rfl, hdivides⟩ := ih hrest
      have hfront := scan_isLongest (c :: tail)
      rw [hscan] at hfront
      have hreadable : Readable kind text := by
        intro hnumber
        rw [dif_pos hnumber] at hdefect
        exact integerDefect?_eq_none_iff.mp hdefect
      exact ⟨.token kind text :: segments, whole, rfl, ⟨hfront.1, hfront.2, hreadable⟩, hdivides⟩
  · rintro ⟨segments, rfl, rfl, hdivides⟩
    exact hdivides.lexLine_eq line

/-! ### Reserved words -/

/-- The reserved words, each with the kind of its tokens. -/
def reservedWords : List (String × TokenKind) :=
  [("let", .letWord), ("fn", .fnWord), ("import", .importWord), ("return", .returnWord),
    ("as", .asWord), ("if", .ifWord), ("true", .boolean), ("false", .boolean)]

theorem lexeme_of_reserved {word : String × TokenKind} (h : word ∈ reservedWords) :
    Lexeme word.2 word.1.toList := by
  have hstart : ∀ w ∈ reservedWords, w.1.toList.head?.any isWordStart = true := by decide
  have hparts : ∀ w ∈ reservedWords, w.1.toList.tail.all isWordPart = true := by decide
  have hkind : ∀ w ∈ reservedWords, wordKind w.1 = w.2 := by decide
  obtain ⟨c, hhead, hc⟩ := (Option.any_eq_true _ _).mp (hstart word h)
  obtain ⟨cs, hcs⟩ := List.head?_eq_some_iff.mp hhead
  have hall : ∀ d ∈ cs, isWordPart d = true := by
    have htail := hparts word h
    rwa [hcs, List.tail_cons, List.all_eq_true] at htail
  have hlexeme := Lexeme.word hc hall
  rw [← hcs, String.ofList_toList, hkind word h] at hlexeme
  exact hlexeme

theorem mem_reservedWords_wordKind (word : String) :
    (word, wordKind word) ∈ reservedWords ∨ wordKind word = .identifier := by
  unfold wordKind
  simp only [Bool.or_eq_true, decide_eq_true_eq]
  repeat' split
  all_goals first
    | exact .inr rfl
    | next h =>
      subst h
      exact .inl (by decide)
    | next h =>
      rcases h with rfl | rfl
      · exact .inl (by decide)
      · exact .inl (by decide)

/-- A token has the kind of a reserved word exactly if it is this word. -/
theorem Lexeme.reserved {kind : TokenKind} {text : List Char} (h : Lexeme kind text) :
    (String.ofList text, kind) ∈ reservedWords ∨
      String.ofList text ∉ reservedWords.map Prod.fst ∧ kind ∉ reservedWords.map Prod.snd := by
  by_cases hspelled : String.ofList text ∈ reservedWords.map Prod.fst
  · obtain ⟨⟨word, kind'⟩, hmem, hword⟩ := List.mem_map.mp hspelled
    have hlexeme : Lexeme kind' text := by
      have hreserved := lexeme_of_reserved hmem
      rw [hword, String.toList_ofList] at hreserved
      exact hreserved
    rw [← hword, h.kind_unique hlexeme]
    exact .inl hmem
  · refine .inr ⟨hspelled, ?_⟩
    cases h with
    | number => decide
    | float => decide
    | string => decide
    | word =>
      rcases mem_reservedWords_wordKind (String.ofList _) with hmem | hother
      · exact absurd (List.mem_map_of_mem hmem) hspelled
      · rw [hother]
        decide
    | sign hsign =>
      have hsigns : ∀ sign ∈ signs, sign.1 ∉ reservedWords.map Prod.snd := by decide
      exact hsigns _ hsign

/-! ### Tokens with spaces between them -/

/-- Tokens with single spaces between them. -/
def spaced : List (TokenKind × String) → List Segment
  | [] => []
  | [t] => [.token t.1 t.2.toList]
  | t :: u :: tokens => .token t.1 t.2.toList :: .gap [' '] :: spaced (u :: tokens)

section Spaced

variable {tokens : List (TokenKind × String)}

theorem tokensIn_spaced : tokensIn (spaced tokens) = tokens := by
  fun_induction spaced tokens with
  | case1 => rfl
  | case2 t => simp [tokensIn, Segment.token?]
  | case3 t u tokens ih =>
    change (t.1, String.ofList t.2.toList) :: tokensIn (spaced (u :: tokens)) = _
    rw [ih, String.ofList_toList]

theorem spelling_spaced :
    spelling (spaced tokens) = (" ".intercalate (tokens.map Prod.snd)).toList := by
  rw [String.toList_intercalate]
  fun_induction spaced tokens with
  | case1 => rfl
  | case2 t => simp [spelling, Segment.text]
  | case3 t u tokens ih =>
    rw [spelling_cons, spelling_cons, ih]
    simp [Segment.text]

theorem divides_spaced (h : ∀ t ∈ tokens, Lexeme t.1 t.2.toList ∧ Readable t.1 t.2.toList) :
    Divides (spaced tokens) := by
  fun_induction spaced tokens with
  | case1 => trivial
  | case2 t =>
    obtain ⟨hlexeme, hreadable⟩ := h t List.mem_cons_self
    exact ⟨⟨hlexeme, hlexeme.longest (by simp), hreadable⟩, trivial⟩
  | case3 t u tokens ih =>
    obtain ⟨hlexeme, hreadable⟩ := h t List.mem_cons_self
    obtain ⟨hnext, -⟩ := h u (List.mem_cons_of_mem t List.mem_cons_self)
    have hspace : ∀ c ∈ [' '], isGap c = true := List.forall_mem_singleton.mpr rfl
    have hbehind : ∀ c ∈ (spelling (spaced (u :: tokens))).head?, isGap c = false := by
      obtain ⟨d, tail, htext, hd⟩ := hnext.exists_cons
      have hfront : ∃ more, spelling (spaced (u :: tokens)) = u.2.toList ++ more := by
        cases tokens with
        | nil => exact ⟨[], rfl⟩
        | cons v tokens => exact ⟨_, rfl⟩
      obtain ⟨more, hmore⟩ := hfront
      rw [hmore, htext]
      rintro c ⟨rfl⟩
      exact hd
    refine ⟨⟨hlexeme, hlexeme.longest ?_, hreadable⟩, ⟨by simp, hspace, hbehind⟩,
      ih fun t' ht' => h t' (List.mem_cons_of_mem t ht')⟩
    rintro c ⟨rfl⟩
    rfl

end Spaced

/-- What the lexer makes of a line. If it finds no failure, then
* the line is what its segments make, tokens and what is skipped, none of which could be longer;
* an integer is within the range, and a token is of a reserved kind exactly if it is reserved;
* the tokens with single spaces between them are read as the same tokens. -/
theorem lexLine_divides {line : Int} {cs : List Char} {tokens : List (TokenKind × String)}
    (h : lexLine line cs = (tokens, none)) :
    (∃ segments, spelling segments = cs ∧ tokensIn segments = tokens ∧ Divides segments) ∧
      (∀ t ∈ tokens,
        (t.1 = .number → (Number.digitsValue t.2.toList : Int) ≤ Number.intMax) ∧
        ((t.2, t.1) ∈ reservedWords ∨
          t.2 ∉ reservedWords.map Prod.fst ∧ t.1 ∉ reservedWords.map Prod.snd)) ∧
      ∀ line', lexLine line' (" ".intercalate (tokens.map Prod.snd)).toList = (tokens, none) := by
  obtain ⟨segments, -, rfl, hdivides⟩ := lexLine_eq_iff.mp h
  have htokens : ∀ t ∈ tokensIn segments, Lexeme t.1 t.2.toList ∧ Readable t.1 t.2.toList :=
    fun t ht => hdivides.tokens t ht
  refine ⟨lexLine_eq_iff.mp h, fun t ht => ⟨fun hnumber => ((htokens t ht).2 hnumber).2, ?_⟩,
    fun line' => ?_⟩
  · have hreserved := (htokens t ht).1.reserved
    rw [String.ofList_toList] at hreserved
    exact hreserved
  · rw [← spelling_spaced, (divides_spaced htokens).lexLine_eq, tokensIn_spaced]

theorem lexLine_divides_comments :
    lexLine 1 "1.5.2/*/ \"*/-true//!".toList =
        ([(.float, "1.5"), (.dot, "."), (.number, "2"), (.minus, "-"), (.boolean, "true")], none) ∧
      (∃ segments, spelling segments = "1.5.2/*/ \"*/-true//!".toList ∧
        tokensIn segments =
          [(.float, "1.5"), (.dot, "."), (.number, "2"), (.minus, "-"), (.boolean, "true")] ∧
        Divides segments) ∧
      lexLine 1 "1.5 . 2 - true".toList =
        ([(.float, "1.5"), (.dot, "."), (.number, "2"), (.minus, "-"), (.boolean, "true")], none) := by
  have hread : lexLine 1 "1.5.2/*/ \"*/-true//!".toList =
      ([(.float, "1.5"), (.dot, "."), (.number, "2"), (.minus, "-"), (.boolean, "true")], none) := by
    decide +kernel
  obtain ⟨hdivision, -, hspaced⟩ := lexLine_divides hread
  exact ⟨hread, hdivision, hspaced 1⟩

end ModuLang.Source
