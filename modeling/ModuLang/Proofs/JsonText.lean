import ModuLang.Json.Reader
import ModuLang.Json.Writer
import ModuLang.Proofs.DecimalText
import ModuLang.Proofs.HeldValues
import ModuLang.Proofs.ParserEquations
import ModuLang.Proofs.TableLookup

/-!
# Documents and their texts

A document without floats is read back from its compact form. The reader is followed along the text:
in front of it stands the form of a part, and behind that whatever may follow a part, which is the end,
a comma or a closing bracket. The part is read, and what follows is left. For a number this needs that
no digit, point or exponent can follow; a string knows its own end, because every quote inside it is
escaped.
-/

namespace ModuLang.Json

open Text

variable {α β : Type} {n k : Nat}

/-! ### Steps that read -/

/-- Whether a step of the reader gives a value and leaves a rest. -/
def Reads (r : Except ReadFailure (Parsed Char α n)) (a : α) (rest : List Char) : Prop :=
  ∃ shorter, r = .ok ⟨a, rest, shorter⟩

theorem Reads.bind {x : Except ReadFailure (Parsed Char α n)} {a : α} {b : β} {left rest : List Char}
    {f : Parsed Char α n → Except ReadFailure (Parsed Char β k)} (hx : Reads x a left)
    (hf : ∀ shorter, Reads (f ⟨a, left, shorter⟩) b rest) : Reads (x >>= f) b rest := by
  obtain ⟨shorter, rfl⟩ := hx
  exact hf shorter

/-! ### Strings -/

/-- The four digits of a number below `2 ^ 16` stand for it. -/
theorem hexNumber?_hexDigits {unit : Nat} (h : unit < 0x10000) :
    ∃ a b c d, hexDigits 4 unit = [a, b, c, d] ∧ hexNumber? a b c d = some unit := by
  have hvalue : ∀ d : Fin 16, hexValue? (hexDigit d) = some d.val := by decide
  have hdigit : ∀ d, hexValue? (hexDigit (d % 16)) = some (d % 16) := fun d =>
    hvalue ⟨d % 16, Nat.mod_lt d (by decide)⟩
  refine ⟨_, _, _, _, rfl, ?_⟩
  simp only [hexNumber?, hdigit, Option.bind_eq_bind, Option.bind_some, Option.pure_def,
    Option.some.injEq]
  omega

/-- A character of a string is written by a letter, by its number, or as it is. -/
theorem escapeChar_cases (c : Char) :
    (∃ letter, letter ≠ 'u' ∧ escapeMeaning? letter = some c ∧ escapeChar c = ['\\', letter]) ∨
      (c.toNat < 0x20 ∧ escapeChar c = '\\' :: 'u' :: hexDigits 4 c.toNat) ∨
      (c ≠ '"' ∧ c ≠ '\\' ∧ ¬c.toNat < 0x20 ∧ escapeChar c = [c]) := by
  by_cases hletter : c ∈ ['"', '\\', '\n', '\r', '\t', '\x0c', '\x08']
  · refine .inl ?_
    simp only [List.mem_cons, List.not_mem_nil, or_false] at hletter
    rcases hletter with rfl | rfl | rfl | rfl | rfl | rfl | rfl
    all_goals exact ⟨_, by decide, rfl, rfl⟩
  · simp only [List.mem_cons, List.not_mem_nil, or_false, not_or] at hletter
    obtain ⟨hquote, hbackslash, hn, hr, ht, hf, hb⟩ := hletter
    by_cases hcontrol : c.toNat < 0x20
    · refine .inr (.inl ⟨hcontrol, ?_⟩)
      simp only [escapeChar, if_neg hquote, if_neg hbackslash, if_neg hn, if_neg hr, if_neg ht,
        if_neg hf, if_neg hb, if_pos hcontrol]
    · refine .inr (.inr ⟨hquote, hbackslash, hcontrol, ?_⟩)
      simp only [escapeChar, if_neg hquote, if_neg hbackslash, if_neg hn, if_neg hr, if_neg ht,
        if_neg hf, if_neg hb, if_neg hcontrol]

/-- The form of a character in a string stands for the character. -/
theorem stringStep_escapeChar (c next : Char) (rest : List Char) :
    ∃ shorter, stringStep (escapeChar c ++ next :: rest) = .char c (next :: rest) shorter := by
  rcases escapeChar_cases c with ⟨letter, hu, hmeaning, heq⟩ | ⟨hcontrol, heq⟩ |
    ⟨hquote, hbackslash, hcontrol, heq⟩
  · rw [heq]
    refine ⟨by simp, ?_⟩
    simp only [List.cons_append, List.nil_append, stringStep.eq_5 _ _ hu, hmeaning]
  · -- The number of a control character is no surrogate.
    have hsurrogate : ¬0xD800 ≤ c.toNat := by omega
    have hsmall : c.toNat < 0x10000 := by omega
    obtain ⟨a, b, d, e, hdigits, hnumber⟩ := hexNumber?_hexDigits hsmall
    rw [heq, hdigits]
    refine ⟨by simp only [List.cons_append, List.nil_append, List.length_cons]; omega, ?_⟩
    have hpartner : partner c.toNat (next :: rest) = .none := by simp [partner, hsurrogate]
    have hunit : unitChar c.toNat = c := by simp [unitChar, hsurrogate]
    simp only [List.cons_append, List.nil_append, stringStep, unicodeEscape, hnumber, hpartner, hunit]
  · rw [heq]
    refine ⟨by simp, ?_⟩
    have hraw : stringStep (c :: next :: rest) =
        if c.toNat < 0x20 then .failed .invalidControl (c :: next :: rest)
        else .char c (next :: rest) (by simp) :=
      stringStep.eq_6 c (next :: rest) hquote (fun h _ => hbackslash h) (fun _ h _ => hbackslash h)
        fun _ _ h _ => hbackslash h
    rw [if_neg hcontrol] at hraw
    exact hraw

/-- A string is read up to the quote that closes it. -/
theorem reads_stringRest (start cs rest : List Char) :
    Reads (stringRest start (cs.flatMap escapeChar ++ '"' :: rest)) cs rest := by
  induction cs with
  | nil =>
    refine ⟨by simp, ?_⟩
    rw [stringRest]
    rfl
  | cons c cs ih =>
    -- Behind the form of the first character there is at least the closing quote.
    obtain ⟨next, tail, htail⟩ : ∃ next tail, cs.flatMap escapeChar ++ '"' :: rest = next :: tail := by
      cases hmore : cs.flatMap escapeChar ++ '"' :: rest with
      | nil => simp at hmore
      | cons next tail => exact ⟨next, tail, rfl⟩
    rw [List.flatMap_cons, List.append_assoc]
    rw [htail] at ih ⊢
    obtain ⟨shorter, hstep⟩ := stringStep_escapeChar c next tail
    obtain ⟨shorterRest, hrest⟩ := ih
    refine ⟨Nat.lt_trans shorterRest shorter, ?_⟩
    rw [stringRest, hstep]
    simp only [hrest]
    rfl

/-! ### What may follow a part -/

/-- Whether a text may stand behind a part of a document. -/
def Delimits (rest : List Char) : Prop :=
  ∀ c ∈ rest.head?, c = ',' ∨ c = ']' ∨ c = '\x7d'

section Delimiters

variable {rest : List Char}

theorem delimits_nil : Delimits [] := by
  intro c hc
  cases hc

theorem delimits_cons {c : Char} (hc : c = ',' ∨ c = ']' ∨ c = '\x7d') (rest : List Char) :
    Delimits (c :: rest) := by
  intro d hd
  cases hd
  exact hc

/-- What may follow a part begins with no character of a class that has neither commas nor closing
brackets. -/
theorem Delimits.dropWhile {p : Char → Bool} (h : Delimits rest) (hcomma : p ',' = false)
    (hbracket : p ']' = false) (hbrace : p '\x7d' = false) : rest.dropWhile p = rest := by
  cases rest with
  | nil => rfl
  | cons c rest =>
    refine List.dropWhile_cons_of_neg ?_
    rcases h c rfl with rfl | rfl | rfl
    · simp [hcomma]
    · simp [hbracket]
    · simp [hbrace]

theorem Delimits.fractionDigits (h : Delimits rest) : fractionDigits rest = (none, rest) := by
  refine fractionDigits.eq_2 rest fun d behind heq => ?_
  subst heq
  exact absurd (h '.' rfl) (by decide)

theorem Delimits.exponentPart (h : Delimits rest) : exponentPart rest = (none, rest) := by
  cases rest with
  | nil => rfl
  | cons c rest =>
    rcases h c rfl with rfl | rfl | rfl
    all_goals rfl

end Delimiters

/-! ### Scalars -/

section Scalars

variable {rest : List Char}

/-- The digits of a number are read up to what follows. -/
theorem wholeDigits_toDigits (size : Nat) (h : Delimits rest) :
    wholeDigits (Nat.toDigits 10 size ++ rest) = (Nat.toDigits 10 size, rest) := by
  rcases Nat.eq_zero_or_pos size with rfl | hpos
  · rfl
  · obtain ⟨c, cs, hdigits, hc⟩ := Number.exists_toDigits_eq_cons hpos
    have hall : ∀ d ∈ Nat.toDigits 10 size, isBasicDigit d = true := fun d hd =>
      Number.isBasicDigit_of_mem_toDigits hd
    have hrest : rest.dropWhile isBasicDigit = rest := h.dropWhile (by decide) (by decide) (by decide)
    have hnone : rest.takeWhile isBasicDigit = [] := by
      have happend := List.takeWhile_append_dropWhile (p := isBasicDigit) (l := rest)
      rw [hrest] at happend
      simpa using happend
    have hzero : ∀ behind, Nat.toDigits 10 size ++ rest = '0' :: behind → False := by
      intro behind heq
      rw [hdigits] at heq
      exact hc (List.cons.inj heq).1
    rw [wholeDigits.eq_2 _ hzero, List.takeWhile_append_of_pos hall,
      List.dropWhile_append_of_pos hall, hnone, hrest, List.append_nil]

theorem takeUnsigned?_toDigits (negative : Bool) (size : Nat) (h : Delimits rest) :
    takeUnsigned? negative (Nat.toDigits 10 size ++ rest) =
      some (⟨negative, Nat.toDigits 10 size, none, none⟩, rest) := by
  have hempty : ¬(Nat.toDigits 10 size).isEmpty = true := by
    rw [List.isEmpty_iff]
    exact Nat.toDigits_ne_nil
  simp only [takeUnsigned?, wholeDigits_toDigits size h, h.fractionDigits, h.exponentPart, if_neg hempty]

theorem isSpace_eq_false_of_isBasicDigit {c : Char} (h : isBasicDigit c = true) : isSpace c = false := by
  rw [← Bool.not_eq_true]
  intro hspace
  simp only [isSpace, Bool.or_eq_true, beq_iff_eq] at hspace
  rcases hspace with ((rfl | rfl) | rfl) | rfl
  all_goals cases h

/-- The digits of a number begin with a digit. -/
theorem exists_toDigits_eq_digit (size : Nat) :
    ∃ c cs, Nat.toDigits 10 size = c :: cs ∧ isBasicDigit c = true := by
  cases hdigits : Nat.toDigits 10 size with
  | nil => exact absurd hdigits Nat.toDigits_ne_nil
  | cons c cs =>
    refine ⟨c, cs, rfl, Number.isBasicDigit_of_mem_toDigits (n := size) ?_⟩
    rw [hdigits]
    exact List.mem_cons_self

/-- No word begins like a number: behind the minus of a word stands no digit. -/
theorem find?_words {cs : List Char} {d : Char} (hd : isBasicDigit d = true)
    (hcs : cs.find? (· != '-') = some d) :
    words.find? (fun word => word.1.isPrefixOf cs) = none := by
  have hwords : ∀ word ∈ words, (word.1.find? (· != '-')).any (fun c => !isBasicDigit c) = true := by
    decide
  rw [List.find?_eq_none]
  intro word hword hprefix
  obtain ⟨behind, rfl⟩ := List.isPrefixOf_iff_prefix.mp hprefix
  obtain ⟨c, hc, hdigit⟩ := (Option.any_eq_true _ _).mp (hwords word hword)
  rw [List.find?_append, hc, Option.some_or, Option.some.injEq] at hcs
  rw [hcs, hd] at hdigit
  cases hdigit

/-- The text of an integer is split off as its sign and its digits. -/
theorem takeNumeral?_toString (n : Int) (h : Delimits rest) :
    takeNumeral? ((toString n).toList ++ rest) =
      some (⟨decide (n < 0), Nat.toDigits 10 n.natAbs, none, none⟩, rest) := by
  rw [Number.toList_toString_int]
  by_cases hn : n < 0
  · rw [if_pos hn]
    simp only [hn, decide_true]
    exact takeUnsigned?_toDigits true _ h
  · rw [if_neg hn, List.nil_append]
    simp only [hn, decide_false]
    refine (takeNumeral?.eq_2 _ fun behind heq => ?_).trans (takeUnsigned?_toDigits false _ h)
    obtain ⟨c, cs, hdigits, hc⟩ := exists_toDigits_eq_digit n.natAbs
    rw [hdigits] at heq
    rw [(List.cons.inj heq).1] at hc
    cases hc

/-- A document that begins with no quote and no opening bracket is a word or a number. -/
theorem document_eq_scalar (levels : Nat) {c : Char} (tail : List Char) (hquote : c ≠ '"')
    (hbracket : c ≠ '[') (hbrace : c ≠ '\x7b') :
    document levels (c :: tail) = scalar (c :: tail) :=
  document.eq_6 levels (c :: tail) (fun _ heq => hquote (List.cons.inj heq).1)
    (fun _ _ heq => hbracket (List.cons.inj heq).1) (fun _ _ heq => hbrace (List.cons.inj heq).1)
    (fun _ _ _ heq => hbracket (List.cons.inj heq).1) fun _ _ _ heq => hbrace (List.cons.inj heq).1

/-- A document is a string, an array, an object, a word or a number. -/
theorem document_cases (cs : List Char) :
    (∃ tail, cs = '"' :: tail) ∨ (∃ tail, cs = '[' :: tail) ∨ (∃ tail, cs = '\x7b' :: tail) ∨
      ∀ levels, document levels cs = scalar cs := by
  cases cs with
  | nil => exact .inr (.inr (.inr fun levels => by rw [document.eq_6] <;> simp))
  | cons c tail =>
    by_cases hquote : c = '"'
    · exact .inl ⟨tail, by rw [hquote]⟩
    by_cases hbracket : c = '['
    · exact .inr (.inl ⟨tail, by rw [hbracket]⟩)
    by_cases hbrace : c = '\x7b'
    · exact .inr (.inr (.inl ⟨tail, by rw [hbrace]⟩))
    exact .inr (.inr (.inr fun levels => document_eq_scalar levels tail hquote hbracket hbrace))

/-- A word is read. -/
theorem reads_word (levels : Nat) (c : Char) (tail rest : List Char) {j : Json}
    (hword : words.find? (fun word => word.1.isPrefixOf (c :: (tail ++ rest))) = some (c :: tail, j))
    (hquote : c ≠ '"') (hbracket : c ≠ '[') (hbrace : c ≠ '\x7b') :
    Reads (document levels (c :: (tail ++ rest))) j rest := by
  rw [document_eq_scalar levels _ hquote hbracket hbrace, scalar.eq_2, hword]
  have hrest : (tail ++ rest).drop ((c :: tail).length - 1) = rest := by simp
  have hshorter : rest.length < (c :: (tail ++ rest)).length := by
    rw [List.length_cons, List.length_append]
    omega
  refine ⟨hshorter, ?_⟩
  simp only [hrest]
  rfl

/-- A number that is no word is read. -/
theorem reads_scalar_numeral {c : Char} {tail rest : List Char} {numeral : Numeral} {j : Json}
    (hwords : words.find? (fun word => word.1.isPrefixOf (c :: tail)) = none)
    (hnumeral : takeNumeral? (c :: tail) = some (numeral, rest)) (hj : numeral.toJson = .ok j) :
    Reads (scalar (c :: tail)) j rest := by
  refine ⟨length_takeNumeral?_lt hnumeral, ?_⟩
  rw [scalar.eq_2, hwords]
  simp only
  split
  · next hnone => rw [hnone] at hnumeral; cases hnumeral
  · next found left hsome =>
    rw [hsome] at hnumeral
    cases hnumeral
    rw [hj]
    rfl

/-- The text of an integer begins with a minus or a digit, and behind the minus stands a digit. -/
theorem exists_toString_eq_cons (n : Int) :
    ∃ c tail, (toString n).toList = c :: tail ∧ (c = '-' ∨ isBasicDigit c = true) ∧
      ∀ rest, ∃ d, isBasicDigit d = true ∧ (c :: tail ++ rest).find? (· != '-') = some d := by
  obtain ⟨d, ds, hdigits, hd⟩ := exists_toDigits_eq_digit n.natAbs
  have hminus : (d != '-') = true := by
    rw [bne_iff_ne]
    rintro rfl
    cases hd
  rw [Number.toList_toString_int, hdigits]
  by_cases hn : n < 0
  · refine ⟨'-', d :: ds, by simp [hn], .inl rfl, fun rest => ⟨d, hd, by simp [hminus]⟩⟩
  · refine ⟨d, ds, by simp [hn], .inr hd, fun rest => ⟨d, hd, by simp [hminus]⟩⟩

/-- An integer of few enough digits is read from its text. -/
theorem reads_int {n : Int} (hn : (Nat.toDigits 10 n.natAbs).length ≤ Number.digitLimit)
    (h : Delimits rest) (levels : Nat) :
    Reads (document levels ((toString n).toList ++ rest)) (.int n) rest := by
  have hsign : (if n < 0 then -(n.natAbs : Int) else n.natAbs) = n := by
    split <;> omega
  have hvalue : (⟨decide (n < 0), Nat.toDigits 10 n.natAbs, none, none⟩ : Numeral).toJson =
      .ok (.int n) := by
    simp only [Numeral.toJson, if_neg (Nat.not_lt.mpr hn), Number.digitsValue_toDigits,
      decide_eq_true_eq, hsign]
  have hnumeral := takeNumeral?_toString n h
  obtain ⟨c, tail, htext, hfirst, hfind⟩ := exists_toString_eq_cons n
  obtain ⟨d, hd, hfind⟩ := hfind rest
  rw [htext] at hnumeral ⊢
  -- The first character tells that it is neither a string nor a container, and the first behind a
  -- minus that it is no word.
  have hwords := find?_words hd hfind
  have hdocument : document levels (c :: (tail ++ rest)) = scalar (c :: (tail ++ rest)) := by
    refine document_eq_scalar levels _ ?_ ?_ ?_
    all_goals
      rintro rfl
      exact absurd hfirst (by decide)
  rw [List.cons_append, hdocument]
  exact reads_scalar_numeral hwords hnumeral hvalue

end Scalars

/-! ### Arrays and objects -/

/-- Whether a text begins as a part of a document does: with no space, closing bracket or byte order
mark. -/
def Begins (cs : List Char) : Prop :=
  ∃ c tail, cs = c :: tail ∧ isSpace c = false ∧ c ∉ [']', '\uFEFF']

theorem Begins.append {cs : List Char} (h : Begins cs) (rest : List Char) : Begins (cs ++ rest) := by
  obtain ⟨c, tail, rfl, hspace, hbracket⟩ := h
  exact ⟨c, tail ++ rest, rfl, hspace, hbracket⟩

theorem Begins.skipSpace {cs : List Char} (h : Begins cs) : skipSpace cs = cs := by
  obtain ⟨c, tail, rfl, hspace, -⟩ := h
  exact List.dropWhile_cons_of_neg (by simp [hspace])

/-- A list with commas begins as its first part does. -/
theorem Begins.intercalate {first : List Char} (h : Begins first) (parts : List (List Char)) :
    Begins ([','].intercalate (first :: parts)) := by
  cases parts with
  | nil =>
    rw [List.intercalate_singleton]
    exact h
  | cons second parts =>
    rw [List.intercalate_cons_cons, List.append_assoc]
    exact h.append _

/-- Whether a step of the reader reads a document wherever its form stands in front of something that
may follow. -/
def ReadsForm (item : Reader Json) (j : Json) : Prop :=
  Begins j.text.toList ∧
    ∀ rest, Delimits rest → Reads (item (j.text.toList ++ rest)) j rest

section Lists

variable {item : Reader Json} {rest : List Char}

theorem reads_arrayItems_close {cs : List Char} {first : Json}
    (h : Reads (item cs) first (']' :: rest)) : Reads (arrayItems item cs) [first] rest := by
  rw [arrayItems]
  refine h.bind fun shorter => ?_
  split
  · next left heq => cases heq; exact ⟨_, rfl⟩
  · next left heq => cases heq
  · next hother _ => exact absurd rfl (hother rest)

theorem reads_arrayItems_comma {cs behind : List Char} {first : Json} {more : List Json}
    (h : Reads (item cs) first (',' :: behind))
    (hmore : Reads (arrayItems item (skipSpace behind)) more rest) :
    Reads (arrayItems item cs) (first :: more) rest := by
  rw [arrayItems]
  refine h.bind fun shorter => ?_
  split
  · next left heq => cases heq
  · next left heq =>
    cases heq
    exact hmore.bind fun shorter => ⟨_, rfl⟩
  · next _ hother => exact absurd rfl (hother behind)

/-- Items between commas are read up to the closing bracket. -/
theorem reads_arrayItems {first : Json} {items : List Json}
    (h : ∀ j ∈ first :: items, ReadsForm item j) :
    Reads (arrayItems item
      ([','].intercalate ((first :: items).map (·.text.toList)) ++ ']' :: rest)) (first :: items) rest := by
  induction items generalizing first with
  | nil =>
    rw [List.map_singleton, List.intercalate_singleton]
    refine reads_arrayItems_close ?_
    exact (h first List.mem_cons_self).2 (']' :: rest) (delimits_cons (by decide) rest)
  | cons second items ih =>
    have hsecond : Begins ([','].intercalate ((second :: items).map (·.text.toList)) ++ ']' :: rest) :=
      ((h second (by simp)).1.intercalate _).append _
    have hmore := ih fun j hj => h j (List.mem_cons_of_mem first hj)
    rw [← hsecond.skipSpace] at hmore
    have hform : [','].intercalate ((first :: second :: items).map (·.text.toList)) ++ ']' :: rest =
        first.text.toList ++
          ',' :: ([','].intercalate ((second :: items).map (·.text.toList)) ++ ']' :: rest) := by
      simp [List.intercalate_cons_cons]
    rw [hform]
    refine reads_arrayItems_comma ?_ hmore
    exact (h first List.mem_cons_self).2 _ (delimits_cons (.inl rfl) _)

/-- What begins as a part does is read as the items of an array. -/
theorem reads_arrayRest_items {cs : List Char} {items : List Json} (hcs : Begins cs)
    (h : Reads (arrayItems item cs) items rest) : Reads (arrayRest item cs) (.array items) rest := by
  unfold arrayRest
  have hskip := hcs.skipSpace
  obtain ⟨c, tail, rfl, -, hbracket⟩ := hcs
  split
  · next left hleft =>
    rw [hskip] at hleft
    exact absurd (List.cons.inj hleft).1 fun heq => hbracket (by simp [heq])
  · rw [← hskip] at h
    exact h.bind fun shorter => ⟨_, rfl⟩

/-- An array is read up to its closing bracket. -/
theorem reads_arrayRest {items : List Json} (h : ∀ j ∈ items, ReadsForm item j) :
    Reads (arrayRest item ([','].intercalate (items.map (·.text.toList)) ++ ']' :: rest))
      (.array items) rest := by
  cases items with
  | nil => exact ⟨_, rfl⟩
  | cons first items =>
    refine reads_arrayRest_items ?_ (reads_arrayItems h)
    exact ((h first List.mem_cons_self).1.intercalate _).append _

/-- The form of a member of an object. -/
def memberForm (member : String × Json) : List Char :=
  '"' :: member.1.toList.flatMap escapeChar ++ '"' :: ':' :: member.2.text.toList

theorem begins_memberForm (member : String × Json) : Begins (memberForm member) :=
  ⟨'"', _, rfl, rfl, by decide⟩

/-- The name of a member is read up to the colon. -/
theorem reads_memberName (name : String) (rest : List Char) :
    Reads (memberName ('"' :: name.toList.flatMap escapeChar ++ '"' :: ':' :: rest)) name rest := by
  have hname := reads_stringRest ('"' :: name.toList.flatMap escapeChar ++ '"' :: ':' :: rest)
    name.toList (':' :: rest)
  refine hname.bind fun shorter => ?_
  split
  · next left heq =>
    cases heq
    exact ⟨_, by rw [String.ofList_toList]; rfl⟩
  · next hother => exact absurd rfl (hother rest)

/-- A member is read up to what follows its value. -/
theorem reads_objectMembers_member {member : String × Json} (h : ReadsForm item member.2)
    {left : List Char} {members : List (String × Json)} (hleft : Delimits left)
    (hmore : left = '\x7d' :: rest ∧ members = [] ∨
      ∃ behind, left = ',' :: behind ∧ Reads (objectMembers item (skipSpace behind)) members rest) :
    Reads (objectMembers item (memberForm member ++ left)) (member :: members) rest := by
  obtain ⟨name, j⟩ := member
  obtain ⟨hbegins, hread⟩ := h
  have hname := reads_memberName name (j.text.toList ++ left)
  have hvalue := hread left hleft
  rw [← (hbegins.append left).skipSpace] at hvalue
  have hform : memberForm (name, j) ++ left =
      '"' :: name.toList.flatMap escapeChar ++ '"' :: ':' :: (j.text.toList ++ left) := by
    simp [memberForm]
  rw [hform, objectMembers]
  refine hname.bind fun shorter => ?_
  refine hvalue.bind fun shorter => ?_
  rcases hmore with ⟨rfl, rfl⟩ | ⟨behind, rfl, hmore⟩
  · split
    · next left heq => cases heq; exact ⟨_, rfl⟩
    · next left heq => cases heq
    · next hother _ => exact absurd rfl (hother rest)
  · split
    · next left heq => cases heq
    · next left heq =>
      cases heq
      exact hmore.bind fun shorter => ⟨_, rfl⟩
    · next _ hother => exact absurd rfl (hother behind)

/-- Members between commas are read up to the closing brace. -/
theorem reads_objectMembers {first : String × Json} {members : List (String × Json)}
    (h : ∀ member ∈ first :: members, ReadsForm item member.2) (rest : List Char) :
    Reads (objectMembers item ([','].intercalate ((first :: members).map memberForm) ++ '\x7d' :: rest))
      (first :: members) rest := by
  induction members generalizing first with
  | nil =>
    rw [List.map_singleton, List.intercalate_singleton]
    exact reads_objectMembers_member (h first List.mem_cons_self)
      (delimits_cons (by decide) rest) (.inl ⟨rfl, rfl⟩)
  | cons second members ih =>
    have hsecond : Begins ([','].intercalate ((second :: members).map memberForm) ++ '\x7d' :: rest) :=
      ((begins_memberForm second).intercalate _).append _
    have hmore := ih fun member hmember => h member (List.mem_cons_of_mem first hmember)
    rw [← hsecond.skipSpace] at hmore
    have hform : [','].intercalate ((first :: second :: members).map memberForm) ++ '\x7d' :: rest =
        memberForm first ++
          ',' :: ([','].intercalate ((second :: members).map memberForm) ++ '\x7d' :: rest) := by
      simp [List.intercalate_cons_cons]
    rw [hform]
    exact reads_objectMembers_member (h first List.mem_cons_self)
      (delimits_cons (.inl rfl) _) (.inr ⟨_, rfl, hmore⟩)

/-- An object whose members have different names is read up to its closing brace. -/
theorem reads_objectRest {members : List (String × Json)} (hnames : (members.map Prod.fst).Nodup)
    (h : ∀ member ∈ members, ReadsForm item member.2) :
    Reads (objectRest item ([','].intercalate (members.map memberForm) ++ '\x7d' :: rest))
      (.object members) rest := by
  cases members with
  | nil => exact ⟨_, rfl⟩
  | cons first members =>
    -- The reader lets the last member of a name win; here each name is the only one.
    have htable : (Table.ofList (first :: members)).entries = first :: members :=
      Table.entries_ofList_entries ⟨first :: members, hnames⟩
    have hread := reads_objectMembers h rest
    have hskip := (((begins_memberForm first).intercalate (members.map memberForm)).append
      ('\x7d' :: rest)).skipSpace
    obtain ⟨tail, htail⟩ : ∃ tail,
        [','].intercalate ((first :: members).map memberForm) ++ '\x7d' :: rest = '"' :: tail := by
      cases members with
      | nil => exact ⟨_, rfl⟩
      | cons second members => exact ⟨_, rfl⟩
    rw [List.map_cons] at hread htail ⊢
    rw [htail] at hskip hread ⊢
    unfold objectRest
    split
    · next left hleft =>
      rw [hskip] at hleft
      cases hleft
    · rw [← hskip] at hread
      refine hread.bind fun shorter => ⟨Nat.lt_of_lt_of_le shorter (by simp [hskip]), ?_⟩
      simp only [Parsed.map, Parsed.widen, htable]
      rfl

end Lists

/-! ### Documents -/

/-- Whether a document is neither an array nor an object. -/
def IsScalar : Json → Prop
  | .array _ | .object _ => False
  | _ => True

/-- Whether a document is nested at most the given number of levels deep, the members of every object
in it have different names, and everything else in it has a property. -/
inductive Composed (P : Json → Prop) : Nat → Json → Prop where
  | scalar (levels : Nat) {j : Json} (scalar : j.IsScalar) (property : P j) : Composed P levels j
  | array {levels : Nat} {items : List Json} (each : ∀ item ∈ items, Composed P levels item) :
    Composed P (levels + 1) (.array items)
  | object {levels : Nat} {members : List (String × Json)} (different : (members.map Prod.fst).Nodup)
    (each : ∀ member ∈ members, Composed P levels member.2) :
    Composed P (levels + 1) (.object members)

/-- Whether the text of a document tells what it is: it is no float, and no integer of too many
digits. -/
def Legible : Json → Prop
  | .float _ => False
  | .int n => (Nat.toDigits 10 n.natAbs).length ≤ Number.digitLimit
  | _ => True

theorem itemTexts_eq_map (items : List Json) : itemTexts items = items.map text := by
  induction items with
  | nil => rfl
  | cons item items ih => rw [itemTexts, ih, List.map_cons]

theorem toList_writeString (s : String) :
    (writeString s).toList = '"' :: s.toList.flatMap escapeChar ++ ['"'] :=
  String.toList_ofList

theorem map_toList_memberTexts (members : List (String × Json)) :
    (memberTexts members).map String.toList = members.map memberForm := by
  induction members with
  | nil => rfl
  | cons member members ih =>
    obtain ⟨name, value⟩ := member
    simp [memberTexts, memberForm, toList_writeString, ih]

theorem toList_text_array (items : List Json) :
    (Json.array items).text.toList = '[' :: ([','].intercalate (items.map (·.text.toList)) ++ [']']) := by
  simp [text, itemTexts_eq_map, String.toList_intercalate, Function.comp_def]

theorem toList_text_object (members : List (String × Json)) :
    (Json.object members).text.toList =
      '\x7b' :: ([','].intercalate (members.map memberForm) ++ ['\x7d']) := by
  simp [text, String.toList_intercalate, map_toList_memberTexts]

/-- A string is read from its form, wherever that stands. -/
theorem readsForm_str (levels : Nat) (s : String) : ReadsForm (document levels) (.str s) := by
  refine ⟨⟨'"', _, toList_writeString s, rfl, by decide⟩, fun rest _ => ?_⟩
  have hform : (Json.str s).text.toList ++ rest =
      '"' :: (s.toList.flatMap escapeChar ++ '"' :: rest) := by
    simp [text, toList_writeString]
  rw [hform, document.eq_1]
  refine (reads_stringRest _ s.toList rest).bind fun shorter => ⟨Nat.lt_succ_of_lt shorter, ?_⟩
  simp only [Parsed.map, String.ofList_toList]
  rfl

/-- An integer of few enough digits is read from its form, wherever that stands. -/
theorem readsForm_int (levels : Nat) {n : Int}
    (hn : (Nat.toDigits 10 n.natAbs).length ≤ Number.digitLimit) :
    ReadsForm (document levels) (.int n) := by
  refine ⟨?_, fun rest hrest => reads_int hn hrest levels⟩
  obtain ⟨c, tail, htext, hfirst, -⟩ := exists_toString_eq_cons n
  refine ⟨c, tail, htext, ?_, fun hc => ?_⟩
  · rcases hfirst with rfl | hdigit
    · rfl
    · exact isSpace_eq_false_of_isBasicDigit hdigit
  · simp only [List.mem_cons, List.not_mem_nil, or_false] at hc
    rcases hc with rfl | rfl
    all_goals exact absurd hfirst (by decide)

/-- A scalar that its text tells is read from its form, wherever that stands. -/
theorem readsForm_scalar (levels : Nat) {j : Json} (hscalar : j.IsScalar) (hlegible : j.Legible) :
    ReadsForm (document levels) j := by
  cases j with
  | null =>
    refine ⟨⟨'n', _, rfl, rfl, by decide⟩, fun rest _ => ?_⟩
    exact reads_word levels 'n' "ull".toList rest rfl (by decide) (by decide) (by decide)
  | bool b =>
    cases b with
    | false =>
      refine ⟨⟨'f', _, rfl, rfl, by decide⟩, fun rest _ => ?_⟩
      exact reads_word levels 'f' "alse".toList rest rfl (by decide) (by decide) (by decide)
    | true =>
      refine ⟨⟨'t', _, rfl, rfl, by decide⟩, fun rest _ => ?_⟩
      exact reads_word levels 't' "rue".toList rest rfl (by decide) (by decide) (by decide)
  | int n => exact readsForm_int levels hlegible
  | float x => exact hlegible.elim
  | str s => exact readsForm_str levels s
  | array items => exact hscalar.elim
  | object members => exact hscalar.elim

/-- A document whose text tells all of it is read from its form, wherever that stands. -/
theorem readsForm_of_legible {levels : Nat} {j : Json} (h : j.Composed Legible levels) :
    ReadsForm (document levels) j := by
  induction h with
  | scalar levels hscalar hlegible => exact readsForm_scalar levels hscalar hlegible
  | @array levels items each ih =>
    refine ⟨⟨'[', _, toList_text_array items, rfl, by decide⟩, fun rest hrest => ?_⟩
    rw [toList_text_array, List.cons_append, List.append_assoc, document.eq_4]
    exact reads_arrayRest ih
  | @object levels members different each ih =>
    refine ⟨⟨'\x7b', _, toList_text_object members, rfl, by decide⟩, fun rest hrest => ?_⟩
    rw [toList_text_object, List.cons_append, List.append_assoc, document.eq_5]
    exact reads_objectRest different ih

/-- A document that is not nested too deep and whose text tells all of it is read from its form. -/
theorem parse_text [Host.Limits] {j : Json} (h : j.Composed Legible stackLimit) :
    parse j.text = .ok j := by
  obtain ⟨hbegins, hread⟩ := readsForm_of_legible h
  have hskip := hbegins.skipSpace
  have hroot := hread [] delimits_nil
  rw [List.append_nil] at hroot
  obtain ⟨shorter, hroot⟩ := hroot
  have hmark : ¬(j.text.toList.head? == some '\uFEFF') = true := by
    obtain ⟨c, tail, htext, -, hmark⟩ := hbegins
    rw [htext]
    intro heq
    simp_all
  have hok : read j.text.toList = .ok j := by
    unfold read
    rw [if_neg hmark, hskip, hroot]
    rfl
  rw [parse, hok]

theorem areItemsWritable_eq_all (items : List Json) :
    areItemsWritable items = items.all isWritable := by
  induction items with
  | nil => rfl
  | cons item items ih => rw [areItemsWritable, ih, List.all_cons]

theorem areMembersWritable_eq_all (members : List (String × Json)) :
    areMembersWritable members = members.all fun member => member.2.isWritable := by
  induction members with
  | nil => rfl
  | cons member members ih => rw [areMembersWritable, ih, List.all_cons]

/-- A document whose text tells all of it has no integer that is too long to be written. -/
theorem isWritable_of_legible {levels : Nat} {j : Json} (h : j.Composed Legible levels) :
    j.isWritable = true := by
  induction h with
  | @scalar levels j hscalar hlegible =>
    cases j with
    | int n => exact decide_eq_true hlegible
    | array items => exact hscalar.elim
    | object members => exact hscalar.elim
    | _ => rfl
  | array each ih =>
    rw [isWritable, areItemsWritable_eq_all]
    exact List.all_eq_true.mpr ih
  | object different each ih =>
    rw [isWritable, areMembersWritable_eq_all]
    exact List.all_eq_true.mpr ih

theorem write_of_legible {levels : Nat} {j : Json} (h : j.Composed Legible levels) :
    j.write = .ok j.text :=
  if_pos (isWritable_of_legible h)

/-! ### What is read -/

section Results

variable {item : Reader Json} {Q : Json → Prop} (hitem : ∀ cs p, item cs = .ok p → Q p.value)
include hitem

theorem forall_of_arrayItems {cs : List Char} {p : Parsed Char (List Json) cs.length}
    (h : arrayItems item cs = .ok p) : ∀ j ∈ p.value, Q j := by
  induction cs using arrayItems.induct with
  | case1 cs ih =>
    rw [arrayItems] at h
    obtain ⟨first, hfirst, h⟩ := Source.bind_eq_ok.mp h
    have hvalue := hitem _ _ hfirst
    split at h
    · cases h
      simpa using hvalue
    · next behind heq =>
      obtain ⟨more, hmore, h⟩ := Source.bind_eq_ok.mp h
      cases h
      simpa using ⟨hvalue, ih first behind heq hmore⟩
    · cases h

theorem forall_of_objectMembers {cs : List Char} {p : Parsed Char (List (String × Json)) cs.length}
    (h : objectMembers item cs = .ok p) : ∀ member ∈ p.value, Q member.2 := by
  induction cs using objectMembers.induct with
  | case1 cs ih =>
    rw [objectMembers] at h
    obtain ⟨name, -, h⟩ := Source.bind_eq_ok.mp h
    obtain ⟨first, hfirst, h⟩ := Source.bind_eq_ok.mp h
    have hvalue := hitem _ _ hfirst
    split at h
    · cases h
      simpa using hvalue
    · next behind heq =>
      obtain ⟨more, hmore, h⟩ := Source.bind_eq_ok.mp h
      cases h
      have hrest := ih name first behind heq hmore
      intro member hmember
      rcases List.mem_cons.mp hmember with rfl | hmember
      · exact hvalue
      · exact hrest member hmember
    · cases h

theorem exists_of_arrayRest {cs : List Char} {p : Parsed Char Json (cs.length + 1)}
    (h : arrayRest item cs = .ok p) : ∃ items, p.value = .array items ∧ ∀ j ∈ items, Q j := by
  unfold arrayRest at h
  split at h
  · cases h
    exact ⟨[], rfl, by simp⟩
  · obtain ⟨items, hitems, h⟩ := Source.bind_eq_ok.mp h
    cases h
    exact ⟨items.value, rfl, forall_of_arrayItems hitem hitems⟩

theorem exists_of_objectRest {cs : List Char} {p : Parsed Char Json (cs.length + 1)}
    (h : objectRest item cs = .ok p) : ∃ members, p.value = .object members ∧
      (members.map Prod.fst).Nodup ∧ ∀ member ∈ members, Q member.2 := by
  unfold objectRest at h
  split at h
  · cases h
    exact ⟨[], rfl, by simp, by simp⟩
  · obtain ⟨members, hmembers, h⟩ := Source.bind_eq_ok.mp h
    cases h
    refine ⟨_, rfl, (Table.ofList members.value).nodup, fun member hmember => ?_⟩
    exact forall_of_objectMembers hitem hmembers member (Table.mem_ofList hmember)

end Results

theorem Numeral.isScalar_of_toJson {numeral : Numeral} {j : Json} (h : numeral.toJson = .ok j) :
    j.IsScalar := by
  unfold Numeral.toJson at h
  split at h
  · split at h
    · cases h
    · cases h
      trivial
  · cases h
    trivial

theorem isScalar_of_scalar {cs : List Char} {p : Parsed Char Json cs.length} (h : scalar cs = .ok p) :
    p.value.IsScalar := by
  have hwords : ∀ word ∈ words, word.2.IsScalar := by
    intro word hword
    simp only [words, List.mem_cons, List.not_mem_nil, or_false] at hword
    rcases hword with rfl | rfl | rfl | rfl | rfl | rfl
    all_goals trivial
  cases cs with
  | nil => cases h
  | cons c tail =>
    rw [scalar.eq_2] at h
    split at h
    · next word value hfind =>
      cases h
      exact hwords _ (List.mem_of_find?_eq_some hfind)
    · split at h
      · cases h
      · obtain ⟨j, hj, h⟩ := Source.bind_eq_ok.mp h
        cases h
        exact Numeral.isScalar_of_toJson hj

/-- What is read as a document is composed of scalars, not deeper than is allowed and with no name
twice. -/
theorem composed_of_document {levels : Nat} {cs : List Char} {p : Parsed Char Json cs.length}
    (h : document levels cs = .ok p) : p.value.Composed IsScalar levels := by
  induction levels generalizing cs with
  | zero =>
    rcases document_cases cs with ⟨tail, rfl⟩ | ⟨tail, rfl⟩ | ⟨tail, rfl⟩ | hscalar
    · obtain ⟨text, -, h⟩ := Source.bind_eq_ok.mp h
      cases h
      exact .scalar _ trivial trivial
    · cases h
    · cases h
    · rw [hscalar] at h
      exact .scalar _ (isScalar_of_scalar h) (isScalar_of_scalar h)
  | succ levels ih =>
    rcases document_cases cs with ⟨tail, rfl⟩ | ⟨tail, rfl⟩ | ⟨tail, rfl⟩ | hscalar
    · obtain ⟨text, -, h⟩ := Source.bind_eq_ok.mp h
      cases h
      exact .scalar _ trivial trivial
    · obtain ⟨items, hp, hitems⟩ := exists_of_arrayRest (fun cs p => ih) h
      rw [hp]
      exact .array hitems
    · obtain ⟨members, hp, hnames, hmembers⟩ := exists_of_objectRest (fun cs p => ih) h
      rw [hp]
      exact .object hnames hmembers
    · rw [hscalar] at h
      exact .scalar _ (isScalar_of_scalar h) (isScalar_of_scalar h)

/-- What is read from a text is composed of scalars, not deeper than is allowed and with no name
twice. -/
theorem composed_of_parse [Host.Limits] {s : String} {j : Json} (h : parse s = .ok j) :
    j.Composed IsScalar stackLimit := by
  unfold parse at h
  split at h
  · next hread =>
    cases h
    unfold read at hread
    split at hread
    · cases hread
    · obtain ⟨root, hroot, hread⟩ := Source.bind_eq_ok.mp hread
      split at hread
      · cases hread
        exact composed_of_document hroot
      · cases hread
  all_goals cases h

end ModuLang.Json
