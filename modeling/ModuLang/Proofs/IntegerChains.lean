import ModuLang.Proofs.DecimalText
import ModuLang.Proofs.LineDivision
import ModuLang.Proofs.NumberRange
import ModuLang.Proofs.RunEndings

/-!
# Chains of integers

A chain is an expression of integer literals, with any number of minuses in front of each and a sign
between any two. It is read and evaluated from the left, one operand at a time, and after each the
result has to lie in the range of the arithmetic. What a minus in front of a literal gives always
does, though it is computed as a difference from nothing, so only the results between the operands
matter: the value of a chain is the exact one if they all lie in range, and else there is none.

A chain is data here: it grows to the right, as the grammar has it, and blanks may stand between any
two of its tokens. Its text, its tokens, its tree and its value follow this data, and so do the proofs:
each says of one more operand what the lexer, the parser or the evaluator makes of it. No level of
nesting is used up by a further operand when the chain is read. When it is evaluated each operand uses
up one level, so the depth of a chain decides whether the host can follow.
-/

namespace ModuLang

namespace Source

open Text

/-! ### Chains -/

/-- Blanks between two tokens, if there are any. -/
structure Gap where
  text : List Char
  blank : ∀ c ∈ text, isGap c = true

def Gap.none : Gap := ⟨[], fun _ h => absurd h List.not_mem_nil⟩

def Gap.space : Gap := ⟨[' '], fun _ h => List.mem_singleton.mp h ▸ rfl⟩

/-- A literal of an integer, which the lexer does not refuse. -/
structure IntegerLiteral where
  digits : List Char
  isDigits : Digits digits
  readable : Readable .number digits

def IntegerLiteral.value (l : IntegerLiteral) : Int :=
  Number.digitsValue l.digits

theorem digits_toDigits (n : Nat) : Digits (Nat.toDigits 10 n) :=
  ⟨Nat.toDigits_ne_nil, fun _ hc => Number.isBasicDigit_of_mem_toDigits hc⟩

/-- A number of nineteen digits has not too many for the host. -/
theorem length_toDigits_le {n : Nat} (h : n < 10 ^ 19) :
    (Nat.toDigits 10 n).length ≤ Number.digitLimit :=
  calc
    (Nat.toDigits 10 n).length ≤ 19 := (Nat.length_toDigits_le_iff (by decide) (by decide)).mpr h
    _ ≤ Number.digitLimit := by decide

/-- The literal of a number in range. -/
def IntegerLiteral.ofNat (n : Nat) (h : (n : Int) ≤ Number.intMax) : IntegerLiteral where
  digits := Nat.toDigits 10 n
  isDigits := digits_toDigits n
  readable := by
    have hmax : Number.intMax < (10 ^ 19 : Nat) := by decide
    refine fun _ => ⟨length_toDigits_le (by omega), ?_⟩
    rwa [Number.digitsValue_toDigits]

/-- A literal with minuses in front of it. -/
inductive Operand where
  | literal (l : IntegerLiteral)
  | minus (behind : Gap) (o : Operand)

/-- A sign between operands. -/
inductive Sign where
  | plus
  | minus

/-- Operands with signs between them. -/
inductive Chain where
  | operand (o : Operand)
  | link (front : Chain) (before : Gap) (sign : Sign) (behind : Gap) (o : Operand)

/-! What a chain looks like. -/

def Operand.text : Operand → List Char
  | .literal l => l.digits
  | .minus behind o => '-' :: behind.text ++ o.text

def Sign.char : Sign → Char
  | .plus => '+'
  | .minus => '-'

def Chain.text : Chain → List Char
  | .operand o => o.text
  | .link front before sign behind o =>
    front.text ++ before.text ++ sign.char :: behind.text ++ o.text

/-! The words of a chain are its tokens without their line. -/

def Operand.words : Operand → List (TokenKind × String)
  | .literal l => [(.number, String.ofList l.digits)]
  | .minus _ o => (.minus, "-") :: o.words

def Sign.word : Sign → TokenKind × String
  | .plus => (.plus, "+")
  | .minus => (.minus, "-")

def Chain.words : Chain → List (TokenKind × String)
  | .operand o => o.words
  | .link front _ sign _ o => front.words ++ sign.word :: o.words

/-! The tree of a chain groups to the left, and a minus in front of an operand is a difference. -/

def Operand.tree : Operand → Node
  | .literal l => .literal (.int l.value) 1
  | .minus _ o => .binary .subtract (.literal .null 1) o.tree 1

def Sign.operator : Sign → BinaryOperator
  | .plus => .add
  | .minus => .subtract

def Chain.tree : Chain → Node
  | .operand o => o.tree
  | .link front _ sign _ o => .binary sign.operator front.tree o.tree 1

/-- How deep the tree of an operand is: one more than there are minuses. -/
def Operand.depth : Operand → Nat
  | .literal _ => 1
  | .minus _ o => o.depth + 1

/-- How deep the tree of a chain is. -/
def Chain.depth : Chain → Nat
  | .operand o => o.depth
  | .link front _ _ _ o => max front.depth o.depth + 1

/-! What a chain says. -/

def Operand.value : Operand → Int
  | .literal l => l.value
  | .minus _ o => -o.value

def Sign.apply : Sign → Int → Int → Int
  | .plus, a, b => a + b
  | .minus, a, b => a - b

/-- The exact value of a chain. -/
def Chain.total : Chain → Int
  | .operand o => o.value
  | .link front _ sign _ o => sign.apply front.total o.value

/-- The values of the parts of a chain that begin where it begins, from the shortest one to itself. -/
def Chain.partialResults : Chain → List Int
  | .operand o => [o.value]
  | .link front before sign behind o =>
    front.partialResults ++ [(Chain.link front before sign behind o).total]

/-- What the arithmetic makes of a chain: nothing if a result on the way is out of range. -/
def Chain.result? : Chain → Option Int
  | .operand o => some o.value
  | .link front _ sign _ o =>
    front.result?.bind fun n =>
      if Number.inRange (sign.apply n o.value) then some (sign.apply n o.value) else none

/-! ### The words of a chain -/

section Lexing

variable {rest : List Char} (line : Int)

/-- A token in front of a line. -/
theorem lexLine_word {kind : TokenKind} {text : List Char} (h : Lexeme kind text)
    (hlongest : Longest text rest) (hreadable : Readable kind text) :
    lexLine line (text ++ rest) =
      ((kind, String.ofList text) :: (lexLine line rest).1, (lexLine line rest).2) :=
  have hstands : (Segment.token kind text).Stands rest := ⟨h, hlongest, hreadable⟩
  lexLine_segment line hstands

/-- A sign in front of a line, where no longer one stands. -/
theorem lexLine_ofSigns {kind : TokenKind} {c : Char} {tail : List Char}
    (hsign : (kind, c :: tail) ∈ signs) (hrest : c :: tail = ['='] → ∀ more, rest ≠ '=' :: more) :
    lexLine line (c :: tail ++ rest) =
      ((kind, String.ofList (c :: tail)) :: (lexLine line rest).1, (lexLine line rest).2) := by
  have hkinds : ∀ sign ∈ signs, sign.1 ≠ .number := by decide
  obtain ⟨hlexeme, hlongest⟩ := longest_of_sign hsign hrest
  exact lexLine_word line hlexeme hlongest fun hnumber => absurd hnumber (hkinds _ hsign)

/-- What may stand behind a literal: neither a digit nor a point. -/
def EndsLiteral (rest : List Char) : Prop :=
  ∀ c ∈ rest.head?, isBasicDigit c = false ∧ c ≠ '.'

theorem endsLiteral_nil : EndsLiteral [] :=
  fun _ hc => by cases hc

theorem Digits.longest_of_endsLiteral {digits : List Char} (h : Digits digits)
    (hrest : EndsLiteral rest) : Longest digits rest := by
  refine h.longest (fun c hc => (hrest c hc).1) ?_
  rintro ⟨d, more, rfl, -⟩
  exact (hrest '.' rfl).2 rfl

/-- In front of what satisfies a condition blanks may stand that satisfy it too. -/
theorem Gap.head_append {P : Char → Prop} (gap : Gap) (hgap : ∀ c, isGap c = true → P c)
    (h : ∀ c ∈ rest.head?, P c) : ∀ c ∈ (gap.text ++ rest).head?, P c := by
  intro c hc
  cases htext : gap.text with
  | nil =>
    rw [htext] at hc
    exact h c hc
  | cons d ds =>
    rw [htext] at hc
    obtain rfl : d = c := by simpa using hc
    exact hgap d (gap.blank d (by simp [htext]))

theorem not_isWordPart_of_isGap {c : Char} (h : isGap c = true) : isWordPart c = false := by
  refine Bool.eq_false_iff.mpr fun hpart => ?_
  rw [not_isGap_of_isWordPart hpart] at h
  cases h

theorem endsLiteral_gap (gap : Gap) (h : EndsLiteral rest) : EndsLiteral (gap.text ++ rest) := by
  refine gap.head_append (fun c hc => ⟨?_, ?_⟩) h
  · have hpart := not_isWordPart_of_isGap hc
    rw [isWordPart, Bool.or_eq_false_iff] at hpart
    exact hpart.2
  · rintro rfl
    exact absurd hc (by decide)

theorem endsLiteral_sign (sign : Sign) (cs : List Char) : EndsLiteral (sign.char :: cs) := by
  rintro c ⟨rfl⟩
  cases sign <;> decide

theorem lexLine_operand (o : Operand) (hrest : EndsLiteral rest) :
    lexLine line (o.text ++ rest) = (o.words ++ (lexLine line rest).1, (lexLine line rest).2) := by
  induction o with
  | literal l =>
    exact lexLine_word line (.number l.isDigits) (l.isDigits.longest_of_endsLiteral hrest) l.readable
  | minus behind o ih =>
    have htext : (Operand.minus behind o).text ++ rest =
        ['-'] ++ (behind.text ++ (o.text ++ rest)) := by
      simp [Operand.text]
    have hminus : (TokenKind.minus, ['-']) ∈ signs := by decide
    rw [htext, lexLine_ofSigns line hminus fun heq => absurd heq (by decide),
      lexLine_gaps line behind.blank, ih]
    rfl

theorem lexLine_sign (sign : Sign) :
    lexLine line (sign.char :: rest) =
      (sign.word :: (lexLine line rest).1, (lexLine line rest).2) := by
  have hsign : (sign.word.1, [sign.char]) ∈ signs ∧ [sign.char] ≠ ['='] := by
    cases sign <;> decide
  have hrest : [sign.char] = ['='] → ∀ more, rest ≠ '=' :: more := fun heq => absurd heq hsign.2
  have hfront := lexLine_ofSigns line hsign.1 hrest
  cases sign <;> exact hfront

theorem lexLine_chain (c : Chain) (hrest : EndsLiteral rest) :
    lexLine line (c.text ++ rest) = (c.words ++ (lexLine line rest).1, (lexLine line rest).2) := by
  induction c generalizing rest with
  | operand o => exact lexLine_operand line o hrest
  | link front before sign behind o ih =>
    have hsign : EndsLiteral (before.text ++ sign.char :: (behind.text ++ (o.text ++ rest))) :=
      endsLiteral_gap before (endsLiteral_sign sign _)
    have htext : (Chain.link front before sign behind o).text ++ rest =
        front.text ++ (before.text ++ sign.char :: (behind.text ++ (o.text ++ rest))) := by
      simp [Chain.text]
    rw [htext, ih hsign, lexLine_gaps line before.blank, lexLine_sign, lexLine_gaps line behind.blank,
      lexLine_operand line o hrest]
    simp [Chain.words]

end Lexing

/-! ### The program of a chain -/

/-- Where the blanks of a program are that binds `r` to a chain. -/
structure Layout where
  before : Gap
  behindLet : Gap
  behindName : Gap
  behindAssign : Gap
  behind : Gap
  separate : behindLet.text ≠ []

/-- A single blank at each place where one is usual. -/
def Layout.usual : Layout := ⟨.none, .space, .space, .space, .none, List.cons_ne_nil _ _⟩

/-- The text of such a program in front of the chain. -/
def Layout.front (l : Layout) : List Char :=
  l.before.text ++ ['l', 'e', 't'] ++ l.behindLet.text ++ 'r' :: l.behindName.text ++
    '=' :: l.behindAssign.text

/-- The text of a program that binds `r` to a chain. -/
def Layout.text (l : Layout) (c : Chain) : List Char :=
  l.front ++ c.text ++ l.behind.text

/-- The words of a binding of `r`, with some words for its value. -/
def bindingWords (words : List (TokenKind × String)) : List (TokenKind × String) :=
  (.letWord, "let") :: (.identifier, "r") :: (.assign, "=") :: words

/-- A chain begins with a digit or a minus. -/
theorem Chain.exists_cons (c : Chain) :
    ∃ d ds, c.text = d :: ds ∧ (isBasicDigit d = true ∨ d = '-') := by
  induction c with
  | operand o =>
    cases o with
    | literal l =>
      obtain ⟨hne, hall⟩ := l.isDigits
      obtain ⟨d, ds, hds⟩ := List.exists_cons_of_ne_nil hne
      exact ⟨d, ds, hds, .inl (hall d (by simp [hds]))⟩
    | minus behind o => exact ⟨'-', _, rfl, .inr rfl⟩
  | link front before sign behind o ih =>
    obtain ⟨d, ds, hds, hd⟩ := ih
    exact ⟨d, _, by rw [Chain.text, hds]; rfl, hd⟩

theorem lexLine_front (l : Layout) {rest : List Char} (hrest : ∀ c ∈ rest.head?, c ≠ '=')
    (line : Int) :
    lexLine line (l.front ++ rest) = (bindingWords (lexLine line rest).1, (lexLine line rest).2) := by
  have hlet : Lexeme .letWord ['l', 'e', 't'] := lexeme_of_reserved (by decide : ("let", _) ∈ _)
  have hname : Lexeme .identifier ['r'] := by
    have hkind : wordKind (String.ofList ['r']) = .identifier := by decide
    have hword : Lexeme (wordKind (String.ofList ['r'])) ['r'] :=
      .word (by decide) fun _ h => absurd h List.not_mem_nil
    rwa [hkind] at hword
  have hassign : (TokenKind.assign, ['=']) ∈ signs := by decide
  -- Each word is told by what stands behind it, so these parts get names, from the back.
  generalize hfourth : l.behindAssign.text ++ rest = fourth
  generalize hthird : l.behindName.text ++ (['='] ++ fourth) = third
  generalize hsecond : l.behindLet.text ++ (['r'] ++ third) = second
  have htext : l.front ++ rest = l.before.text ++ (['l', 'e', 't'] ++ second) := by
    simp [Layout.front, ← hsecond, ← hthird, ← hfourth]
  have hletEnd : ∀ d ∈ second.head?, isWordPart d = false := by
    intro d hd
    obtain ⟨e, es, hes⟩ := List.exists_cons_of_ne_nil l.separate
    rw [← hsecond, hes] at hd
    obtain rfl : e = d := by simpa using hd
    exact not_isWordPart_of_isGap (l.behindLet.blank e (by simp [hes]))
  have hnameEnd : ∀ d ∈ third.head?, isWordPart d = false := by
    rw [← hthird]
    refine l.behindName.head_append (fun d hd => not_isWordPart_of_isGap hd) ?_
    rintro d ⟨rfl⟩
    decide
  have hassignEnd : ∀ more, fourth ≠ '=' :: more := by
    have hhead : ∀ c ∈ fourth.head?, c ≠ '=' := by
      rw [← hfourth]
      exact l.behindAssign.head_append (fun c hc heq => absurd (heq ▸ hc) (by decide)) hrest
    rintro more rfl
    exact hhead '=' rfl rfl
  rw [htext, lexLine_gaps line l.before.blank,
    lexLine_word line hlet (longest_word (by decide) hletEnd) (fun h => by cases h), ← hsecond,
    lexLine_gaps line l.behindLet.blank,
    lexLine_word line hname (longest_word (by decide) hnameEnd) (fun h => by cases h), ← hthird,
    lexLine_gaps line l.behindName.blank, lexLine_ofSigns line hassign fun _ => hassignEnd, ← hfourth,
    lexLine_gaps line l.behindAssign.blank]
  rfl

theorem lexLine_layout (l : Layout) (c : Chain) (line : Int) :
    lexLine line (l.text c) = (bindingWords c.words, none) := by
  have hend : lexLine line l.behind.text = ([], none) := by
    have hgaps := lexLine_gaps line l.behind.blank []
    rw [List.append_nil] at hgaps
    rw [hgaps, lexLine]
  have hbehind : EndsLiteral l.behind.text := by
    have hgap : EndsLiteral (l.behind.text ++ []) := endsLiteral_gap l.behind endsLiteral_nil
    rwa [List.append_nil] at hgap
  have hchain : ∀ d ∈ (c.text ++ l.behind.text).head?, d ≠ '=' := by
    obtain ⟨d, ds, hds, hd⟩ := c.exists_cons
    rw [hds]
    rintro e ⟨rfl⟩ rfl
    exact absurd hd (by decide)
  rw [Layout.text, List.append_assoc, lexLine_front l hchain, lexLine_chain line c hbehind, hend,
    List.append_nil]

theorem not_mem_layout (l : Layout) (c : Chain) : '\n' ∉ l.text c := by
  have hgap : ∀ gap : Gap, '\n' ∉ gap.text := fun gap h => absurd (gap.blank _ h) (by decide)
  have hoperand : ∀ o : Operand, '\n' ∉ o.text := by
    intro o
    induction o with
    | literal l => exact fun h => absurd (l.isDigits.2 _ h) (by decide)
    | minus behind o ih => simp [Operand.text, hgap, ih]
  have hchain : ∀ c : Chain, '\n' ∉ c.text := by
    intro c
    induction c with
    | operand o => exact hoperand o
    | link front before sign behind o ih =>
      have hsign : '\n' ≠ sign.char := by cases sign <;> decide
      simp [Chain.text, hgap, hoperand, ih, hsign]
  simp [Layout.text, Layout.front, hgap, hchain]

/-! ### The tree of a chain -/

/-- Words on the first line. -/
def onLine (words : List (TokenKind × String)) : List Token :=
  words.map fun word => ⟨word.1, word.2, 1⟩

section Parsing

variable {ending : Ending} {levels : Nat} {rest : List Token}

theorem erase_operand_words (o : Operand) (h : o.depth ≤ levels) :
    erase (operand ending levels (onLine o.words ++ rest)) = .ok (o.tree, rest) := by
  induction o generalizing levels with
  | literal l =>
    obtain ⟨levels, rfl⟩ := Nat.exists_eq_add_of_le' h
    have hliteral : literalOf? ⟨.number, String.ofList l.digits, 1⟩ =
        some (Operand.literal l).tree := by
      rw [literalOf?, String.toList_ofList]
      rfl
    have hwords : onLine (Operand.literal l).words ++ rest =
        ⟨.number, String.ofList l.digits, 1⟩ :: rest := rfl
    have hminus : eraseOption (accept ending (· == .minus)
        (⟨.number, String.ofList l.digits, 1⟩ :: rest)) = .ok none := by
      rw [eraseOption_accept_cons]
      rfl
    rw [hwords, Operand.depth, erase_operand_succ, hminus, ok_bind]
    exact erase_term_literal hliteral
  | minus behind o ih =>
    obtain ⟨levels, rfl⟩ := Nat.exists_eq_add_of_le' (Nat.le_of_add_left_le h)
    have ho : o.depth ≤ levels := Nat.le_of_add_le_add_right h
    have hwords : onLine (Operand.minus behind o).words ++ rest =
        ⟨.minus, "-", 1⟩ :: (onLine o.words ++ rest) := rfl
    rw [hwords, erase_operand_succ, accept_of_kind rfl rfl]
    change (erase (operand ending levels (onLine o.words ++ rest)) >>= _) = _
    rw [ih ho]
    rfl

/-- Behind a chain the parser stands in its loop with the tree of the chain. -/
theorem erase_expression_words (c : Chain) (h : c.depth ≤ levels) :
    erase (expression ending levels (onLine c.words ++ rest)) =
      erase (sumChain ending (operand ending levels) c.tree rest) := by
  induction c generalizing rest with
  | operand o =>
    change erase (sum ending (operand ending levels) (onLine o.words ++ rest)) = _
    rw [erase_sum, erase_operand_words o h]
    rfl
  | link front before sign behind o ih =>
    have hfront : front.depth ≤ levels := by
      have := Nat.le_max_left front.depth o.depth
      simp only [Chain.depth] at h
      omega
    have ho : o.depth ≤ levels := by
      have := Nat.le_max_right front.depth o.depth
      simp only [Chain.depth] at h
      omega
    have hwords : onLine (Chain.link front before sign behind o).words ++ rest =
        onLine front.words ++ (⟨sign.word.1, sign.word.2, 1⟩ :: (onLine o.words ++ rest)) := by
      simp [onLine, Chain.words]
    have hsign : (sign.word.1 == .plus || sign.word.1 == .minus) = true ∧
        (if sign.word.1 = .plus then BinaryOperator.add else .subtract) = sign.operator := by
      cases sign <;> decide
    -- The loop takes the sign and one operand, and stands behind them with the tree of all.
    rw [hwords, ih hfront, erase_sumChain, eraseOption_accept_cons, if_pos hsign.1]
    change (erase (operand ending levels (onLine o.words ++ rest)) >>= _) = _
    rw [erase_operand_words o ho]
    change erase (sumChain ending (operand ending levels)
      (.binary (if sign.word.1 = .plus then .add else .subtract) front.tree o.tree 1) rest) = _
    rw [hsign.2]
    rfl

/-- The words of a binding of a chain are read as one. -/
theorem readsAs_bindingWords (c : Chain) (h : c.depth ≤ levels) :
    ReadsAs (levels + 1) (onLine (bindingWords c.words)) [.binding "r" c.tree 1] := by
  intro ending rest hnext
  have hwords : onLine (bindingWords c.words) ++ rest =
      ⟨.letWord, "let", 1⟩ :: ⟨.identifier, "r", 1⟩ :: ⟨.assign, "=", 1⟩ ::
        (onLine c.words ++ rest) := rfl
  -- The chain ends where the statement does, since no sign follows.
  have hchain : erase (expression ending levels (onLine c.words ++ rest)) = .ok (c.tree, rest) := by
    rw [erase_expression_words c h]
    exact erase_sumChain_stop (hnext.mono fun k hk => (endsExpression_of_endsStatement hk).2)
  have hstatement : erase (statement ending (levels + 1) false
      (onLine (bindingWords c.words) ++ rest)) = .ok (.binding "r" c.tree 1, rest) := by
    rw [hwords, erase_statement_succ, accept_of_kind rfl rfl]
    change erase (letStatement ending (expression ending levels) ⟨.letWord, "let", 1⟩ _) = _
    rw [erase_letStatement, expect_of_kind rfl rfl, ok_bind, expect_of_kind rfl rfl, ok_bind, hchain]
    rfl
  obtain ⟨t, hpeek, ht⟩ := hnext
  have hended : erase (ended ending (statement ending (levels + 1) false)
      (onLine (bindingWords c.words) ++ rest)) = .ok (.binding "r" c.tree 1, rest) := by
    rw [erase_ended, hstatement, ok_bind, hpeek, ok_bind, if_pos ht]
  have hhead : HeadIs (Phrase.stmt false).Begins (onLine (bindingWords c.words) ++ rest) :=
    headIs_cons (.inr (.inr rfl)) _
  have hnone : Separators [] := fun _ hs => absurd hs List.not_mem_nil
  have hread : programStatements ending (levels + 1)
      ([] ++ (onLine (bindingWords c.words) ++ rest)) = _ := programStatements_of_head hnone hhead
  rw [List.nil_append, hended] at hread
  exact hread

end Parsing

/-- The program of a chain is read as a binding of its tree. -/
theorem parse_layout [Host.Limits] (l : Layout) (c : Chain) (h : c.depth < stackLimit) :
    parse (String.ofList (l.text c)) = ⟨[.binding "r" c.tree 1], none⟩ := by
  have htokens : tokenize (String.ofList (l.text c)) =
      (onLine (bindingWords c.words) ++ [⟨.newline, "\n", 1⟩], none) := by
    unfold tokenize
    rw [String.toList_ofList, lines_of_not_mem (not_mem_layout l c), tokenizeLines]
    simp only [lexLine_layout]
    rw [tokenizeLines]
    simp [lineTokens, onLine]
  obtain ⟨levels, hlevels⟩ := Nat.exists_eq_add_one_of_ne_zero (Nat.ne_zero_of_lt h)
  have hdepth : c.depth ≤ levels := by omega
  exact parse_of_readsAs htokens (hlevels ▸ readsAs_bindingWords c hdepth)

/-! ### The value of a chain -/

/-- An operand is at most as far from zero as its literal. -/
theorem Operand.natAbs_value_le (o : Operand) : (o.value.natAbs : Int) ≤ Number.intMax := by
  induction o with
  | literal l => exact (l.readable rfl).2
  | minus behind o ih => rwa [Operand.value, Int.natAbs_neg]

/-- The value of an operand is in range, whatever number of minuses there are. -/
theorem Operand.inRange_value (o : Operand) : Number.inRange o.value = true := by
  have hbound := o.natAbs_value_le
  have hmin : Number.intMin = -Number.intMax - 1 := by decide
  refine Number.inRange_iff.mpr ⟨?_, ?_⟩
  · omega
  · omega

/-- A chain has its exact value if all results on the way are in range, and else none. -/
theorem Chain.result?_eq (c : Chain) :
    c.result? = if ∀ n ∈ c.partialResults, Number.inRange n = true then some c.total else none := by
  induction c with
  | operand o =>
    have hall : ∀ n ∈ (Chain.operand o).partialResults, Number.inRange n = true :=
      List.forall_mem_singleton.mpr o.inRange_value
    rw [if_pos hall]
    rfl
  | link front before sign behind o ih =>
    rw [Chain.result?, ih]
    have hall : (∀ n ∈ (Chain.link front before sign behind o).partialResults,
        Number.inRange n = true) ↔ (∀ n ∈ front.partialResults, Number.inRange n = true) ∧
          Number.inRange (sign.apply front.total o.value) = true := by
      rw [Chain.partialResults, List.forall_mem_append, List.forall_mem_singleton]
      rfl
    by_cases hfront : ∀ n ∈ front.partialResults, Number.inRange n = true
    · rw [if_pos hfront, Option.bind_some]
      by_cases hlast : Number.inRange (sign.apply front.total o.value) = true
      · rw [if_pos hlast, if_pos (hall.mpr ⟨hfront, hlast⟩)]
        rfl
      · rw [if_neg hlast, if_neg fun h => hlast (hall.mp h).2]
    · rw [if_neg hfront, if_neg fun h => hfront (hall.mp h).1]
      rfl

/-- How the evaluation of a chain ends. -/
def Chain.ending (c : Chain) : Except Interrupt Value :=
  match c.result? with
  | some n => .ok (.int n)
  | none => .error (.failed (.fault ⟨.sumOverflow, 1⟩))

end Source

/-! ### The evaluation of a chain -/

open Eval Source

section

variable [Host.Limits]

section Evaluation

variable {config : Config} {m : Machine} {levels : Nat}

/-- An operator between values that are computed without an effect. -/
theorem outcome_binary {ev : Evaluator} (op : BinaryOperator) {left right : Node} {v w : Value}
    (hleft : (ev config left).outcome m = (.ok v, m))
    (hright : (ev config right).outcome m = (.ok w, m)) (line : Int) :
    (evaluateNode ev config (.binary op left right line)).outcome m =
      (ofExcept (op.apply m.heap v w)).outcome m := by
  change (ev config left >>= fun v => ev config right >>= fun w => heap >>= fun h =>
    ofExcept (op.apply h v w)).outcome m = _
  rw [outcome_bind, hleft]
  simp only
  rw [outcome_bind, hright]
  rfl

theorem evaluate_operand (o : Operand) (h : o.depth ≤ levels) :
    (evaluate levels config o.tree).outcome m = (.ok (.int o.value), m) := by
  induction o generalizing levels with
  | literal l =>
    obtain ⟨levels, rfl⟩ := Nat.exists_eq_add_of_le' h
    exact outcome_atLine_ok 1 rfl
  | minus behind o ih =>
    obtain ⟨levels, rfl⟩ := Nat.exists_eq_add_of_le' (Nat.le_of_add_left_le h)
    have ho : o.depth ≤ levels := Nat.le_of_add_le_add_right h
    have hpos : 0 < o.depth := by cases o <;> exact Nat.succ_pos _
    have hnull : (evaluate levels config (.literal .null 1)).outcome m = (.ok .null, m) := by
      obtain ⟨levels, rfl⟩ := Nat.exists_eq_add_of_le' (Nat.lt_of_lt_of_le hpos ho)
      exact outcome_atLine_ok 1 rfl
    have hdifference : BinaryOperator.subtract.apply m.heap .null (.int o.value) =
        .ok (.int (-o.value)) := by
      change checkedSum (-o.value) = _
      exact if_pos (Operand.minus behind o).inRange_value
    have hnode := outcome_binary .subtract hnull (ih ho) 1
    rw [hdifference] at hnode
    exact outcome_atLine_ok 1 hnode

theorem evaluate_chain (c : Chain) (h : c.depth ≤ levels) :
    (evaluate levels config c.tree).outcome m = (c.ending, m) := by
  induction c generalizing levels with
  | operand o => exact evaluate_operand o h
  | link front before sign behind o ih =>
    obtain ⟨levels, rfl⟩ := Nat.exists_eq_add_of_le' (Nat.le_of_add_left_le h)
    have hle : max front.depth o.depth ≤ levels := Nat.le_of_add_le_add_right h
    have hfront := ih (Nat.le_trans (Nat.le_max_left _ _) hle)
    have ho : (evaluate levels config o.tree).outcome m = (.ok (.int o.value), m) :=
      evaluate_operand o (Nat.le_trans (Nat.le_max_right _ _) hle)
    change (atLine 1 (evaluateNode (evaluate levels) config
      (.binary sign.operator front.tree o.tree 1))).outcome m = _
    unfold Chain.ending at hfront ⊢
    rw [Chain.result?]
    cases hresult : front.result? with
    | none =>
      -- What overflows on the way ends the whole chain.
      rw [hresult] at hfront
      have hnode : (evaluateNode (evaluate levels) config
          (.binary sign.operator front.tree o.tree 1)).outcome m =
          (.error (.failed (.fault ⟨.sumOverflow, 1⟩)), m) := outcome_bind_error hfront
      exact outcome_atLine_fault 1 hnode
    | some n =>
      rw [hresult] at hfront
      have happly : sign.operator.apply m.heap (.int n) (.int o.value) =
          checkedSum (sign.apply n o.value) := by
        cases sign <;> rfl
      have hnode := outcome_binary sign.operator hfront ho 1
      rw [happly, checkedSum] at hnode
      simp only [Option.bind_some]
      split at hnode
      · next hrange =>
        rw [if_pos hrange]
        exact outcome_atLine_ok 1 hnode
      · next hrange =>
        rw [if_neg hrange]
        exact outcome_atLine_fault 1 hnode

/-- A binding of a chain binds its value. -/
theorem evaluate_binding (config : Config) (m : Machine) (c : Chain) (h : c.depth ≤ levels) :
    (evaluate (levels + 1) config (.binding "r" c.tree 1)).outcome m =
      match c.result? with
      | some n => (.ok .null, { m with env := m.env.define "r" (.int n) })
      | none => (.error (.failed (.fault ⟨.sumOverflow, 1⟩)), m) := by
  have hvalue : (evaluate levels config c.tree).outcome m = (c.ending, m) := evaluate_chain c h
  have hbinding : evaluateBinding (evaluate levels) config "r" c.tree =
      (evaluate levels config c.tree >>= fun value => copyValue value >>= define "r") := by
    cases c with
    | operand o => cases o <;> exact if_neg (by decide)
    | link => exact if_neg (by decide)
  change (atLine 1 (evaluateBinding (evaluate levels) config "r" c.tree >>= fun _ =>
    pure Value.null)).outcome m = _
  rw [hbinding]
  unfold Chain.ending at hvalue
  cases hresult : c.result? with
  | some n =>
    rw [hresult] at hvalue
    refine outcome_atLine_ok 1 ?_
    rw [outcome_bind, outcome_bind, hvalue]
    rfl
  | none =>
    rw [hresult] at hvalue
    have hfails : ((evaluate levels config c.tree >>= fun value => copyValue value >>= define "r") >>=
        fun _ => pure Value.null).outcome m = (.error (.failed (.fault ⟨.sumOverflow, 1⟩)), m) :=
      outcome_bind_error (outcome_bind_error hvalue)
    exact outcome_atLine_fault 1 hfails

/-- The program of a chain binds the value of the chain, or it ends with an overflow. -/
theorem outcome_runProgram_layout (config : Config) (m : Machine) (l : Layout) (c : Chain)
    (h : c.depth < stackLimit) :
    (runProgram config (String.ofList (l.text c))).outcome m =
      match c.result? with
      | some n => (.ok (), { m with env := m.env.define "r" (.int n) })
      | none => (.error (.failed (.fault ⟨.sumOverflow, 1⟩)), m) := by
  have hparse := parse_layout l c h
  obtain ⟨levels, hlevels⟩ := Nat.exists_eq_add_one_of_ne_zero (Nat.ne_zero_of_lt h)
  have hdepth : c.depth ≤ levels := by omega
  have hstatement := evaluate_binding config m c hdepth
  unfold runProgram runWithin
  simp only [hparse, hlevels]
  change (overflowAt 1 (evaluate (levels + 1) config (.binding "r" c.tree 1)) >>= fun _ =>
    pure ()).outcome m = _
  rw [outcome_bind, overflowAt, outcome_tryCatch, hstatement]
  cases c.result? with
  | some n => rfl
  | none => rfl

/-- A chain of integers is computed from the left and exactly. If all results on the way are in range,
its program binds `r` to the value of the chain; else it ends with an overflow at its line, and
nothing is bound or changed. -/
theorem chain_computed_exactly (config : Config) (m : Machine) (l : Layout) (c : Chain)
    (hdepth : c.depth < stackLimit) :
    ((∀ n ∈ c.partialResults, Number.intMin ≤ n ∧ n ≤ Number.intMax) →
      (runProgram config (String.ofList (l.text c))).outcome m =
        (.ok (), { m with env := m.env.define "r" (.int c.total) })) ∧
    ((∃ n ∈ c.partialResults, ¬(Number.intMin ≤ n ∧ n ≤ Number.intMax)) →
      ∃ f : Fault, (runProgram config (String.ofList (l.text c))).outcome m =
          (.error (.failed (.fault f)), m) ∧
        f.cause.family = .kind ∧ f.cause.message = "Integer overflow" ∧ f.line = 1) := by
  have hrun := outcome_runProgram_layout config m l c hdepth
  rw [c.result?_eq] at hrun
  simp only [Number.inRange_iff] at hrun
  constructor
  · intro hall
    rw [if_pos hall] at hrun
    exact hrun
  · rintro ⟨n, hn, hout⟩
    rw [if_neg fun hall => hout (hall n hn)] at hrun
    exact ⟨_, hrun, rfl, rfl, rfl⟩

end Evaluation

end

/-- A chain whose exact value is in range, though one is added to the greatest integer on the way. -/
def overflowingChain : Chain :=
  .link (.link (.operand (.literal (.ofNat 9223372036854775807 (by decide)))) .none .plus .none
    (.literal (.ofNat 1 (by decide)))) .space .minus .space (.literal (.ofNat 1 (by decide)))

theorem overflow_on_the_way :
    ∃ f : Fault, (runProgram {} "let r = 9223372036854775807+1 - 1").outcome {} =
        (.error (.failed (.fault f)), {}) ∧
      f.cause.family = .kind ∧ f.cause.message = "Integer overflow" ∧ f.line = 1 := by
  have htext : String.ofList (Layout.usual.text overflowingChain) =
      "let r = 9223372036854775807+1 - 1" := by
    decide +kernel
  have hover : ∃ n ∈ overflowingChain.partialResults,
      ¬(Number.intMin ≤ n ∧ n ≤ Number.intMax) :=
    ⟨Number.intMax + 1, by decide +kernel, by decide⟩
  have hdepth : overflowingChain.depth < stackLimit := by decide
  have hrun := (chain_computed_exactly {} {} Layout.usual overflowingChain hdepth).2 hover
  rw [htext] at hrun
  exact hrun

end ModuLang
