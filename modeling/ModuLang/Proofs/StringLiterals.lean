import ModuLang.Evaluation
import ModuLang.Proofs.Confinement
import ModuLang.Proofs.Lexemes
import ModuLang.Proofs.ProgramGrammar
import ModuLang.Proofs.TokenLines

/-!
# String literals

Writing the five characters with an escape as such turns every string into the body of a literal, and
resolving the escapes turns it back. A backslash of the string becomes two of them, so the pairs that the
reader takes from the left are exactly those that were written: behind the escape of each character it
stands in front of the escape of the next one. This is what the induction on the string rests on.

The lexer does not know of escapes. To it a literal ends with the next quote, also behind a backslash, so
a literal is read as one exactly if there is no quote in its body, and quotes are what no literal stands
for.
-/

namespace ModuLang

namespace Source

open Text

/-! ### Escapes -/

/-- The way in which a character is written in a literal. -/
def escapeOf : Char → List Char
  | '\t' => ['\\', 't']
  | '\n' => ['\\', 'n']
  | '\r' => ['\\', 'r']
  | '"' => ['\\', '"']
  | '\\' => ['\\', '\\']
  | c => [c]

/-- The literal of a string. -/
def literalOf (s : String) : String :=
  String.ofList ('"' :: s.toList.flatMap escapeOf ++ ['"'])

/-- A character is written as the escape that means it, or as itself if it is not a special one. -/
theorem escapeOf_cases (c : Char) :
    (∃ d, escapeMeaning? d = some c ∧ d ≠ '\n' ∧ (d = '"' → c = '"') ∧ escapeOf c = ['\\', d]) ∨
      c ≠ '\\' ∧ c ≠ '\n' ∧ escapeOf c = [c] := by
  unfold escapeOf
  split
  · exact .inl ⟨'t', by decide⟩
  · exact .inl ⟨'n', by decide⟩
  · exact .inl ⟨'r', by decide⟩
  · exact .inl ⟨'"', by decide⟩
  · exact .inl ⟨'\\', by decide⟩
  · next _ hline _ _ hbackslash => exact .inr ⟨hbackslash, hline, rfl⟩

theorem unescape_escape {d c : Char} (h : escapeMeaning? d = some c) (cs : List Char) :
    unescape ('\\' :: d :: cs) = c :: unescape cs := by
  rw [unescape, if_pos rfl, h]

theorem unescape_cons {c : Char} (h : c ≠ '\\') (cs : List Char) :
    unescape (c :: cs) = c :: unescape cs := by
  cases cs with
  | nil => rfl
  | cons d cs => rw [unescape, if_neg h]

/-- Resolving the escapes of a body gives back what was written. -/
theorem unescape_flatMap_escapeOf (cs : List Char) : unescape (cs.flatMap escapeOf) = cs := by
  induction cs with
  | nil => rfl
  | cons c cs ih =>
    rw [List.flatMap_cons]
    rcases escapeOf_cases c with ⟨d, hmeaning, -, -, hc⟩ | ⟨hbackslash, -, hc⟩
    · rw [hc, List.cons_append, List.singleton_append, unescape_escape hmeaning, ih]
    · rw [hc, List.singleton_append, unescape_cons hbackslash, ih]

theorem stripQuotes_quoted (body : List Char) : stripQuotes ('"' :: body ++ ['"']) = body := by
  change (if (body ++ ['"']).getLast? = some '"' then (body ++ ['"']).dropLast else _) = body
  rw [if_pos List.getLast?_concat, List.dropLast_concat]

/-- The value of a text between quotes. -/
theorem unquote_quoted (body : List Char) :
    unquote (String.ofList ('"' :: body ++ ['"'])) = String.ofList (unescape body) := by
  rw [unquote, String.toList_ofList, stripQuotes_quoted]

theorem unquote_literalOf (s : String) : unquote (literalOf s) = s := by
  rw [literalOf, unquote_quoted, unescape_flatMap_escapeOf, String.ofList_toList]

/-! ### Quotes -/

/-- A quote in a body comes from a quote that was written. -/
theorem quote_not_mem_flatMap_escapeOf {cs : List Char} (h : '"' ∉ cs) :
    '"' ∉ cs.flatMap escapeOf := by
  rw [List.mem_flatMap]
  rintro ⟨c, hc, hquote⟩
  rcases escapeOf_cases c with ⟨d, -, -, hd, heq⟩ | ⟨-, -, heq⟩
  · rw [heq, List.mem_pair] at hquote
    rcases hquote with hquote | hquote
    · exact absurd hquote (by decide)
    · exact h (hd hquote.symm ▸ hc)
  · rw [heq, List.mem_singleton] at hquote
    exact h (hquote ▸ hc)

/-- A body has no ends of lines. -/
theorem newline_not_mem_flatMap_escapeOf (cs : List Char) : '\n' ∉ cs.flatMap escapeOf := by
  rw [List.mem_flatMap]
  rintro ⟨c, -, hline⟩
  rcases escapeOf_cases c with ⟨d, -, hd, -, heq⟩ | ⟨-, hc, heq⟩
  · rw [heq, List.mem_pair] at hline
    rcases hline with hline | hline
    · exact absurd hline (by decide)
    · exact hd hline.symm
  · rw [heq, List.mem_singleton] at hline
    exact hc hline.symm

theorem newline_not_mem_literalOf (s : String) : '\n' ∉ (literalOf s).toList := by
  rw [literalOf, String.toList_ofList, List.mem_append, List.mem_cons]
  rintro ((heq | hbody) | hend)
  · exact absurd heq (by decide)
  · exact newline_not_mem_flatMap_escapeOf s.toList hbody
  · exact absurd hend (by decide)

/-- A body without quotes stands for a string without them. -/
theorem quote_not_mem_unescape {cs : List Char} (h : '"' ∉ cs) : '"' ∉ unescape cs := by
  have hmeaning : ∀ d, escapeMeaning? d = some '"' → d = '"' := by
    intro d hd
    unfold escapeMeaning? at hd
    split at hd
    all_goals first | rfl | cases hd
  fun_induction unescape cs with
  | case1 => exact h
  | case2 => exact h
  | case3 d cs c hd ih =>
    obtain ⟨-, htail⟩ := not_or.mp (mt List.mem_cons.mpr h)
    obtain ⟨hhead, hrest⟩ := not_or.mp (mt List.mem_cons.mpr htail)
    rintro hmem
    rcases List.mem_cons.mp hmem with rfl | hmem
    · exact hhead (hmeaning d hd).symm
    · exact ih hrest hmem
  | case4 d cs hd ih =>
    obtain ⟨hhead, htail⟩ := not_or.mp (mt List.mem_cons.mpr h)
    exact fun hmem => (List.mem_cons.mp hmem).elim hhead (ih htail)
  | case5 c d cs hc ih =>
    obtain ⟨hhead, htail⟩ := not_or.mp (mt List.mem_cons.mpr h)
    exact fun hmem => (List.mem_cons.mp hmem).elim hhead (ih htail)

/-- The literal of a string without quotes is one token. -/
theorem lexeme_literalOf {s : String} (h : '"' ∉ s.toList) : Lexeme .string (literalOf s).toList := by
  rw [literalOf, String.toList_ofList]
  exact .string (quote_not_mem_flatMap_escapeOf h)

/-- A word is never a string. -/
theorem wordKind_ne_string (word : String) : wordKind word ≠ .string := by
  unfold wordKind
  repeat' split
  all_goals exact fun heq => TokenKind.noConfusion heq

/-- A string token stands between quotes, and there is none in between. -/
theorem Lexeme.exists_body {text : List Char} (h : Lexeme .string text) :
    ∃ body, '"' ∉ body ∧ text = '"' :: body ++ ['"'] := by
  obtain ⟨c, cs, rfl, -⟩ := h.exists_cons
  rcases h.cases_head with
    ⟨-, hnumeral⟩ | ⟨-, hword, -⟩ | ⟨rfl, -, body, hbody, rfl⟩ | hsign
  · rcases hnumeral with ⟨heq, -⟩ | ⟨heq, -⟩
    all_goals cases heq
  · exact absurd hword.symm (wordKind_ne_string _)
  · exact ⟨body, hbody, rfl⟩
  · have hkinds : ∀ sign ∈ signs, sign.1 ≠ .string := by decide
    exact absurd rfl (hkinds _ hsign)

/-- Literals stand for exactly those strings that have no quote in them. -/
theorem exists_literal_iff (s : String) :
    (∃ raw : String, Lexeme .string raw.toList ∧ unquote raw = s) ↔ '"' ∉ s.toList := by
  constructor
  · rintro ⟨raw, hlexeme, rfl⟩
    obtain ⟨body, hbody, hraw⟩ := hlexeme.exists_body
    rw [unquote, hraw, stripQuotes_quoted, String.toList_ofList]
    exact quote_not_mem_unescape hbody
  · exact fun h => ⟨literalOf s, lexeme_literalOf h, unquote_literalOf s⟩

/-! ### Literals as programs -/

/-- A text without an end of a line that forms a string token is the only token of its line. -/
theorem tokenize_of_lexeme {raw : String} (h : Lexeme .string raw.toList) (hline : '\n' ∉ raw.toList) :
    tokenize raw = ([⟨.string, raw, 1⟩, ⟨.newline, "\n", 1⟩], none) := by
  have hlongest : Longest raw.toList [] := h.longest (by simp)
  have hfound := token?_scan_of_longest h hlongest
  obtain ⟨c, cs, hcons, hgap⟩ := h.exists_cons
  have hlex : lexLine 1 raw.toList = ([(.string, raw)], none) := by
    rw [List.append_nil, hcons] at hfound
    rw [hcons, lexLine_token (by simp [hgap]) hfound, if_neg (by decide), ← hcons,
      String.ofList_toList, lexLine]
  unfold tokenize
  rw [lines_of_not_mem hline, tokenizeLines]
  simp only [hlex]
  rw [tokenizeLines]
  rfl

/-- A program of one literal. -/
theorem parse_of_lexeme [Host.Limits] {raw : String} (h : Lexeme .string raw.toList)
    (hline : '\n' ∉ raw.toList) :
    parse raw = ⟨[.text ⟨raw, 1⟩], none⟩ := by
  obtain ⟨more, hlevels⟩ := exists_stackLimit_eq
  unfold parse
  rw [tokenize_of_lexeme h hline, hlevels]
  cbv

end Source

open Eval Source

/-- A literal of a string gives back the string, and one of a string without quotes is a program of one
statement, whose value is the string. -/
theorem literal_of_string_evaluates_to_it [Host.Limits] (s : String) :
    unquote (literalOf s) = s ∧
      ('"' ∉ s.toList →
        parse (literalOf s) = ⟨[.text ⟨literalOf s, 1⟩], none⟩ ∧
          ∀ (levels : Nat) (config : Config) (m : Machine),
            (evaluate (levels + 1) config (.text ⟨literalOf s, 1⟩)).outcome m = (.ok (.str s), m)) := by
  refine ⟨unquote_literalOf s, fun hquote => ⟨?_, fun levels config m => ?_⟩⟩
  · exact parse_of_lexeme (lexeme_literalOf hquote) (newline_not_mem_literalOf s)
  · have hvalue : (evaluate (levels + 1) config (.text ⟨literalOf s, 1⟩)).outcome m =
        (.ok (.str (unquote (literalOf s))), m) := rfl
    rw [hvalue, unquote_literalOf]

/-- A backslash in front of a letter is kept apart from the escape with this letter. -/
theorem literal_of_backslash_and_newline :
    literalOf "\\n\n" = "\"\\\\n\\n\"" ∧ '"' ∉ "\\n\n".toList ∧
      parse (literalOf "\\n\n") = ⟨[.text ⟨literalOf "\\n\n", 1⟩], none⟩ ∧
        ∀ (levels : Nat) (config : Config) (m : Machine),
          (evaluate (levels + 1) config (.text ⟨literalOf "\\n\n", 1⟩)).outcome m =
            (.ok (.str "\\n\n"), m) := by
  have hquote : '"' ∉ "\\n\n".toList := by decide
  obtain ⟨-, hread⟩ := literal_of_string_evaluates_to_it "\\n\n"
  exact ⟨by decide +kernel, hquote, hread hquote⟩

end ModuLang
