import ModuLang.Proofs.DecimalText
import ModuLang.Proofs.IntegerChains

/-!
# Printed integers as source

An integer is shown as its digits, with a minus in front of them if it is negative. Read as a part of a
program this is an operand: a literal, or a literal with a minus in front of it. So sums and differences
of shown integers are computed as those of the integers, except for the least one. Its digits alone
spell a number beyond the greatest integer, and the literal is refused before the minus is looked at.
-/

namespace ModuLang

namespace Source

open Text

variable {n : Int} {line : Int} {rest : List Char}

/-! ### Shown integers as operands -/

/-- An integer as an operand. -/
def Operand.ofInt (n : Int) (h : (n.natAbs : Int) ≤ Number.intMax) : Operand :=
  if n < 0 then .minus .none (.literal (.ofNat n.natAbs h)) else .literal (.ofNat n.natAbs h)

theorem Operand.text_ofInt (h : (n.natAbs : Int) ≤ Number.intMax) :
    (Operand.ofInt n h).text = (toString n).toList := by
  rw [Number.toList_toString_int, Operand.ofInt]
  split <;> rfl

theorem Operand.value_ofInt (h : (n.natAbs : Int) ≤ Number.intMax) : (Operand.ofInt n h).value = n := by
  have hvalue : (IntegerLiteral.ofNat n.natAbs h).value = n.natAbs :=
    congrArg Int.ofNat (Number.digitsValue_toDigits n.natAbs)
  rw [Operand.ofInt]
  split
  · rw [Operand.value, Operand.value, hvalue]
    omega
  · rw [Operand.value, hvalue]
    omega

theorem Operand.depth_ofInt_le (h : (n.natAbs : Int) ≤ Number.intMax) :
    (Operand.ofInt n h).depth ≤ 2 := by
  rw [Operand.ofInt]
  split
  · exact Nat.le_refl 2
  · exact Nat.le_succ 1

/-- All integers in range but the least one are operands. -/
theorem natAbs_le_intMax (hmin : Number.intMin ≤ n) (hmax : n ≤ Number.intMax)
    (hleast : n ≠ Number.intMin) : (n.natAbs : Int) ≤ Number.intMax := by
  have : Number.intMin = -Number.intMax - 1 := by decide
  omega

/-! ### The least integer -/

/-- The digits of a number out of range are refused. -/
theorem lexLine_tooLarge {k : Nat} (hlarge : Number.intMax < (k : Int))
    (hlength : (Nat.toDigits 10 k).length ≤ Number.digitLimit) (hrest : EndsLiteral rest) :
    lexLine line (Nat.toDigits 10 k ++ rest) =
      ([], some (.fault ⟨.literalTooLarge (toString k), line⟩)) := by
  have hlexeme : Lexeme .number (Nat.toDigits 10 k) := .number (digits_toDigits k)
  have hfound := token?_scan_of_longest hlexeme ((digits_toDigits k).longest_of_endsLiteral hrest)
  have hdefect : integerDefect? (Nat.toDigits 10 k) line =
      some (.fault ⟨.literalTooLarge (toString k), line⟩) := by
    rw [integerDefect?, if_neg (Nat.not_lt.mpr hlength), Number.digitsValue_toDigits, if_pos hlarge]
    rfl
  obtain ⟨c, tail, hcons, hgap⟩ := hlexeme.exists_cons
  rw [hcons] at hfound hdefect ⊢
  rw [List.cons_append] at hfound ⊢
  rw [lexLine_token (by simp [hgap]) hfound, if_pos rfl, hdefect]

/-- The least integer is read as a minus and a literal that is refused. -/
theorem lexLine_least (hrest : EndsLiteral rest) :
    lexLine line ((toString Number.intMin).toList ++ rest) =
      ([(.minus, "-")], some (.fault ⟨.literalTooLarge "9223372036854775808", line⟩)) := by
  have hminus : (TokenKind.minus, ['-']) ∈ signs := by decide
  have hsize : Number.intMin.natAbs = 9223372036854775808 := by decide
  have htext : toString 9223372036854775808 = "9223372036854775808" := by decide +kernel
  have hlength : (Nat.toDigits 10 9223372036854775808).length ≤ Number.digitLimit :=
    length_toDigits_le (by decide)
  rw [Number.toList_toString_int, if_pos (by decide), hsize, List.append_assoc,
    lexLine_ofSigns line hminus fun heq => absurd heq (by decide),
    lexLine_tooLarge (by decide) hlength hrest, htext]

/-- A program of one line that cannot be read has no statement. -/
theorem parse_failed [Host.Limits] {source : String} {words : List (TokenKind × String)} {f : Fault}
    (hline : '\n' ∉ source.toList) (hlex : lexLine 1 source.toList = (words, some (.fault f)))
    (hf : f.cause ≠ .commentRunsOn) : parse source = ⟨[], some (.fault f)⟩ := by
  have htokens : tokenize source = ([], some (.fault f)) := by
    unfold tokenize
    rw [lines_of_not_mem hline, tokenizeLines]
    simp only [hlex]
    split
    · next heq => cases heq
    · next heq =>
      cases heq
      exact absurd rfl hf
    · next heq => rw [(Prod.mk.inj heq).2]
  unfold parse
  rw [htokens]
  exact programStatements_eq stackLimit

/-! ### Programs with two integers -/

/-- A program that binds `r` to two texts with a sign between them. -/
def bindingProgram (a : String) (sign : Sign) (b : String) : String :=
  "let r = " ++ a ++ " " ++ sign.word.2 ++ " " ++ b

theorem toList_bindingProgram (a : String) (sign : Sign) (b : String) :
    (bindingProgram a sign b).toList =
      Layout.usual.front ++ (a.toList ++ (' ' :: sign.char :: ' ' :: b.toList)) := by
  have hsign : sign.word.2.toList = [sign.char] := by cases sign <;> decide
  have hlet : "let r = ".toList = Layout.usual.front := by decide
  simp [bindingProgram, hsign, hlet]

theorem not_mem_toString (n : Int) : '\n' ∉ (toString n).toList := by
  intro hmem
  rw [Number.toList_toString_int] at hmem
  rcases List.mem_append.mp hmem with hminus | hdigit
  · split at hminus
    · exact absurd hminus (by decide)
    · cases hminus
  · exact absurd (Number.isBasicDigit_of_mem_toDigits hdigit) (by decide)

theorem not_mem_bindingProgram (a b : Int) (sign : Sign) :
    '\n' ∉ (bindingProgram (toString a) sign (toString b)).toList := by
  have hsign : '\n' ≠ sign.char := by cases sign <;> decide
  have hfront : '\n' ∉ Layout.usual.front := by decide
  rw [toList_bindingProgram]
  simp only [List.mem_append, List.mem_cons, not_or]
  exact ⟨hfront, not_mem_toString a, by decide, hsign, by decide, not_mem_toString b⟩

theorem head?_toString_ne (n : Int) {rest : List Char} :
    ∀ c ∈ ((toString n).toList ++ rest).head?, c ≠ '=' := by
  rw [Number.toList_toString_int]
  split
  · rintro c ⟨rfl⟩
    decide
  · obtain ⟨d, ds, hds⟩ := List.exists_cons_of_ne_nil (Nat.toDigits_ne_nil (n := n.natAbs) (b := 10))
    have hd : isBasicDigit d = true := Number.isBasicDigit_of_mem_toDigits (hds ▸ List.mem_cons_self)
    rw [hds]
    rintro c ⟨rfl⟩ rfl
    exact absurd hd (by decide)

/-- The chain of two integers. -/
def integerPair {a b : Int} (ha : (a.natAbs : Int) ≤ Number.intMax) (sign : Sign)
    (hb : (b.natAbs : Int) ≤ Number.intMax) : Chain :=
  .link (.operand (.ofInt a ha)) .space sign .space (.ofInt b hb)

section Pair

variable {a b : Int} (ha : (a.natAbs : Int) ≤ Number.intMax) (sign : Sign)
  (hb : (b.natAbs : Int) ≤ Number.intMax)

theorem bindingProgram_eq : bindingProgram (toString a) sign (toString b) =
    String.ofList (Layout.usual.text (integerPair ha sign hb)) := by
  rw [← String.ofList_toList (s := bindingProgram _ _ _), toList_bindingProgram]
  simp [Layout.text, integerPair, Chain.text, Operand.text_ofInt, Layout.usual, Gap.space, Gap.none]

theorem depth_integerPair [Host.Limits] : (integerPair ha sign hb).depth < stackLimit := by
  have := Operand.depth_ofInt_le ha
  have := Operand.depth_ofInt_le hb
  have : 32 ≤ stackLimit := Host.Limits.enough
  simp only [integerPair, Chain.depth]
  omega

theorem result?_integerPair : (integerPair ha sign hb).result? =
    if Number.inRange (sign.apply a b) then some (sign.apply a b) else none := by
  simp only [integerPair, Chain.result?, Operand.value_ofInt, Option.bind_some]

end Pair

/-- A program with the least integer in it is refused when it is read. -/
theorem parse_bindingProgram_least [Host.Limits] {a b : Int} (sign : Sign)
    (ha : Number.intMin ≤ a ∧ a ≤ Number.intMax)
    (hleast : a = Number.intMin ∨ b = Number.intMin) :
    parse (bindingProgram (toString a) sign (toString b)) =
      ⟨[], some (.fault ⟨.literalTooLarge "9223372036854775808", 1⟩)⟩ := by
  have hends : EndsLiteral (' ' :: sign.char :: ' ' :: (toString b).toList) :=
    endsLiteral_gap .space (endsLiteral_sign sign _)
  have hlex : ∃ words, lexLine 1 (bindingProgram (toString a) sign (toString b)).toList =
      (words, some (.fault ⟨.literalTooLarge "9223372036854775808", 1⟩)) := by
    rw [toList_bindingProgram, lexLine_front _ (head?_toString_ne a)]
    by_cases hmin : a = Number.intMin
    · rw [hmin, lexLine_least hends]
      exact ⟨_, rfl⟩
    · -- The first integer is read, and the second one is refused.
      have hb : b = Number.intMin := hleast.resolve_left hmin
      have hlast : lexLine 1 ((toString Number.intMin).toList ++ []) = _ :=
        lexLine_least endsLiteral_nil
      rw [List.append_nil] at hlast
      have hgap : ∀ cs, lexLine 1 (' ' :: cs) = lexLine 1 cs := lexLine_gaps 1 Gap.space.blank
      rw [← Operand.text_ofInt (natAbs_le_intMax ha.1 ha.2 hmin), lexLine_operand 1 _ hends, hgap,
        lexLine_sign, hgap, hb, hlast]
      exact ⟨_, rfl⟩
  obtain ⟨words, hwords⟩ := hlex
  exact parse_failed (not_mem_bindingProgram a b sign) hwords fun h => by cases h

end Source

open Eval Source

section Running

variable {a b : Int} {shownA shownB : String} (config : Config) (m : Machine) (sign : Sign)

/-- How an integer is shown does not depend on the heap. -/
theorem display_int (h : Heap) (n : Int) : h.display (.int n) = Number.writeInteger n := by
  rw [Heap.display, Heap.showInner, Heap.showNested]
  intro s hs
  cases hs

/-- The integers of the language's arithmetic are shown. -/
theorem display_of_inRange (h : Heap) {n : Int} (hn : Number.inRange n = true) :
    h.display (.int n) = .ok (toString n) :=
  (display_int h n).trans (Number.writeInteger_of_isWritable (Number.isWritable_of_inRange hn))

theorem eq_toString_of_display {h : Heap} {n : Int} {shown : String}
    (hshown : h.display (.int n) = .ok shown) : shown = toString n :=
  (Number.writeInteger_eq_ok_iff.mp ((display_int h n).symm.trans hshown)).2

variable [Host.Limits]

/-- A program with two operands binds their sum or difference, if that is in range. -/
theorem outcome_bindingProgram (ha : (a.natAbs : Int) ≤ Number.intMax)
    (hb : (b.natAbs : Int) ≤ Number.intMax) :
    (runProgram config (bindingProgram (toString a) sign (toString b))).outcome m =
      if Number.inRange (sign.apply a b) then
        (.ok (), { m with env := m.env.define "r" (.int (sign.apply a b)) })
      else (.error (.failed (.fault ⟨.sumOverflow, 1⟩)), m) := by
  rw [bindingProgram_eq ha sign hb, outcome_runProgram_layout config m _ _ (depth_integerPair ha sign hb),
    result?_integerPair]
  by_cases hrange : Number.inRange (sign.apply a b) = true
  · rw [if_pos hrange, if_pos hrange]
  · rw [if_neg hrange, if_neg hrange]

/-- A program with the least integer in it ends where it begins. -/
theorem outcome_bindingProgram_least (ha : Number.intMin ≤ a ∧ a ≤ Number.intMax)
    (hleast : a = Number.intMin ∨ b = Number.intMin) :
    (runProgram config (bindingProgram (toString a) sign (toString b))).outcome m =
      (.error (.failed (.fault ⟨.literalTooLarge "9223372036854775808", 1⟩)), m) := by
  unfold runProgram runWithin
  rw [parse_bindingProgram_least sign ha hleast]
  rfl

/-- Shown integers can be used as source, except for the least one. A sum or a difference of two of
them binds the exact result, or it ends with an overflow where that is out of range. With the least
integer in it a program cannot be read. -/
theorem printed_integers_computed (ha : Number.intMin ≤ a ∧ a ≤ Number.intMax)
    (hb : Number.intMin ≤ b ∧ b ≤ Number.intMax) (hshownA : m.heap.display (.int a) = .ok shownA)
    (hshownB : m.heap.display (.int b) = .ok shownB) :
    (a ≠ Number.intMin → b ≠ Number.intMin → Number.inRange (sign.apply a b) = true →
      (runProgram config (bindingProgram shownA sign shownB)).outcome m =
        (.ok (), { m with env := m.env.define "r" (.int (sign.apply a b)) })) ∧
    (a ≠ Number.intMin → b ≠ Number.intMin → Number.inRange (sign.apply a b) = false →
      ∃ f : Fault, (runProgram config (bindingProgram shownA sign shownB)).outcome m =
          (.error (.failed (.fault f)), m) ∧
        f.cause.family = .kind ∧ f.cause.message = "Integer overflow" ∧ f.line = 1) ∧
    (a = Number.intMin ∨ b = Number.intMin →
      ∃ f : Fault, (runProgram config (bindingProgram shownA sign shownB)).outcome m =
          (.error (.failed (.fault f)), m) ∧
        f.cause.family = .invalidInteger ∧
        f.cause.message = "Invalid integer: 9223372036854775808" ∧ f.line = 1) := by
  obtain rfl := eq_toString_of_display hshownA
  obtain rfl := eq_toString_of_display hshownB
  have hpair : a ≠ Number.intMin → b ≠ Number.intMin →
      (runProgram config (bindingProgram (toString a) sign (toString b))).outcome m = _ :=
    fun hna hnb => outcome_bindingProgram config m sign (natAbs_le_intMax ha.1 ha.2 hna)
      (natAbs_le_intMax hb.1 hb.2 hnb)
  refine ⟨fun hna hnb hrange => ?_, fun hna hnb hrange => ?_, fun hleast => ?_⟩
  · rw [hpair hna hnb, if_pos hrange]
  · have hrun := hpair hna hnb
    rw [if_neg (by simp [hrange])] at hrun
    exact ⟨_, hrun, rfl, rfl, rfl⟩
  · exact ⟨_, outcome_bindingProgram_least config m sign ha hleast, rfl, by decide +kernel, rfl⟩

end Running

/-- The least integer can be computed from integers that can be written. -/
theorem least_integer_computed :
    (runProgram {} "let r = -9223372036854775807 - 1").outcome {} =
      (.ok (), { env := Environment.define {} "r" (.int Number.intMin) }) := by
  have htext : bindingProgram (toString (-9223372036854775807 : Int)) .minus (toString (1 : Int)) =
      "let r = -9223372036854775807 - 1" := by
    decide +kernel
  have hrun := (printed_integers_computed {} {} .minus (by decide) (by decide)
    (display_of_inRange {} (n := -9223372036854775807) (by decide))
    (display_of_inRange {} (n := 1) (by decide))).1 (by decide) (by decide) (by decide)
  rw [htext] at hrun
  exact hrun

/-- Not every integer in range can be used as source once it is shown: the least one cannot. -/
theorem least_integer_no_source :
    ¬∀ (config : Config) (m : Machine) (sign : Sign) (a b : Int) (shownA shownB : String),
      Number.intMin ≤ a ∧ a ≤ Number.intMax → Number.intMin ≤ b ∧ b ≤ Number.intMax →
      m.heap.display (.int a) = .ok shownA → m.heap.display (.int b) = .ok shownB →
      Number.inRange (sign.apply a b) = true →
      (runProgram config (bindingProgram shownA sign shownB)).outcome m =
        (.ok (), { m with env := m.env.define "r" (.int (sign.apply a b)) }) := by
  intro hclaim
  have hbinds := hclaim {} {} .plus Number.intMin 0 _ _ (by decide) (by decide)
    (display_of_inRange {} (by decide)) (display_of_inRange {} (by decide)) (by decide)
  have hrefused := outcome_bindingProgram_least {} {} .plus (b := 0) (by decide) (.inl rfl)
  rw [hrefused] at hbinds
  cases hbinds

end ModuLang
