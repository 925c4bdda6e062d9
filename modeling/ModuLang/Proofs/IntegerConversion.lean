import ModuLang.Proofs.PrintedIntegers

/-!
# Integers through texts

The builtin `str` gives the decimal text of an integer, and `int` reads it back, also when blanks stand
around it. No integer is too large for this, as long as its text has no more digits than the host reads.
The way through a float, which `int` takes for other texts and which would round a large number, is
never taken: nothing in the text of an integer is trimmed, changed to a basic digit or dropped as an
underscore, so behind its sign there are digits alone, and these spell its size.
-/

namespace ModuLang

open Eval

namespace Text

/-- Trimming takes off the blanks around a text that has none itself. -/
theorem trimChars_between {front cs back : List Char} (hfront : ∀ c ∈ front, isBlank c = true)
    (hback : ∀ c ∈ back, isBlank c = true) (hcs : ∀ c ∈ cs, isBlank c = false) (hne : cs ≠ []) :
    trimChars (front ++ cs ++ back) = cs := by
  have hstop : ∀ {xs ys : List Char}, (∀ c ∈ xs, isBlank c = false) → xs ≠ [] →
      (xs ++ ys).dropWhile isBlank = xs ++ ys := by
    intro xs ys hxs hne
    obtain ⟨c, rest, rfl⟩ := List.exists_cons_of_ne_nil hne
    rw [List.cons_append, List.dropWhile_cons_of_neg (by simp [hxs c List.mem_cons_self])]
  have hfirst : (front ++ cs ++ back).dropWhile isBlank = cs ++ back := by
    rw [List.append_assoc, List.dropWhile_append_of_pos hfront, hstop hcs hne]
  have hlast : (back.reverse ++ cs.reverse).dropWhile isBlank = cs.reverse := by
    have hend : (cs.reverse ++ []).dropWhile isBlank = cs.reverse ++ [] :=
      hstop (fun c hc => hcs c (List.mem_reverse.mp hc)) (mt List.reverse_eq_nil_iff.mp hne)
    rw [List.dropWhile_append_of_pos fun c hc => hback c (List.mem_reverse.mp hc)]
    rwa [List.append_nil] at hend
  rw [trimChars, hfirst, List.reverse_append, hlast, List.reverse_reverse]

end Text

namespace Number

open Text

variable {n : Int} {s : String}

/-! ### The characters of an integer -/

/-- The characters that the text of an integer is made of. -/
theorem eq_minus_or_isBasicDigit_of_mem_toString {c : Char} (hc : c ∈ (toString n).toList) :
    c = '-' ∨ isBasicDigit c = true := by
  rw [toList_toString_int] at hc
  rcases List.mem_append.mp hc with hminus | hdigit
  · split at hminus
    · exact .inl (List.mem_singleton.mp hminus)
    · cases hminus
  · exact .inr (isBasicDigit_of_mem_toDigits hdigit)

theorem toNat_of_isBasicDigit {c : Char} (hc : isBasicDigit c = true) :
    48 ≤ c.toNat ∧ c.toNat < 58 := by
  simp only [isBasicDigit, Bool.and_eq_true, decide_eq_true_eq, Char.le_def, UInt32.le_iff_toNat_le]
    at hc
  obtain ⟨hlow, hhigh⟩ := hc
  exact ⟨hlow, Nat.lt_succ_of_le hhigh⟩

theorem isBlank_of_isBasicDigit {c : Char} (hc : isBasicDigit c = true) : isBlank c = false := by
  obtain ⟨hlow, hhigh⟩ := toNat_of_isBasicDigit hc
  simp [isBlank]
  omega

/-- A basic digit is its own basic form. -/
theorem basicForm_of_isBasicDigit {c : Char} (hc : isBasicDigit c = true) : basicForm c = c := by
  obtain ⟨hlow, hhigh⟩ := toNat_of_isBasicDigit hc
  have hvalue : digitValue? c = some (c.toNat - 48) := by
    unfold digitValue? digitZeros
    rw [List.find?_cons_of_pos (by simp [hlow, hhigh])]
    rfl
  have hsum : '0'.toNat + (c.toNat - 48) = c.toNat := by
    change 48 + (c.toNat - 48) = c.toNat
    omega
  rw [basicForm, hvalue]
  simp only [hsum, Char.ofNat_toNat]

/-- A numeral without underscores loses none. -/
theorem dropUnderscores?_of_not_mem {cs : List Char} (h : '_' ∉ cs) (afterDigit : Bool) :
    dropUnderscores? afterDigit cs = some cs := by
  induction cs generalizing afterDigit with
  | nil => rw [dropUnderscores?]
  | cons c cs ih =>
    obtain ⟨hc, hcs⟩ := not_or.mp (mt List.mem_cons.mpr h)
    rw [dropUnderscores?, ih hcs]
    · rfl
    all_goals grind

/-! ### Reading the text of an integer -/

theorem toString_ne_nil (n : Int) : (toString n).toList ≠ [] := by
  rw [toList_toString_int]
  exact List.append_ne_nil_of_right_ne_nil _ Nat.toDigits_ne_nil

/-- The text of an integer is plain as it is, once the blanks around it are off. -/
theorem plainNumeral?_between {front back : List Char} (hfront : ∀ c ∈ front, isBlank c = true)
    (hback : ∀ c ∈ back, isBlank c = true) (n : Int) :
    plainNumeral? (String.ofList (front ++ (toString n).toList ++ back)) =
      some (toString n).toList := by
  have hchars : ∀ c ∈ (toString n).toList, c = '-' ∨ isBasicDigit c = true := fun c hc =>
    eq_minus_or_isBasicDigit_of_mem_toString hc
  have hblank : ∀ c ∈ (toString n).toList, isBlank c = false := by
    intro c hc
    rcases hchars c hc with rfl | hdigit
    · decide
    · exact isBlank_of_isBasicDigit hdigit
  have hbasic : (toString n).toList.map basicForm = (toString n).toList := by
    refine (List.map_congr_left fun c hc => ?_).trans (List.map_id _)
    rcases hchars c hc with rfl | hdigit
    · decide
    · exact basicForm_of_isBasicDigit hdigit
  have hunderscore : '_' ∉ (toString n).toList := by
    intro hmem
    rcases hchars '_' hmem with heq | hdigit
    · exact absurd heq (by decide)
    · exact absurd hdigit (by decide)
  rw [plainNumeral?, String.toList_ofList, trimChars_between hfront hback hblank (toString_ne_nil n),
    hbasic, dropUnderscores?_of_not_mem hunderscore]

theorem takeSign_toString (n : Int) :
    takeSign (toString n).toList = (decide (n < 0), Nat.toDigits 10 n.natAbs) := by
  rw [toList_toString_int]
  by_cases hneg : n < 0
  · rw [if_pos hneg, decide_eq_true hneg]
    rfl
  · -- The first character is a digit, so it is taken for no sign.
    have hsign : ∀ c cs, isBasicDigit c = false → Nat.toDigits 10 n.natAbs ≠ c :: cs := by
      intro c cs hc heq
      have hdigit : isBasicDigit c = true := isBasicDigit_of_mem_toDigits (heq ▸ List.mem_cons_self)
      rw [hc] at hdigit
      cases hdigit
    rw [if_neg hneg, decide_eq_false hneg, List.nil_append, takeSign]
    · exact fun cs => hsign '-' cs (by decide)
    · exact fun cs => hsign '+' cs (by decide)

/-- An integer is read from its text, whatever blanks stand around it. -/
theorem readInteger_between {front back : List Char} (hfront : ∀ c ∈ front, isBlank c = true)
    (hback : ∀ c ∈ back, isBlank c = true) (hn : n.natAbs < 10 ^ digitLimit) :
    readInteger (String.ofList (front ++ (toString n).toList ++ back)) = .number n := by
  have hdigits : ((Nat.toDigits 10 n.natAbs).isEmpty ||
      !(Nat.toDigits 10 n.natAbs).all isBasicDigit) = false := by
    have hall : (Nat.toDigits 10 n.natAbs).all isBasicDigit = true :=
      List.all_eq_true.mpr fun c hc => isBasicDigit_of_mem_toDigits hc
    rw [hall, List.isEmpty_eq_false_iff.mpr Nat.toDigits_ne_nil]
    rfl
  have hlength : ¬digitLimit < (Nat.toDigits 10 n.natAbs).length :=
    Nat.not_lt.mpr ((Nat.length_toDigits_le_iff (by decide) (by decide)).mpr hn)
  have hvalue : (if decide (n < 0) then -(n.natAbs : Int) else n.natAbs) = n := by
    simp only [decide_eq_true_eq]
    split <;> omega
  unfold readInteger
  simp only [plainNumeral?_between hfront hback, takeSign_toString, hdigits, hlength, if_false,
    Bool.false_eq_true, digitsValue_toDigits, hvalue]

end Number

/-! ### Conversions in programs -/

/-- Whether a text is another one with blanks around it. -/
def Text.Surrounds (s inner : String) : Prop :=
  ∃ front back : List Char, (∀ c ∈ front, isBlank c = true) ∧ (∀ c ∈ back, isBlank c = true) ∧
    s = String.ofList (front ++ inner.toList ++ back)

section Programs

variable {levels : Nat} {p : Point} {m' : Machine} {n : Int}

/-- A node that applies a native function ends with the value that this gives. -/
theorem Applies.answer_of_ok [Host.Limits] {f : Native} {vs : List Value} {v : Value}
    (h : Applies (evaluate levels) p.config p.machine p.node f vs m')
    (happly : (f.apply vs).outcome m' = (.ok v, m')) :
    (evaluate (levels + 1)).answer p = (.ok v, m') :=
  outcome_atLine_ok p.node.line (h.outcome_evaluateNode.trans happly)

theorem outcome_str_int [Host.Limits] (hn : Number.isWritable n = true) (m : Machine) :
    ((Native.builtin .str).apply [.int n]).outcome m = (.ok (.str (toString n)), m) := by
  change (ofExcept (Library.toStr m.heap (.int n))).outcome m = _
  have htext : Library.toStr m.heap (.int n) = .ok (.str (toString n)) := by
    unfold Library.toStr
    simp only [display_int, Number.writeInteger_of_isWritable hn]
    rfl
  rw [htext]
  rfl

theorem outcome_int_str [Host.Limits] {s : String} (h : Number.readInteger s = .number n)
    (m : Machine) :
    ((Native.builtin .int).apply [.str s]).outcome m = (.ok (.int n), m) := by
  change (ofExcept (Library.toInt (.str s))).outcome m = _
  rw [toInt_of_readInteger h]
  rfl

/-- An integer is read from every text that surrounds its own. -/
theorem Text.Surrounds.readInteger_eq {s : String} (h : Text.Surrounds s (toString n))
    (hn : n.natAbs < 10 ^ Number.digitLimit) : Number.readInteger s = .number n := by
  obtain ⟨front, back, hfront, hback, rfl⟩ := h
  exact Number.readInteger_between hfront hback hn

theorem Text.surrounds_refl (s : String) : Text.Surrounds s s :=
  ⟨[], [], fun _ hc => absurd hc List.not_mem_nil, fun _ hc => absurd hc List.not_mem_nil, by simp⟩

end Programs

/-- An integer of any sign and size survives the conversion to a text and back, if the host reads as many
digits. Wherever a program applies `str` to it, the answer is its text. Wherever a program applies `int`
to this text, with any blanks around it, the answer is the integer, and it was read as one and not as a
float. So a call of `int` on a call of `str` gives it back, a number like the one that went in. -/
theorem int_of_str_gives_back [Host.Limits] {n : Int} (hn : n.natAbs < 10 ^ Number.digitLimit) :
    (∀ {levels : Nat} {p : Point} {m' : Machine},
      Applies (evaluate levels) p.config p.machine p.node (.builtin .str) [.int n] m' →
      (evaluate (levels + 1)).answer p = (.ok (.str (toString n)), m')) ∧
    (∀ {s : String}, Text.Surrounds s (toString n) →
      Library.readNumber s "int" = .ok (.inl n) ∧
      ∀ {levels : Nat} {p : Point} {m' : Machine},
        Applies (evaluate levels) p.config p.machine p.node (.builtin .int) [.str s] m' →
        (evaluate (levels + 1)).answer p = (.ok (.int n), m')) ∧
    (∀ {levels : Nat} {config : Config} {m m' : Machine} {callee : String} {node : Node} {line : Int},
      m.env.get? callee = some (.native (.builtin .int)) →
      Applies (evaluate levels) config m node (.builtin .str) [.int n] m' →
      (evaluate (levels + 2)).answer ⟨config, .call callee [node] line, m⟩ = (.ok (.int n), m')) ∧
    (Value.int n).kind? = some .number := by
  have hstr : ∀ {levels : Nat} {p : Point} {m' : Machine},
      Applies (evaluate levels) p.config p.machine p.node (.builtin .str) [.int n] m' →
      (evaluate (levels + 1)).answer p = (.ok (.str (toString n)), m') := fun happlies =>
    happlies.answer_of_ok (outcome_str_int (Number.isWritable_iff.mpr hn) _)
  have hint : ∀ {s : String}, Text.Surrounds s (toString n) → ∀ {levels p m'},
      Applies (evaluate levels) p.config p.machine p.node (.builtin .int) [.str s] m' →
      (evaluate (levels + 1)).answer p = (.ok (.int n), m') := fun hs _ _ _ happlies =>
    happlies.answer_of_ok (outcome_int_str (hs.readInteger_eq hn) _)
  refine ⟨hstr, fun hs => ⟨?_, hint hs⟩, fun {levels config m m' callee node line} hcallee happlies => ?_,
    rfl⟩
  · rw [Library.readNumber, hs.readInteger_eq hn]
  · -- The argument of the outer call is the text that the inner one gives.
    have hargument : (evaluate (levels + 1) config node).outcome m = (.ok (.str (toString n)), m') :=
      hstr (p := ⟨config, node, m⟩) happlies
    have harguments : (nativeArguments (evaluate (levels + 1)) config (.builtin .int) [node]).outcome m =
        (.ok [.str (toString n)], m') := by
      change (evaluateAll (evaluate (levels + 1)) config [node]).outcome m = _
      rw [evaluateAll, outcome_bind, hargument]
      rfl
    exact hint (Text.surrounds_refl _) (.named hcallee harguments)

/-- The least integer whose text the host reads. -/
def leastReadable : Int := -(10 ^ Number.digitLimit - 1)

theorem natAbs_leastReadable : leastReadable.natAbs < 10 ^ Number.digitLimit := by
  have hpos : 0 < 10 ^ Number.digitLimit := Nat.pow_pos (by decide)
  have hcast : (10 : Int) ^ Number.digitLimit = ((10 ^ Number.digitLimit : Nat) : Int) := by
    push_cast
    rfl
  rw [leastReadable, hcast]
  omega

/-- The least integer that can be read is, from its text and from this text on a line of its own. -/
theorem leastReadable_gives_back :
    (evaluate 3).answer ⟨{}, .call "int" [.call "str" [.literal (.int leastReadable) 1] 1] 1,
        (Session.new {} {}).machine⟩ =
      (.ok (.int leastReadable), (Session.new {} {}).machine) ∧
    (evaluate 3).answer ⟨{}, .call "int" [.literal (.str (String.ofList
          ([' ', '\t'] ++ (toString leastReadable).toList ++ ['\r', '\n']))) 1] 1,
        (Session.new {} {}).machine⟩ =
      (.ok (.int leastReadable), (Session.new {} {}).machine) := by
  have hint : (Session.new {} {}).machine.env.get? "int" = some (.native (.builtin .int)) := by cbv
  have hstr : (Session.new {} {}).machine.env.get? "str" = some (.native (.builtin .str)) := by cbv
  have hblank : ∀ {cs : List Char}, cs.all Text.isBlank = true → ∀ c ∈ cs, Text.isBlank c = true :=
    fun h => List.all_eq_true.mp h
  obtain ⟨-, hread, hthrough, -⟩ := int_of_str_gives_back natAbs_leastReadable
  refine ⟨hthrough hint (.named hstr rfl), (hread ?_).2 (.named hint rfl)⟩
  exact ⟨_, _, hblank (by decide), hblank (by decide), rfl⟩

end ModuLang
