import Mathlib.Data.List.TakeWhile
import ModuLang.Proofs.Grammar
import ModuLang.Proofs.ParserEquations

/-!
# What the parser reads is in the grammar

A step that ends well has used up the tokens of a phrase, and its value is the tree of that phrase.
This holds whatever stands behind the last token, so it also holds of the statements that come
before a failure.

The loops of the parser go from left to right with the tree of what they have read so far, so they
are related to the grammar by the phrase that is already behind them. The nesting is followed by an
induction on the levels.
-/

namespace ModuLang.Source

variable {ending : Ending} {expr operandStep stmt : Parser Node} {ts : List Token}

/-! ### Tokens -/

/-- A token that was required is the next one. -/
theorem expect_eq_ok {wanted : TokenKind → Bool} {what : Expectation} {t : Token}
    {rest : List Token} (h : erase (expect ending wanted what ts) = .ok (t, rest)) :
    ts = t :: rest ∧ wanted t.kind = true := by
  cases ts with
  | nil =>
    rw [erase_expect_nil] at h
    rw [bind_eq_ok] at h
    obtain ⟨_, -, h⟩ := h
    cases h
  | cons u us =>
    rw [erase_expect_cons] at h
    split at h
    · next hw =>
      obtain ⟨rfl, rfl⟩ := Prod.mk.inj (Except.ok.inj h)
      exact ⟨rfl, hw⟩
    · cases h

/-- A token that was found is the next one. -/
theorem accept_eq_some {wanted : TokenKind → Bool} {t : Token} {rest : List Token}
    (h : eraseOption (accept ending wanted ts) = .ok (some (t, rest))) :
    ts = t :: rest ∧ wanted t.kind = true := by
  cases ts with
  | nil =>
    rw [eraseOption_accept_nil] at h
    cases hp : peek ending [] with
    | error e => rw [hp] at h; cases h
    | ok u => rw [hp] at h; cases h
  | cons u us =>
    rw [eraseOption_accept_cons] at h
    split at h
    · next hw =>
      obtain ⟨rfl, rfl⟩ := Prod.mk.inj (Option.some.inj (Except.ok.inj h))
      exact ⟨rfl, hw⟩
    · cases h

/-- The ends of lines that are skipped. -/
theorem exists_newlines (ts : List Token) : ∃ ns, Newlines ns ∧ ts = ns ++ skipNewlines ts := by
  refine ⟨ts.takeWhile (·.kind == .newline), ?_, List.takeWhile_append_dropWhile.symm⟩
  intro t ht
  simpa using List.mem_takeWhile_imp ht

/-- The separators that are skipped. -/
theorem exists_separators (ts : List Token) :
    ∃ ss, Separators ss ∧ ts = ss ++ skipSeparators ts := by
  refine ⟨ts.takeWhile fun t => t.kind == .newline || t.kind == .semicolon, ?_,
    List.takeWhile_append_dropWhile.symm⟩
  intro t ht
  simpa [Token.Separates] using List.mem_takeWhile_imp ht

/-- The kinds that the parser takes for a name are those of the grammar. -/
theorem isNameKind_iff (t : Token) : isNameKind t.kind = true ↔ t.IsName := by
  unfold Token.IsName isNameKind
  cases t.kind <;> simp

/-- Behind the last token there is only the end of the text. -/
theorem peek_nil_kind {t : Token} (h : peek ending [] = .ok t) : t.kind = .endOfText := by
  cases ending with
  | endOfText line => cases h; rfl
  | failed failure => cases h

/-- A token that is seen and is not the end is there. -/
theorem exists_cons_of_peek {t : Token} (h : peek ending ts = .ok t) (ht : t.kind ≠ .endOfText) :
    ∃ rest, ts = t :: rest := by
  cases ts with
  | nil => exact absurd (peek_nil_kind h) ht
  | cons u us =>
    obtain rfl : u = t := Except.ok.inj h
    exact ⟨us, rfl⟩

/-! ### Expressions -/

/-- A step reads only phrases of a kind. -/
def Sound (p : Phrase) (f : Parser p.Tree) : Prop :=
  ∀ ts v rest, erase (f ts) = .ok (v, rest) → ∃ used, Derives p used v ∧ ts = used ++ rest

/-- Arguments are read up to the closing bracket. -/
theorem arguments_sound (hexpr : Sound .expr expr) (ts : List Token) {as : List Node}
    {rest : List Token} (h : erase (arguments ending expr ts) = .ok (as, rest)) :
    ∃ ns used close, Newlines ns ∧ Derives .items used as ∧ close.kind = .rightParen ∧
      ts = ns ++ used ++ close :: rest := by
  rw [erase_arguments] at h
  rw [bind_eq_ok] at h
  obtain ⟨⟨n, behind⟩, hn, h⟩ := h
  rw [bind_eq_ok] at h
  obtain ⟨⟨close, left⟩, hclose, h⟩ := h
  obtain ⟨ns, hns, hts⟩ := exists_newlines ts
  obtain ⟨used, hused, hbehind⟩ := hexpr _ _ _ hn
  obtain ⟨ms, hms, hskip⟩ := exists_newlines behind
  obtain ⟨hc, hkind⟩ := expect_eq_ok hclose
  have hshape : ts = ns ++ (used ++ ms) ++ close :: left := by
    rw [hts, hbehind, hskip, hc]
    simp
  -- A comma goes on with the items behind it, and a bracket ends them.
  split at h
  · next hcomma =>
    rw [bind_eq_ok] at h
    obtain ⟨⟨more, _⟩, hmore, h⟩ := h
    obtain ⟨rfl, rfl⟩ := Prod.mk.inj (Except.ok.inj h)
    have hlt : left.length < ts.length := by
      rw [hshape]
      simp only [List.length_append, List.length_cons]
      omega
    obtain ⟨ns', used', close', hns', hused', hclose', hleft⟩ := arguments_sound hexpr left hmore
    refine ⟨ns, used ++ ms ++ close :: ns' ++ used', close', hns,
      .moreItems hused hms hcomma hns' hused', hclose', ?_⟩
    rw [hshape, hleft]
    simp
  · next hcomma =>
    obtain ⟨rfl, rfl⟩ := Prod.mk.inj (Except.ok.inj h)
    have hparen : close.kind = .rightParen := by simpa [hcomma] using hkind
    exact ⟨ns, used ++ ms, close, hns, .lastItem hused hms, hparen, hshape⟩
termination_by ts.length

/-- What is read behind an opening bracket makes arguments of a call with it. -/
theorem argumentList_sound (hexpr : Sound .expr expr) {paren : Token}
    (hparen : paren.kind = .leftParen) {as : List Node} {rest : List Token}
    (h : erase (argumentList ending expr ts) = .ok (as, rest)) :
    ∃ used, Derives .args (paren :: used) as ∧ ts = used ++ rest := by
  rw [erase_argumentList] at h
  rw [bind_eq_ok] at h
  obtain ⟨found, hfound, h⟩ := h
  cases found with
  | some pair =>
    obtain ⟨close, left⟩ := pair
    obtain ⟨rfl, rfl⟩ := Prod.mk.inj (Except.ok.inj h)
    obtain ⟨ns, hns, hts⟩ := exists_newlines ts
    obtain ⟨hc, hkind⟩ := accept_eq_some hfound
    refine ⟨ns ++ [close], .noArgs hparen hns (by simpa using hkind), ?_⟩
    rw [hts, hc]
    simp
  | none =>
    obtain ⟨ns, used, close, hns, hused, hclose, hts⟩ := arguments_sound hexpr ts h
    refine ⟨ns ++ used ++ [close], .someArgs hparen hns hused hclose, ?_⟩
    rw [hts]
    simp

/-- A chain of properties prolongs the reference that it begins with. -/
theorem propertyChain_sound (hexpr : Sound .expr expr) (ts : List Token) {before : List Token}
    {object n : Node} {rest : List Token} (hbefore : Derives .reference before object)
    (h : erase (propertyChain ending expr object ts) = .ok (n, rest)) :
    ∃ used, Derives .reference (before ++ used) n ∧ ts = used ++ rest := by
  rw [erase_propertyChain] at h
  rw [bind_eq_ok] at h
  obtain ⟨found, hfound, h⟩ := h
  cases found with
  | none =>
    -- No dot follows, so the reference ends where it was.
    obtain ⟨rfl, rfl⟩ := Prod.mk.inj (Except.ok.inj h)
    exact ⟨[], by simpa using hbefore, rfl⟩
  | some pair =>
    obtain ⟨dot, behind⟩ := pair
    obtain ⟨rfl, hdot⟩ := accept_eq_some hfound
    rw [bind_eq_ok] at h
    obtain ⟨⟨name, left⟩, hname, h⟩ := h
    obtain ⟨rfl, hident⟩ := expect_eq_ok hname
    rw [bind_eq_ok] at h
    obtain ⟨found, hparen, h⟩ := h
    have hdot' : dot.kind = .dot := by simpa using hdot
    have hident' : name.kind = .identifier := by simpa using hident
    -- The rest of the chain prolongs the property or, with a bracket behind its name, the call.
    cases found with
    | none =>
      obtain ⟨used, hused, rfl⟩ :=
        propertyChain_sound hexpr left (.property hbefore hdot' hident') h
      exact ⟨dot :: name :: used, by simpa using hused, rfl⟩
    | some pair =>
      obtain ⟨paren, inner⟩ := pair
      obtain ⟨rfl, hkind⟩ := accept_eq_some hparen
      rw [bind_eq_ok] at h
      obtain ⟨⟨as, left⟩, has, h⟩ := h
      obtain ⟨args, hargs, rfl⟩ := argumentList_sound hexpr (by simpa using hkind) has
      have hlt : left.length < (dot :: name :: paren :: (args ++ left)).length := by
        simp only [List.length_cons, List.length_append]
        omega
      obtain ⟨used, hused, rfl⟩ :=
        propertyChain_sound hexpr left (.methodCall hbefore hdot' hident' hargs) h
      exact ⟨dot :: name :: paren :: args ++ used, by simpa using hused, by simp⟩
termination_by ts.length

/-- The body of an object literal is read up to its closing brace. -/
theorem recordBody_sound (hexpr : Sound .expr expr) (ts : List Token) {ps : List (String × Node)}
    {rest : List Token} (h : erase (recordBody ending expr ts) = .ok (ps, rest)) :
    ∃ ns used close, Newlines ns ∧ close.kind = .rightBrace ∧
      (ps = [] ∧ used = [] ∨ Derives .pairs used ps ∨
        ∃ us comma ms, Derives .pairs us ps ∧ comma.kind = .comma ∧ Newlines ms ∧
          used = us ++ comma :: ms) ∧
      ts = ns ++ used ++ close :: rest := by
  rw [erase_recordBody] at h
  rw [bind_eq_ok] at h
  obtain ⟨⟨first, behind⟩, hfirst, h⟩ := h
  obtain ⟨ns, hns, hts⟩ := exists_newlines ts
  obtain ⟨hf, hkind⟩ := expect_eq_ok hfirst
  -- The first token closes the body, or it is the key of a pair.
  split at h
  · next hbrace =>
    obtain ⟨rfl, rfl⟩ := Prod.mk.inj (Except.ok.inj h)
    refine ⟨ns, [], first, hns, hbrace, .inl ⟨rfl, rfl⟩, ?_⟩
    rw [hts, hf]
    simp
  · next hbrace =>
    rw [bind_eq_ok] at h
    obtain ⟨⟨colon, behind'⟩, hcolon, h⟩ := h
    rw [bind_eq_ok] at h
    obtain ⟨⟨n, left⟩, hn, h⟩ := h
    rw [bind_eq_ok] at h
    obtain ⟨⟨close, left'⟩, hclose, h⟩ := h
    obtain ⟨rfl, hcolon'⟩ := expect_eq_ok hcolon
    obtain ⟨ms, hms, hskip⟩ := exists_newlines behind'
    obtain ⟨us, hus, hbehind⟩ := hexpr _ _ _ hn
    obtain ⟨ks, hks, hskip'⟩ := exists_newlines left
    obtain ⟨hc, hend⟩ := expect_eq_ok hclose
    have hkey : first.IsKey := by
      simp only [hbrace, Bool.or_eq_true, beq_iff_eq, false_or, isNameKind_iff] at hkind
      exact or_assoc.mp hkind
    have hpair : Derives .pair (first :: colon :: ms ++ us ++ ks) (first.key, n) :=
      .pair hkey (by simpa using hcolon') hms hus hks
    have hshape : ts = ns ++ (first :: colon :: ms ++ us ++ ks) ++ close :: left' := by
      rw [hts, hf, hskip, hbehind, hskip', hc]
      simp
    split at h
    · next hcomma =>
      rw [bind_eq_ok] at h
      obtain ⟨⟨more, _⟩, hmore, h⟩ := h
      obtain ⟨rfl, rfl⟩ := Prod.mk.inj (Except.ok.inj h)
      have hlt : left'.length < ts.length := by
        rw [hshape]
        simp only [List.length_append, List.length_cons]
        omega
      obtain ⟨ns', used', close', hns', hclose', hbody, hleft⟩ := recordBody_sound hexpr left' hmore
      refine ⟨ns, first :: colon :: ms ++ us ++ ks ++ close :: ns' ++ used', close', hns, hclose',
        ?_, by rw [hshape, hleft]; simp⟩
      -- A comma before the brace ends the pairs; before another pair it goes on with them.
      rcases hbody with ⟨rfl, rfl⟩ | hpairs | ⟨vs, comma, ls, hpairs, hcomma', hls, rfl⟩
      · exact .inr (.inr ⟨_, close, ns', .lastPair hpair, hcomma, hns', by simp⟩)
      · exact .inr (.inl (.morePairs hpair hcomma hns' hpairs))
      · exact .inr (.inr ⟨_, comma, ls, .morePairs hpair hcomma hns' hpairs, hcomma', hls,
          by simp⟩)
    · next hcomma =>
      obtain ⟨rfl, rfl⟩ := Prod.mk.inj (Except.ok.inj h)
      have hclose' : close.kind = .rightBrace := by simpa [hcomma] using hend
      exact ⟨ns, _, close, hns, hclose', .inr (.inl (.lastPair hpair)), hshape⟩
termination_by ts.length

/-- What is read behind an opening brace makes an object literal with it. -/
theorem recordBody_sound_term (hexpr : Sound .expr expr) {brace : Token}
    (hbrace : brace.kind = .leftBrace) {ps : List (String × Node)} {rest : List Token}
    (h : erase (recordBody ending expr ts) = .ok (ps, rest)) :
    ∃ used, Derives .term (brace :: used) (.record ps brace.line) ∧ ts = used ++ rest := by
  obtain ⟨ns, used, close, hns, hclose, hbody, hts⟩ := recordBody_sound hexpr ts h
  have hmembers : Derives .members (ns ++ used) ps := by
    rcases hbody with ⟨rfl, rfl⟩ | hpairs | ⟨us, comma, ms, hpairs, hcomma, hms, rfl⟩
    · simpa using Derives.noMembers hns
    · exact .someMembers hns hpairs
    · simpa using Derives.membersComma hns hpairs hcomma hms
  refine ⟨ns ++ used ++ [close], .termObject hbrace hmembers hclose, ?_⟩
  rw [hts]
  simp

/-- A literal is a term. -/
theorem literalOf?_sound {t : Token} {n : Node} (h : literalOf? t = some n) :
    Derives .term [t] n := by
  unfold literalOf? at h
  split at h
  · next hk => cases h; exact .termNumber hk
  · next hk => cases h; exact .termFloat hk
  · next hk => cases h; exact .termBoolean hk
  · next hk => cases h; exact .termString hk
  · cases h

/-- The tokens that begin a term: a literal, an opening brace or a name. -/
theorem startsTerm_cases {t : Token} (h : startsTerm t.kind = true) :
    (∃ n, literalOf? t = some n) ∨ t.kind = .leftBrace ∨ t.kind = .identifier := by
  unfold literalOf?
  cases hk : t.kind <;> simp_all [startsTerm]

theorem term_sound (hexpr : Sound .expr expr) : Sound .term (term ending expr) := by
  intro ts n rest h
  by_cases hstart : ∃ t us, ts = t :: us ∧ startsTerm t.kind = true
  · obtain ⟨t, us, rfl, ht⟩ := hstart
    rcases startsTerm_cases ht with ⟨m, hm⟩ | hbrace | hident
    · rw [erase_term_literal hm] at h
      obtain ⟨rfl, rfl⟩ := Prod.mk.inj (Except.ok.inj h)
      exact ⟨[t], literalOf?_sound hm, rfl⟩
    · rw [erase_term_leftBrace hbrace] at h
      rw [bind_eq_ok] at h
      obtain ⟨⟨ps, left⟩, hps, h⟩ := h
      obtain ⟨rfl, rfl⟩ := Prod.mk.inj (Except.ok.inj h)
      obtain ⟨used, hused, rfl⟩ := recordBody_sound_term hexpr hbrace hps
      exact ⟨t :: used, hused, rfl⟩
    · rw [erase_term_identifier hident] at h
      rw [bind_eq_ok] at h
      obtain ⟨found, hfound, h⟩ := h
      -- A chain of properties may follow a name as well as a call.
      cases found with
      | none =>
        obtain ⟨used, hused, rfl⟩ := propertyChain_sound hexpr us (.bareName hident) h
        exact ⟨t :: used, .termReference hused, rfl⟩
      | some pair =>
        obtain ⟨paren, left⟩ := pair
        obtain ⟨rfl, hparen⟩ := accept_eq_some hfound
        rw [bind_eq_ok] at h
        obtain ⟨⟨as, left'⟩, has, h⟩ := h
        obtain ⟨args, hargs, rfl⟩ := argumentList_sound hexpr (by simpa using hparen) has
        obtain ⟨used, hused, rfl⟩ := propertyChain_sound hexpr left' (.call hident hargs) h
        exact ⟨t :: paren :: args ++ used, .termReference (by simpa using hused), by simp⟩
  · rw [erase_term_other fun t us hts => by
      by_contra hk
      exact hstart ⟨t, us, hts, by simpa using hk⟩] at h
    rw [bind_eq_ok] at h
    obtain ⟨_, -, h⟩ := h
    cases h

/-- A sum prolongs the expression that it begins with. -/
theorem sumChain_sound (hoperand : Sound .operand operandStep) (ts : List Token)
    {before : List Token} {left n : Node} {rest : List Token} (hbefore : Derives .expr before left)
    (h : erase (sumChain ending operandStep left ts) = .ok (n, rest)) :
    ∃ used, Derives .expr (before ++ used) n ∧ ts = used ++ rest := by
  rw [erase_sumChain] at h
  rw [bind_eq_ok] at h
  obtain ⟨found, hfound, h⟩ := h
  cases found with
  | none =>
    obtain ⟨rfl, rfl⟩ := Prod.mk.inj (Except.ok.inj h)
    exact ⟨[], by simpa using hbefore, rfl⟩
  | some pair =>
    obtain ⟨sign, behind⟩ := pair
    obtain ⟨rfl, hsign⟩ := accept_eq_some hfound
    rw [bind_eq_ok] at h
    obtain ⟨⟨right, left'⟩, hright, h⟩ := h
    obtain ⟨us, hus, rfl⟩ := hoperand _ _ _ hright
    have hsign' : sign.kind = .plus ∨ sign.kind = .minus := by simpa using hsign
    have hlt : left'.length < (sign :: (us ++ left')).length := by
      simp only [List.length_cons, List.length_append]
      omega
    obtain ⟨used, hused, rfl⟩ := sumChain_sound hoperand left' (.exprSum hbefore hsign' hus) h
    exact ⟨sign :: us ++ used, by simpa using hused, by simp⟩
termination_by ts.length

theorem sum_sound (hoperand : Sound .operand operandStep) : Sound .expr (sum ending operandStep) := by
  intro ts n rest h
  rw [erase_sum] at h
  rw [bind_eq_ok] at h
  obtain ⟨⟨first, left⟩, hfirst, h⟩ := h
  obtain ⟨us, hus, rfl⟩ := hoperand _ _ _ hfirst
  obtain ⟨used, hused, rfl⟩ := sumChain_sound hoperand left (.exprOperand hus) h
  exact ⟨us ++ used, hused, by simp⟩

theorem operand_sound (levels : Nat) : Sound .operand (operand ending levels) := by
  induction levels with
  | zero =>
    intro ts n rest h
    rw [erase_operand_zero] at h
    cases h
  | succ levels ih =>
    intro ts n rest h
    rw [erase_operand_succ] at h
    rw [bind_eq_ok] at h
    obtain ⟨found, hfound, h⟩ := h
    cases found with
    | none =>
      obtain ⟨used, hused, rfl⟩ := term_sound (sum_sound ih) _ _ _ h
      exact ⟨used, .operandTerm hused, rfl⟩
    | some pair =>
      obtain ⟨sign, behind⟩ := pair
      obtain ⟨rfl, hsign⟩ := accept_eq_some hfound
      rw [bind_eq_ok] at h
      obtain ⟨⟨inner, left⟩, hinner, h⟩ := h
      obtain ⟨rfl, rfl⟩ := Prod.mk.inj (Except.ok.inj h)
      obtain ⟨used, hused, rfl⟩ := ih _ _ _ hinner
      exact ⟨sign :: used, .operandMinus (by simpa using hsign) hused, rfl⟩

theorem expression_sound (levels : Nat) : Sound .expr (expression ending levels) :=
  sum_sound (operand_sound levels)

/-! ### Statements -/

/-- A statement that ended well is followed by a separator or by what closes the statements. -/
theorem ended_sound {f : Bool} (hstmt : Sound (.stmt f) stmt) {n : Node} {rest : List Token}
    (h : erase (ended ending stmt ts) = .ok (n, rest)) :
    ∃ used t, Derives (.stmt f) used n ∧ ts = used ++ rest ∧ peek ending rest = .ok t ∧
      endsStatement t.kind = true := by
  rw [erase_ended, bind_eq_ok] at h
  obtain ⟨⟨m, left⟩, hm, h⟩ := h
  rw [bind_eq_ok] at h
  obtain ⟨t, ht, h⟩ := h
  obtain ⟨used, hused, hts⟩ := hstmt _ _ _ hm
  split at h
  · next hend =>
    obtain ⟨rfl, rfl⟩ := Prod.mk.inj (Except.ok.inj h)
    exact ⟨used, t, hused, hts, ht, hend⟩
  · cases h

/-- The kinds that end a statement: separators, and what closes the statements. -/
theorem endsStatement_cases {t : Token} (h : endsStatement t.kind = true) :
    t.Separates ∨ t.kind = .rightBrace ∨ t.kind = .endOfText := by
  unfold Token.Separates
  cases hk : t.kind <;> simp_all [endsStatement]

/-- Tokens that begin with none to be skipped. -/
theorem skipSeparators_of_not {t : Token} (ht : ¬t.Separates) :
    skipSeparators (t :: ts) = t :: ts := by
  unfold skipSeparators
  rw [List.dropWhile_cons_of_neg (by simpa [Token.Separates] using ht)]

/-- A separator in front of the statements of a body is skipped. -/
theorem bodyStatements_cons {t : Token} (ht : t.Separates) (openLine : Int) :
    erase (bodyStatements ending stmt openLine (t :: ts)) =
      erase (bodyStatements ending stmt openLine ts) := by
  rw [erase_bodyStatements, skipSeparators_cons ht, ← erase_bodyStatements]

/-- The closing brace of a body has no statement in front of it. -/
theorem bodyStatements_rightBrace {t : Token} (ht : t.kind = .rightBrace) (openLine : Int) :
    erase (bodyStatements ending stmt openLine (t :: ts)) = .ok ([], ts) := by
  rw [erase_bodyStatements, skipSeparators_of_not (by simp [Token.Separates, ht]),
    eraseOption_accept_cons]
  simp [ht]

/-- A body that is not closed is refused. -/
theorem bodyStatements_endOfText {t : Token} (hnext : peek ending ts = .ok t)
    (ht : t.kind = .endOfText) (openLine : Int) :
    erase (bodyStatements ending stmt openLine ts) = failAt (.bodyNotClosed openLine) t.line := by
  rw [erase_bodyStatements]
  cases ts with
  | nil =>
    rw [show skipSeparators [] = [] from rfl, eraseOption_accept_nil, hnext]
    simp [Except.map, ht]
  | cons u us =>
    obtain rfl : u = t := Except.ok.inj hnext
    rw [skipSeparators_of_not (by simp [Token.Separates, ht]), eraseOption_accept_cons, hnext]
    simp [ht]

/-- The statements of a body are read up to its closing brace. -/
theorem bodyStatements_sound {f : Bool} (hstmt : Sound (.stmt f) stmt) (openLine : Int)
    (ts : List Token) {ns : List Node} {rest : List Token}
    (h : erase (bodyStatements ending stmt openLine ts) = .ok (ns, rest)) :
    ∃ used close, Derives (.stmts f) used ns ∧ close.kind = .rightBrace ∧
      ts = used ++ close :: rest := by
  rw [erase_bodyStatements, bind_eq_ok] at h
  obtain ⟨found, hfound, h⟩ := h
  obtain ⟨ss, hss, hts⟩ := exists_separators ts
  cases found with
  | some pair =>
    obtain ⟨close, left⟩ := pair
    obtain ⟨rfl, rfl⟩ := Prod.mk.inj (Except.ok.inj h)
    obtain ⟨hc, hkind⟩ := accept_eq_some hfound
    exact ⟨ss, close, .noStmts hss, by simpa using hkind, by rw [hts, hc]⟩
  | none =>
    rw [bind_eq_ok] at h
    obtain ⟨t, -, h⟩ := h
    split at h
    · cases h
    · rw [bind_eq_ok] at h
      obtain ⟨⟨n, left⟩, hn, h⟩ := h
      rw [bind_eq_ok] at h
      obtain ⟨⟨more, _⟩, hmore, h⟩ := h
      obtain ⟨rfl, rfl⟩ := Prod.mk.inj (Except.ok.inj h)
      obtain ⟨us, next, hus, hskip, hnext, hend⟩ := ended_sound hstmt hn
      -- What ends the statement goes on with the body, closes it, or leaves it open.
      rcases endsStatement_cases hend with hsep | hbrace | htext
      · obtain ⟨left', rfl⟩ := exists_cons_of_peek hnext hsep.kind_ne
        have hlt : left'.length < ts.length := by
          rw [hts, hskip]
          simp only [List.length_append, List.length_cons]
          omega
        rw [bodyStatements_cons hsep] at hmore
        obtain ⟨used, close, hused, hclose, hleft⟩ :=
          bodyStatements_sound hstmt openLine left' hmore
        refine ⟨ss ++ us ++ next :: used, close, .moreStmts hss hus hsep hused, hclose, ?_⟩
        rw [hts, hskip, hleft]
        simp
      · obtain ⟨left', rfl⟩ := exists_cons_of_peek hnext (by simp [hbrace])
        rw [bodyStatements_rightBrace hbrace] at hmore
        obtain ⟨rfl, rfl⟩ := Prod.mk.inj (Except.ok.inj hmore)
        refine ⟨ss ++ us, next, .lastStmt hss hus, hbrace, ?_⟩
        rw [hts, hskip]
        simp
      · rw [bodyStatements_endOfText hnext htext] at hmore
        cases hmore
termination_by ts.length

theorem body_sound {f : Bool} (hstmt : Sound (.stmt f) stmt) :
    Sound (.body f) (body ending stmt) := by
  intro ts ns rest h
  rw [erase_body, bind_eq_ok] at h
  obtain ⟨⟨brace, behind⟩, hbrace, h⟩ := h
  obtain ⟨rfl, hkind⟩ := expect_eq_ok hbrace
  obtain ⟨used, close, hused, hclose, rfl⟩ := bodyStatements_sound hstmt _ _ h
  exact ⟨brace :: used ++ [close], .body (by simpa using hkind) hused hclose, by simp⟩

/-- What is read behind `let` makes a binding with it. -/
theorem letStatement_sound (hexpr : Sound .expr expr) {f : Bool} {word : Token}
    (hword : word.kind = .letWord) {n : Node} {rest : List Token}
    (h : erase (letStatement ending expr word ts) = .ok (n, rest)) :
    ∃ used, Derives (.stmt f) (word :: used) n ∧ ts = used ++ rest := by
  rw [erase_letStatement, bind_eq_ok] at h
  obtain ⟨⟨name, behind⟩, hname, h⟩ := h
  rw [bind_eq_ok] at h
  obtain ⟨⟨sign, behind'⟩, hsign, h⟩ := h
  rw [bind_eq_ok] at h
  obtain ⟨⟨value, left⟩, hvalue, h⟩ := h
  obtain ⟨rfl, rfl⟩ := Prod.mk.inj (Except.ok.inj h)
  obtain ⟨rfl, hname'⟩ := expect_eq_ok hname
  obtain ⟨rfl, hsign'⟩ := expect_eq_ok hsign
  obtain ⟨used, hused, rfl⟩ := hexpr _ _ _ hvalue
  exact ⟨name :: sign :: used,
    .binding hword ((isNameKind_iff name).mp hname') (by simpa using hsign') hused, rfl⟩

/-- What is read behind `import` makes an import with it. -/
theorem importStatement_sound {f : Bool} {word : Token} (hword : word.kind = .importWord) {n : Node}
    {rest : List Token} (h : erase (importStatement ending word ts) = .ok (n, rest)) :
    ∃ used, Derives (.stmt f) (word :: used) n ∧ ts = used ++ rest := by
  rw [erase_importStatement, bind_eq_ok] at h
  obtain ⟨⟨target, behind⟩, htarget, h⟩ := h
  obtain ⟨rfl, hstring⟩ := expect_eq_ok htarget
  rw [bind_eq_ok] at h
  obtain ⟨found, hfound, h⟩ := h
  cases found with
  | none =>
    obtain ⟨rfl, rfl⟩ := Prod.mk.inj (Except.ok.inj h)
    exact ⟨[target], .importing hword (by simpa using hstring), rfl⟩
  | some pair =>
    obtain ⟨asWord, left⟩ := pair
    obtain ⟨rfl, has⟩ := accept_eq_some hfound
    rw [bind_eq_ok] at h
    obtain ⟨⟨chosen, left'⟩, hchosen, h⟩ := h
    obtain ⟨rfl, rfl⟩ := Prod.mk.inj (Except.ok.inj h)
    obtain ⟨rfl, hkind⟩ := expect_eq_ok hchosen
    exact ⟨[target, asWord, chosen],
      .importingAs hword (by simpa using hstring) (by simpa using has) (by simpa using hkind), rfl⟩

/-- Parameters are names with commas between them. -/
theorem parameters_sound (ts : List Token) {ps : List String} {rest : List Token}
    (h : erase (parameters ending ts) = .ok (ps, rest)) :
    ∃ used, Derives .params used ps ∧ ts = used ++ rest := by
  rw [erase_parameters, bind_eq_ok] at h
  obtain ⟨⟨name, behind⟩, hname, h⟩ := h
  obtain ⟨rfl, hident⟩ := expect_eq_ok hname
  rw [bind_eq_ok] at h
  obtain ⟨found, hfound, h⟩ := h
  have hident' : name.kind = .identifier := by simpa using hident
  cases found with
  | none =>
    obtain ⟨rfl, rfl⟩ := Prod.mk.inj (Except.ok.inj h)
    exact ⟨[name], .lastParam hident', rfl⟩
  | some pair =>
    obtain ⟨comma, left⟩ := pair
    obtain ⟨rfl, hcomma⟩ := accept_eq_some hfound
    rw [bind_eq_ok] at h
    obtain ⟨⟨more, _⟩, hmore, h⟩ := h
    obtain ⟨rfl, rfl⟩ := Prod.mk.inj (Except.ok.inj h)
    obtain ⟨used, hused, rfl⟩ := parameters_sound left hmore
    exact ⟨name :: comma :: used, .moreParams hident' (by simpa using hcomma) hused, rfl⟩
termination_by ts.length

/-- What is read behind `fn` makes a definition with it. -/
theorem functionStatement_sound (hstmt : Sound (.stmt true) stmt) {f : Bool} {word : Token}
    (hword : word.kind = .fnWord) {n : Node} {rest : List Token}
    (h : erase (functionStatement ending stmt word ts) = .ok (n, rest)) :
    ∃ used, Derives (.stmt f) (word :: used) n ∧ ts = used ++ rest := by
  rw [erase_functionStatement, bind_eq_ok] at h
  obtain ⟨⟨name, behind⟩, hname, h⟩ := h
  obtain ⟨rfl, hident⟩ := expect_eq_ok hname
  rw [bind_eq_ok] at h
  obtain ⟨⟨paren, behind'⟩, hparen, h⟩ := h
  obtain ⟨rfl, hopen⟩ := expect_eq_ok hparen
  rw [bind_eq_ok] at h
  obtain ⟨⟨params, left⟩, hparams, h⟩ := h
  rw [bind_eq_ok] at h
  obtain ⟨⟨statements, left'⟩, hbody, h⟩ := h
  obtain ⟨rfl, rfl⟩ := Prod.mk.inj (Except.ok.inj h)
  obtain ⟨us, hus, rfl⟩ := body_sound hstmt _ _ _ hbody
  have hident' : name.kind = .identifier := by simpa using hident
  have hopen' : paren.kind = .leftParen := by simpa using hopen
  -- There are no parameters if the parenthesis is closed at once.
  rw [erase_parameterList, bind_eq_ok] at hparams
  obtain ⟨found, hfound, hparams⟩ := hparams
  cases found with
  | some pair =>
    obtain ⟨close, rest⟩ := pair
    obtain ⟨rfl, rfl⟩ := Prod.mk.inj (Except.ok.inj hparams)
    obtain ⟨rfl, hclose⟩ := accept_eq_some hfound
    exact ⟨name :: paren :: close :: us,
      .definition hword hident' hopen' (by simpa using hclose) hus, rfl⟩
  | none =>
    rw [bind_eq_ok] at hparams
    obtain ⟨⟨names, rest⟩, hnames, hparams⟩ := hparams
    rw [bind_eq_ok] at hparams
    obtain ⟨⟨close, rest'⟩, hclose, hparams⟩ := hparams
    obtain ⟨rfl, rfl⟩ := Prod.mk.inj (Except.ok.inj hparams)
    obtain ⟨rfl, hkind⟩ := expect_eq_ok hclose
    obtain ⟨used, hused, rfl⟩ := parameters_sound _ hnames
    exact ⟨name :: paren :: used ++ close :: us,
      .definitionParams hword hident' hopen' hused (by simpa using hkind) hus, by simp⟩

/-- What is read behind `if` makes a conditional with it. -/
theorem ifStatement_sound (hexpr : Sound .expr expr) {f : Bool} (hstmt : Sound (.stmt f) stmt)
    {word : Token} (hword : word.kind = .ifWord) {n : Node} {rest : List Token}
    (h : erase (ifStatement ending expr stmt word ts) = .ok (n, rest)) :
    ∃ used, Derives (.stmt f) (word :: used) n ∧ ts = used ++ rest := by
  rw [erase_ifStatement, bind_eq_ok] at h
  obtain ⟨⟨test, behind⟩, htest, h⟩ := h
  rw [bind_eq_ok] at h
  obtain ⟨⟨statements, left⟩, hbody, h⟩ := h
  obtain ⟨rfl, rfl⟩ := Prod.mk.inj (Except.ok.inj h)
  obtain ⟨us, hus, rfl⟩ := body_sound hstmt _ _ _ hbody
  rw [erase_condition, bind_eq_ok] at htest
  obtain ⟨⟨l, behind⟩, hl, htest⟩ := htest
  obtain ⟨ls, hls, rfl⟩ := hexpr _ _ _ hl
  rw [comparisonFrom, bind_eq_ok] at htest
  obtain ⟨found, hfound, htest⟩ := htest
  cases found with
  | none =>
    obtain ⟨rfl, rfl⟩ := Prod.mk.inj (Except.ok.inj htest)
    exact ⟨ls ++ us, .conditional hword hls hus, by simp⟩
  | some pair =>
    obtain ⟨sign, behind'⟩ := pair
    obtain ⟨rfl, hsign⟩ := accept_eq_some hfound
    rw [bind_eq_ok] at htest
    obtain ⟨⟨r, behind''⟩, hr, htest⟩ := htest
    obtain ⟨rfl, rfl⟩ := Prod.mk.inj (Except.ok.inj htest)
    obtain ⟨rs, hrs, rfl⟩ := hexpr _ _ _ hr
    exact ⟨ls ++ sign :: rs ++ us,
      .conditionalComparison hword hls (by simpa using hsign) hrs hus, by simp⟩

/-- What is read behind `return` makes a return with it, inside a function. -/
theorem returnStatement_sound (hexpr : Sound .expr expr) {f : Bool} {word : Token}
    (hword : word.kind = .returnWord) {n : Node} {rest : List Token}
    (h : erase (returnStatement ending expr f word ts) = .ok (n, rest)) :
    ∃ used, Derives (.stmt f) (word :: used) n ∧ ts = used ++ rest := by
  rw [erase_returnStatement] at h
  cases f with
  | false => cases h
  | true =>
    simp only [Bool.true_eq_false, if_false] at h
    rw [bind_eq_ok] at h
    obtain ⟨t, -, h⟩ := h
    split at h
    · obtain ⟨rfl, rfl⟩ := Prod.mk.inj (Except.ok.inj h)
      exact ⟨[], .returning hword, rfl⟩
    · rw [bind_eq_ok] at h
      obtain ⟨⟨value, left⟩, hvalue, h⟩ := h
      obtain ⟨rfl, rfl⟩ := Prod.mk.inj (Except.ok.inj h)
      obtain ⟨used, hused, rfl⟩ := hexpr _ _ _ hvalue
      exact ⟨used, .returningValue hword hused, rfl⟩

theorem statement_sound (levels : Nat) (f : Bool) :
    Sound (.stmt f) (statement ending levels f) := by
  induction levels generalizing f with
  | zero =>
    intro ts n rest h
    rw [erase_statement_zero] at h
    cases h
  | succ levels ih =>
    intro ts n rest h
    rw [erase_statement_succ, bind_eq_ok] at h
    obtain ⟨found, hfound, h⟩ := h
    cases found with
    | none =>
      obtain ⟨used, hused, rfl⟩ := expression_sound levels _ _ _ h
      exact ⟨used, .expression hused, rfl⟩
    | some pair =>
      obtain ⟨word, behind⟩ := pair
      obtain ⟨rfl, hword⟩ := accept_eq_some hfound
      have hbehind : ∃ used, Derives (.stmt f) (word :: used) n ∧ behind = used ++ rest := by
        change statementBehind ending levels f word behind = .ok (n, rest) at h
        unfold statementBehind at h
        split at h
        · next hk => exact letStatement_sound (expression_sound levels) hk h
        · next hk => exact importStatement_sound hk h
        · next hk => exact functionStatement_sound (ih true) hk h
        · next hk => exact ifStatement_sound (expression_sound levels) (ih f) hk h
        · next h₁ h₂ h₃ h₄ =>
          -- Of the words that begin a statement only `return` is left.
          have hk : word.kind = .returnWord := by
            cases hk : word.kind <;> simp_all [startsStatement]
          exact returnStatement_sound (expression_sound levels) hk h
      obtain ⟨used, hused, rfl⟩ := hbehind
      exact ⟨word :: used, hused, rfl⟩

/-! ### Programs -/

/-- A step leaves fewer tokens than its bound. -/
theorem erase_shorter {α : Type} {b : Nat} {r : Except Failure (Parsed α b)} {v : α}
    {rest : List Token} (h : erase r = .ok (v, rest)) : rest.length < b := by
  cases r with
  | error e => cases h
  | ok p =>
    obtain ⟨-, rfl⟩ := Prod.mk.inj (Except.ok.inj h)
    exact p.shorter

/-- A statement of a program leaves fewer tokens than there were with the separators. -/
theorem ended_shorter {n : Node} {rest : List Token}
    (h : erase (ended ending stmt (skipSeparators ts)) = .ok (n, rest)) :
    rest.length < ts.length :=
  Nat.lt_of_lt_of_le (erase_shorter h) (length_skipSeparators_le ts)

/-- Every statement that was read is a statement of the grammar and made of the tokens that were there,
whatever stands behind it. -/
theorem programStatements_forall (levels : Nat) (ts : List Token) :
    ∀ n ∈ (programStatements ending levels ts).statements,
      ∃ used, Derives (.stmt false) used n ∧ used ⊆ ts := by
  rw [programStatements_eq]
  cases peek ending (skipSeparators ts) with
  | error failure => simp
  | ok t =>
    simp only
    split
    · simp
    · split
      · simp
      · cases hnode : erase (ended ending (statement ending levels false) (skipSeparators ts)) with
        | error failure => simp
        | ok node =>
          have hlt : node.2.length < ts.length := ended_shorter hnode
          obtain ⟨used, next, hused, hskip, -⟩ := ended_sound (statement_sound levels false) hnode
          -- Only separators in front of the statement are left out.
          have hsub : used ++ node.2 ⊆ ts := by
            obtain ⟨ss, -, hts⟩ := exists_separators ts
            rw [hts, hskip]
            exact List.subset_append_right _ _
          intro n hn
          rcases List.mem_cons.mp hn with rfl | hn
          · exact ⟨used, hused, fun t ht => hsub (List.mem_append_left _ ht)⟩
          · obtain ⟨later, hlater, hbehind⟩ := programStatements_forall levels node.2 n hn
            exact ⟨later, hlater, fun t ht => hsub (List.mem_append_right _ (hbehind ht))⟩
termination_by ts.length

/-- A separator in front of a program is skipped. -/
theorem programStatements_cons {t : Token} (ht : t.Separates) (levels : Nat) :
    programStatements ending levels (t :: ts) = programStatements ending levels ts := by
  rw [programStatements_eq, skipSeparators_cons ht, ← programStatements_eq]

/-- A closing brace without an opening one is refused. -/
theorem programStatements_rightBrace {t : Token} (ht : t.kind = .rightBrace) (levels : Nat) :
    programStatements ending levels (t :: ts) = ⟨[], some (.fault ⟨.strayBrace, t.line⟩)⟩ := by
  rw [programStatements_eq, skipSeparators_of_not (by simp [Token.Separates, ht])]
  simp [peek, ht]

/-- At the end of the text a program ends. -/
theorem programStatements_endOfText {t : Token} (hnext : peek ending ts = .ok t)
    (ht : t.kind = .endOfText) (levels : Nat) :
    programStatements ending levels ts = ⟨[], none⟩ := by
  have hskip : skipSeparators ts = ts := by
    cases ts with
    | nil => rfl
    | cons u us =>
      obtain rfl : u = t := Except.ok.inj hnext
      exact skipSeparators_of_not (by simp [Token.Separates, ht])
  rw [programStatements_eq, hskip, hnext]
  simp only [if_pos ht]

/-- A program that is read without a failure is a program of the grammar, and behind it stands the
end of the text. -/
theorem programStatements_sound (levels : Nat) (ts : List Token)
    (h : (programStatements ending levels ts).failure = none) :
    ∃ used rest t, Derives (.stmts false) used (programStatements ending levels ts).statements ∧
      ts = used ++ rest ∧ peek ending rest = .ok t ∧ t.kind = .endOfText := by
  obtain ⟨ss, hss, hts⟩ := exists_separators ts
  rw [programStatements_eq] at h ⊢
  cases hpeek : peek ending (skipSeparators ts) with
  | error failure =>
    rw [hpeek] at h
    cases h
  | ok t =>
    rw [hpeek] at h
    simp only at h ⊢
    split at h
    · next ht =>
      rw [if_pos ht]
      exact ⟨ss, skipSeparators ts, t, .noStmts hss, hts, hpeek, ht⟩
    · next ht =>
      rw [if_neg ht]
      split at h
      · cases h
      · next hbrace =>
        rw [if_neg hbrace]
        cases hnode : erase (ended ending (statement ending levels false) (skipSeparators ts)) with
        | error failure => rw [hnode] at h; cases h
        | ok node =>
          obtain ⟨n, rest⟩ := node
          rw [hnode] at h
          have hlt : rest.length < ts.length := ended_shorter hnode
          obtain ⟨us, next, hus, hskip, hnext, hend⟩ :=
            ended_sound (statement_sound levels false) hnode
          simp only at h ⊢
          -- What ends the statement goes on with the program, is refused, or ends it.
          rcases endsStatement_cases hend with hsep | hclose | hlast
          · obtain ⟨rest', rfl⟩ := exists_cons_of_peek hnext hsep.kind_ne
            rw [programStatements_cons hsep] at h ⊢
            have hlt' : rest'.length < ts.length := Nat.lt_of_succ_lt hlt
            obtain ⟨used, rest, t, hused, hrest, ht⟩ := programStatements_sound levels rest' h
            refine ⟨ss ++ us ++ next :: used, rest, t, .moreStmts hss hus hsep hused, ?_, ht⟩
            rw [hts, hskip, hrest]
            simp
          · obtain ⟨rest', rfl⟩ := exists_cons_of_peek hnext (by simp [hclose])
            rw [programStatements_rightBrace hclose] at h
            cases h
          · rw [programStatements_endOfText hnext hlast]
            refine ⟨ss ++ us, rest, next, .lastStmt hss hus, ?_, hnext, hlast⟩
            rw [hts, hskip]
            simp
termination_by ts.length

end ModuLang.Source
