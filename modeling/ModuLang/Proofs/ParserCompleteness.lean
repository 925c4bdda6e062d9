import ModuLang.Proofs.ParserSoundness
import ModuLang.Proofs.PhraseBounds

/-!
# The parser reads what is in the grammar

A phrase of the grammar is read as its tree, whatever stands behind it, provided that the next token
cannot prolong the phrase. The only other thing that can happen is that the levels do not suffice,
and that does not depend on what stands behind the phrase either: it is the same for every
continuation, and it happens only if there are no more levels than tokens.

`Settles` states this of a family of computations, one for each continuation, and composes along
the steps of the parser. A sum and a chain of properties group to the left, so for these phrases the
parser is not at its end behind the phrase: it stands in its loop with the tree of the phrase.
-/

namespace ModuLang.Source

/-! ### What a step does for every continuation -/

/-- Whether there is a next token and its kind satisfies a condition. -/
def Next (ending : Ending) (rest : List Token) (P : TokenKind → Prop) : Prop :=
  ∃ t, peek ending rest = .ok t ∧ P t.kind

theorem next_cons {ending : Ending} {P : TokenKind → Prop} {t : Token} {k : TokenKind}
    (ht : t.kind = k) (hk : P k) (rest : List Token) : Next ending (t :: rest) P :=
  ⟨t, rfl, ht ▸ hk⟩

theorem Next.mono {ending : Ending} {P Q : TokenKind → Prop} {rest : List Token}
    (h : Next ending rest P) (hPQ : ∀ k, P k → Q k) : Next ending rest Q := by
  obtain ⟨t, hpeek, ht⟩ := h
  exact ⟨t, hpeek, hPQ _ ht⟩

/-- A next token that is of a kind of its own is there. -/
theorem Next.exists_cons {ending : Ending} {P : TokenKind → Prop} {rest : List Token}
    (h : Next ending rest P) (hP : ¬P .endOfText) : ∃ t us, rest = t :: us ∧ P t.kind := by
  obtain ⟨t, hpeek, ht⟩ := h
  obtain ⟨us, rfl⟩ := exists_cons_of_peek hpeek fun hk => hP (hk ▸ ht)
  exact ⟨t, us, rfl, ht⟩

/-- The end of lines in front of a token are the next thing that is seen, or the token is. -/
theorem next_newlines {ending : Ending} {P : TokenKind → Prop} {ns rest : List Token}
    (hns : Newlines ns) (hnl : P .newline) (h : Next ending rest P) : Next ending (ns ++ rest) P := by
  cases ns with
  | nil => exact h
  | cons t ns => exact next_cons (hns t List.mem_cons_self) hnl _

/-- What a step reads and leaves, for every ending and every continuation. -/
abbrev Step (α : Type) := Ending → List Token → Except Failure (α × List Token)

/-- Two computations agree at every continuation that begins with a token of certain kinds, or the
first one runs out of levels at all of them, and then the levels are few. -/
def Settles {α : Type} (follow : TokenKind → Prop) (few : Prop) (x y : Step α) : Prop :=
  (∀ ending rest, Next ending rest follow → x ending rest = y ending rest) ∨
    few ∧ ∀ ending rest, Next ending rest follow → x ending rest = .error (.crash .stackOverflow)

section Settles

variable {α β : Type} {follow follow' : TokenKind → Prop} {few few' : Prop} {x y z : Step α}

theorem Settles.of_eq (h : ∀ ending rest, Next ending rest follow → x ending rest = y ending rest) :
    Settles follow few x y :=
  .inl h

theorem Settles.trans (hxy : Settles follow few x y) (hyz : Settles follow few y z) :
    Settles follow few x z := by
  rcases hxy with hxy | hxy
  · rcases hyz with hyz | ⟨hfew, hyz⟩
    · exact .inl fun ending rest hnext => (hxy ending rest hnext).trans (hyz ending rest hnext)
    · exact .inr ⟨hfew, fun ending rest hnext => (hxy ending rest hnext).trans (hyz ending rest hnext)⟩
  · exact .inr hxy

/-- A computation that is another one at some of its continuations, and goes on from there. -/
theorem Settles.via {x' : Step α} (h : Settles follow few x y) (f : List Token → List Token)
    (hnext : ∀ ending rest, Next ending rest follow' → Next ending (f rest) follow)
    (hfew : few → few')
    (hx : ∀ ending rest, Next ending rest follow' → x' ending rest = x ending (f rest))
    (hz : Settles follow' few' (fun ending rest => y ending (f rest)) z) :
    Settles follow' few' x' z := by
  refine Settles.trans ?_ hz
  rcases h with h | ⟨hshort, h⟩
  · refine .inl fun ending rest hrest => ?_
    rw [hx ending rest hrest, h ending (f rest) (hnext ending rest hrest)]
  · refine .inr ⟨hfew hshort, fun ending rest hrest => ?_⟩
    rw [hx ending rest hrest, h ending (f rest) (hnext ending rest hrest)]

/-- What goes on with what a computation gives. -/
theorem Settles.bind (h : Settles follow few x y)
    (k : Ending → α × List Token → Except Failure (β × List Token)) :
    Settles follow few (fun ending rest => x ending rest >>= k ending)
      fun ending rest => y ending rest >>= k ending := by
  rcases h with h | ⟨hfew, h⟩
  · refine .inl fun ending rest hnext => ?_
    simp only [h ending rest hnext]
  · refine .inr ⟨hfew, fun ending rest hnext => ?_⟩
    simp only [h ending rest hnext, error_bind]

/-- A computation that begins with another one at some of its continuations, and goes on with what
that one gives. -/
theorem Settles.step {x' z' : Step β} (h : Settles follow few x y) (f : List Token → List Token)
    (k : Ending → α × List Token → Except Failure (β × List Token))
    (hnext : ∀ ending rest, Next ending rest follow' → Next ending (f rest) follow)
    (hfew : few → few')
    (hx : ∀ ending rest, Next ending rest follow' → x' ending rest = x ending (f rest) >>= k ending)
    (hz : Settles follow' few' (fun ending rest => y ending (f rest) >>= k ending) z') :
    Settles follow' few' x' z' :=
  (h.bind k).via f hnext hfew hx hz

/-- A computation without levels. -/
theorem Settles.overflow (hfew : few)
    (h : ∀ ending rest, x ending rest = .error (.crash .stackOverflow)) : Settles follow few x y :=
  .inr ⟨hfew, fun ending rest _ => h ending rest⟩

end Settles

/-! ### The next token -/

/-- A token that is not next is not found. -/
theorem accept_of_next {ending : Ending} {P : TokenKind → Prop} {wanted : TokenKind → Bool}
    {rest : List Token} (h : Next ending rest P) (hP : ∀ k, P k → wanted k = false) :
    eraseOption (accept ending wanted rest) = .ok none := by
  obtain ⟨t, hpeek, ht⟩ := h
  cases rest with
  | nil => rw [eraseOption_accept_nil, hpeek]; rfl
  | cons u us =>
    obtain rfl : u = t := Except.ok.inj hpeek
    rw [eraseOption_accept_cons, hP _ ht]
    rfl

/-- A token that is next is found. -/
theorem accept_of_kind {ending : Ending} {wanted : TokenKind → Bool} {t : Token} {k : TokenKind}
    (ht : t.kind = k) (hk : wanted k = true) (rest : List Token) :
    eraseOption (accept ending wanted (t :: rest)) = .ok (some (t, rest)) := by
  rw [eraseOption_accept_cons, ht, hk]
  rfl

/-- A token that has to be next is used. -/
theorem expect_of_kind {ending : Ending} {wanted : TokenKind → Bool} {what : Expectation} {t : Token}
    {k : TokenKind} (ht : t.kind = k) (hk : wanted k = true) (rest : List Token) :
    erase (expect ending wanted what (t :: rest)) = .ok (t, rest) := by
  rw [erase_expect_cons, ht, hk]
  rfl

/-- The ends of lines in front of other tokens are skipped. -/
theorem skipNewlines_append {ns : List Token} (hns : Newlines ns) (ts : List Token) :
    skipNewlines (ns ++ ts) = skipNewlines ts := by
  unfold skipNewlines
  exact List.dropWhile_append_of_pos fun t ht => by simpa using hns t ht

/-- Nothing is skipped in front of a token that ends no line. -/
theorem skipNewlines_of_head {ts : List Token} (h : HeadIs (·.kind ≠ .newline) ts) :
    skipNewlines ts = ts := by
  obtain ⟨t, us, rfl, ht⟩ := h
  unfold skipNewlines
  rw [List.dropWhile_cons_of_neg (by simpa using ht)]

/-- The ends of lines in front of a token that ends none are skipped up to it. -/
theorem skipNewlines_append_cons {ns : List Token} {t : Token} (hns : Newlines ns)
    (ht : t.kind ≠ .newline) (rest : List Token) : skipNewlines (ns ++ t :: rest) = t :: rest := by
  rw [skipNewlines_append hns]
  exact skipNewlines_of_head (headIs_cons ht rest)

/-- A phrase that begins like an expression begins with no end of a line. -/
theorem headIs_not_newline {ts : List Token}
    (h : HeadIs (fun t => startsTerm t.kind = true ∨ t.kind = .minus) ts) :
    HeadIs (·.kind ≠ .newline) ts := by
  refine h.mono fun t ht hk => ?_
  rw [hk] at ht
  simp [startsTerm] at ht

/-! ### What stands behind a phrase -/

/-- The kinds of tokens that do not prolong a reference. -/
def EndsReference (k : TokenKind) : Prop :=
  k ≠ .dot ∧ k ≠ .leftParen

/-- The kinds of tokens that do not prolong an expression. -/
def EndsExpression (k : TokenKind) : Prop :=
  EndsReference k ∧ k ≠ .plus ∧ k ≠ .minus

/-- The members of an object literal behind some that were read: more of them behind a comma. -/
def recordRest (ending : Ending) (levels : Nat) (ps : List (String × Node)) :
    List Token → Except Failure (List (String × Node) × List Token)
  | [] => .ok (ps, [])
  | close :: rest =>
    if close.kind = .comma then
      erase (recordBody ending (expression ending levels) rest) >>= fun more =>
      .ok (ps ++ more.1, more.2)
    else .ok (ps, rest)

/-- What the parser does with a phrase, for every number of levels. A phrase that is closed by a
bracket of its surroundings is read together with that bracket. -/
def Complete : (p : Phrase) → List Token → p.Tree → Prop
  | .expr, ts, n => ∀ levels, Settles EndsReference (levels ≤ ts.length)
      (fun ending rest => erase (expression ending levels (ts ++ rest)))
      fun ending rest => erase (sumChain ending (operand ending levels) n rest)
  | .operand, ts, n => ∀ levels, Settles EndsReference (levels ≤ ts.length)
      (fun ending rest => erase (operand ending levels (ts ++ rest))) fun _ rest => .ok (n, rest)
  | .term, ts, n => ∀ levels, Settles EndsReference (levels < ts.length)
      (fun ending rest => erase (term ending (expression ending levels) (ts ++ rest)))
      fun _ rest => .ok (n, rest)
  | .reference, ts, n => ∀ levels, Settles (· ≠ .leftParen) (levels < ts.length)
      (fun ending rest => erase (term ending (expression ending levels) (ts ++ rest)))
      fun ending rest => erase (propertyChain ending (expression ending levels) n rest)
  | .args, ts, as => ∃ paren us, ts = paren :: us ∧ paren.kind = .leftParen ∧
      ∀ levels, Settles (fun _ => True) (levels < us.length)
        (fun ending rest => erase (argumentList ending (expression ending levels) (us ++ rest)))
        fun _ rest => .ok (as, rest)
  | .items, ts, as => ∀ levels, Settles (· = .rightParen) (levels ≤ ts.length)
      (fun ending rest => erase (arguments ending (expression ending levels) (ts ++ rest)))
      fun _ rest => .ok (as, rest.tail)
  | .pair, ts, p => ∀ levels, Settles (fun k => k = .comma ∨ k = .rightBrace) (levels ≤ ts.length)
      (fun ending rest => erase (recordBody ending (expression ending levels) (ts ++ rest)))
      fun ending rest => recordRest ending levels [p] rest
  | .pairs, ts, ps => ∀ levels, Settles (fun k => k = .comma ∨ k = .rightBrace) (levels ≤ ts.length)
      (fun ending rest => erase (recordBody ending (expression ending levels) (ts ++ rest)))
      fun ending rest => recordRest ending levels ps rest
  | .members, ts, ps => ∀ levels, Settles (· = .rightBrace) (levels ≤ ts.length)
      (fun ending rest => erase (recordBody ending (expression ending levels) (ts ++ rest)))
      fun _ rest => .ok (ps, rest.tail)
  | .params, ts, ps => ∀ ending rest, Next ending rest (· ≠ .comma) →
      erase (parameters ending (ts ++ rest)) = .ok (ps, rest)
  | .stmt f, ts, n => ∀ levels, Settles (fun k => endsStatement k = true) (levels ≤ ts.length + 1)
      (fun ending rest => erase (statement ending levels f (ts ++ rest))) fun _ rest => .ok (n, rest)
  | .stmts f, ts, ns => ∀ levels openLine, Settles (· = .rightBrace) (levels ≤ ts.length + 1)
      (fun ending rest =>
        erase (bodyStatements ending (statement ending levels f) openLine (ts ++ rest)))
      fun _ rest => .ok (ns, rest.tail)
  | .body f, ts, ns => ∀ levels, Settles (fun _ => True) (levels < ts.length)
      (fun ending rest => erase (body ending (statement ending levels f) (ts ++ rest)))
      fun _ rest => .ok (ns, rest)

/-! ### Expressions -/

/-- A sum that is not prolonged is at its end. -/
theorem erase_sumChain_stop {ending : Ending} {operandStep : Parser Node} {n : Node}
    {rest : List Token} (h : Next ending rest fun k => k ≠ .plus ∧ k ≠ .minus) :
    erase (sumChain ending operandStep n rest) = .ok (n, rest) := by
  rw [erase_sumChain, accept_of_next h fun k hk => by simp [hk.1, hk.2]]
  rfl

/-- A chain of properties that is not prolonged is at its end. -/
theorem erase_propertyChain_stop {ending : Ending} {expr : Parser Node} {n : Node}
    {rest : List Token} (h : Next ending rest (· ≠ .dot)) :
    erase (propertyChain ending expr n rest) = .ok (n, rest) := by
  rw [erase_propertyChain, accept_of_next h fun k hk => by simp [hk]]
  rfl

/-- An expression that is not prolonged is read as its tree. -/
theorem expression_complete {ts : List Token} {n : Node} (h : Complete .expr ts n) (levels : Nat) :
    Settles EndsExpression (levels ≤ ts.length)
      (fun ending rest => erase (expression ending levels (ts ++ rest))) fun _ rest =>
      .ok (n, rest) := by
  refine (h levels).via id (fun _ _ hnext => hnext.mono fun _ hk => hk.1) id (fun _ _ _ => rfl) ?_
  exact .of_eq fun _ _ hnext => erase_sumChain_stop (hnext.mono fun _ hk => hk.2)

theorem exprOperand_complete {ts : List Token} {n : Node} (h : Complete .operand ts n) :
    Complete .expr ts n := by
  intro levels
  exact (h levels).step id
    (fun ending first => erase (sumChain ending (operand ending levels) first.1 first.2))
    (fun _ _ hnext => hnext) id (fun _ _ _ => erase_sum) (.of_eq fun _ _ _ => rfl)

theorem exprSum_complete {ts us : List Token} {l r : Node} {sign : Token}
    (hl : Complete .expr ts l) (hsign : sign.kind = .plus ∨ sign.kind = .minus)
    (hr : Complete .operand us r) :
    Complete .expr (ts ++ sign :: us) (.binary (signOperator sign) l r sign.line) := by
  intro levels
  refine (hl levels).via (fun rest => sign :: (us ++ rest)) ?_ ?_ (fun ending rest _ =>
    congrArg (fun us => erase (expression ending levels us)) (by simp)) ?_
  · intro ending rest _
    refine ⟨sign, rfl, ?_⟩
    rcases hsign with h | h
    · simp [EndsReference, h]
    · simp [EndsReference, h]
  · simp only [List.length_append, List.length_cons]
    omega
  -- The loop stands behind the left side: it takes the sign and reads the operand.
  · refine (hr levels).step id (fun ending right => erase (sumChain ending (operand ending levels)
      (.binary (signOperator sign) l right.1 sign.line) right.2)) (fun _ _ hnext => hnext) ?_ ?_
      (.of_eq fun _ _ _ => rfl)
    · simp only [List.length_append, List.length_cons]
      omega
    · intro ending rest _
      rw [erase_sumChain, eraseOption_accept_cons]
      rcases hsign with h | h
      · simp [h, signOperator]
      · simp [h, signOperator]

theorem operandTerm_complete {ts : List Token} {n : Node}
    (hhead : HeadIs (startsTerm ·.kind = true) ts) (h : Complete .term ts n) :
    Complete .operand ts n := by
  intro levels
  cases levels with
  | zero => exact .overflow (Nat.zero_le _) fun _ _ => erase_operand_zero
  | succ levels =>
    refine (h levels).via id (fun _ _ hnext => hnext) id ?_ (.of_eq fun _ _ _ => rfl)
    intro ending rest _
    obtain ⟨t, us, rfl, ht⟩ := hhead
    have hminus : (t.kind == .minus) = false := by
      cases hk : t.kind <;> simp_all [startsTerm]
    rw [erase_operand_succ, List.cons_append, eraseOption_accept_cons, hminus]
    rfl

theorem operandMinus_complete {ts : List Token} {n : Node} {sign : Token} (hsign : sign.kind = .minus)
    (h : Complete .operand ts n) :
    Complete .operand (sign :: ts) (.binary .subtract (.literal .null sign.line) n sign.line) := by
  intro levels
  cases levels with
  | zero => exact .overflow (Nat.zero_le _) fun _ _ => erase_operand_zero
  | succ levels =>
    refine (h levels).step id (fun _ inner =>
      .ok (.binary .subtract (.literal .null sign.line) inner.1 sign.line, inner.2))
      (fun _ _ hnext => hnext) Nat.succ_le_succ ?_ (.of_eq fun _ _ _ => rfl)
    intro ending rest _
    rw [erase_operand_succ, List.cons_append, accept_of_kind hsign rfl]
    rfl

/-- A literal is read as it is. -/
theorem literal_complete {t : Token} {n : Node} (h : literalOf? t = some n) :
    Complete .term [t] n :=
  fun _ => .of_eq fun _ _ _ => erase_term_literal h

theorem termObject_complete {ts : List Token} {ps : List (String × Node)} {brace close : Token}
    (hbrace : brace.kind = .leftBrace) (h : Complete .members ts ps)
    (hclose : close.kind = .rightBrace) :
    Complete .term (brace :: ts ++ [close]) (.record ps brace.line) := by
  intro levels
  refine (h levels).step (fun rest => close :: rest)
    (fun _ properties => .ok (.record properties.1 brace.line, properties.2))
    (fun _ _ _ => ⟨close, rfl, hclose⟩) ?_ ?_ (.of_eq fun _ _ _ => rfl)
  · simp only [List.length_append, List.length_cons]
    omega
  · intro ending rest _
    rw [List.append_assoc, List.cons_append, erase_term_leftBrace hbrace]
    rfl

theorem termReference_complete {ts : List Token} {n : Node} (h : Complete .reference ts n) :
    Complete .term ts n := by
  intro levels
  refine (h levels).via id (fun _ _ hnext => hnext.mono fun _ hk => hk.2) id (fun _ _ _ => rfl) ?_
  exact .of_eq fun _ _ hnext => erase_propertyChain_stop (hnext.mono fun _ hk => hk.1)

theorem bareName_complete {t : Token} (ht : t.kind = .identifier) :
    Complete .reference [t] (.identifier t.text t.line) := by
  intro levels
  refine .of_eq fun ending rest hnext => ?_
  rw [List.singleton_append, erase_term_identifier ht, accept_of_next hnext fun k hk => by simp [hk]]
  rfl

theorem call_complete {ts : List Token} {as : List Node} {t : Token} (ht : t.kind = .identifier)
    (h : Complete .args ts as) : Complete .reference (t :: ts) (.call t.text as t.line) := by
  intro levels
  obtain ⟨paren, us, rfl, hparen, h⟩ := h
  refine (h levels).step id (fun ending args =>
    erase (propertyChain ending (expression ending levels) (.call t.text args.1 t.line) args.2))
    (fun _ _ hnext => hnext.mono fun _ _ => trivial) ?_ ?_ (.of_eq fun _ _ _ => rfl)
  · simp only [List.length_cons]
    omega
  · intro ending rest _
    rw [List.cons_append, List.cons_append, erase_term_identifier ht, accept_of_kind hparen rfl]
    rfl

theorem property_complete {ts : List Token} {n : Node} {dot name : Token}
    (h : Complete .reference ts n) (hdot : dot.kind = .dot) (hname : name.kind = .identifier) :
    Complete .reference (ts ++ [dot, name]) (.property n name.text name.line) := by
  intro levels
  refine (h levels).via (fun rest => dot :: name :: rest) ?_ ?_ (fun ending rest _ =>
    congrArg (fun us => erase (term ending (expression ending levels) us)) (by simp)) (.of_eq ?_)
  · intro ending rest _
    exact next_cons hdot (by decide) _
  · simp only [List.length_append, List.length_cons]
    omega
  · intro ending rest hnext
    rw [erase_propertyChain, accept_of_kind hdot rfl, ok_bind]
    simp only
    rw [expect_of_kind hname rfl, ok_bind, accept_of_next hnext fun k hk => by simp [hk]]
    rfl

theorem methodCall_complete {ts us : List Token} {n : Node} {as : List Node} {dot name : Token}
    (h : Complete .reference ts n) (hdot : dot.kind = .dot) (hname : name.kind = .identifier)
    (hargs : Complete .args us as) :
    Complete .reference (ts ++ dot :: name :: us) (.methodCall n name.text as name.line) := by
  intro levels
  obtain ⟨paren, us, rfl, hparen, hargs⟩ := hargs
  refine (h levels).via (fun rest => dot :: name :: paren :: (us ++ rest)) ?_ ?_
    (fun ending rest _ =>
      congrArg (fun us => erase (term ending (expression ending levels) us)) (by simp)) ?_
  · intro ending rest _
    exact next_cons hdot (by decide) _
  · simp only [List.length_append, List.length_cons]
    omega
  -- The loop stands behind the object: it takes the dot and the name and reads the arguments.
  · refine (hargs levels).step id (fun ending args =>
      erase (propertyChain ending (expression ending levels)
        (.methodCall n name.text args.1 name.line) args.2))
      (fun _ _ hnext => hnext.mono fun _ _ => trivial) ?_ ?_ (.of_eq fun _ _ _ => rfl)
    · simp only [List.length_append, List.length_cons]
      omega
    · intro ending rest _
      rw [erase_propertyChain, accept_of_kind hdot rfl, ok_bind]
      simp only
      rw [expect_of_kind hname rfl, ok_bind, accept_of_kind hparen rfl]
      rfl

/-- The ends of lines in front of arguments are skipped. -/
theorem arguments_newlines {ending : Ending} {expr : Parser Node} {ns : List Token}
    (hns : Newlines ns) (ts : List Token) :
    erase (arguments ending expr (ns ++ ts)) = erase (arguments ending expr ts) := by
  rw [erase_arguments, skipNewlines_append hns, ← erase_arguments]

/-- The ends of lines in front of the members of an object literal are skipped. -/
theorem recordBody_newlines {ending : Ending} {expr : Parser Node} {ns : List Token}
    (hns : Newlines ns) (ts : List Token) :
    erase (recordBody ending expr (ns ++ ts)) = erase (recordBody ending expr ts) := by
  rw [erase_recordBody, skipNewlines_append hns, ← erase_recordBody]

theorem noArgs_complete {ns : List Token} {paren close : Token} (hparen : paren.kind = .leftParen)
    (hns : Newlines ns) (hclose : close.kind = .rightParen) :
    Complete .args (paren :: ns ++ [close]) [] := by
  refine ⟨paren, ns ++ [close], rfl, hparen, fun levels => .of_eq fun ending rest _ => ?_⟩
  rw [erase_argumentList, List.append_assoc, List.singleton_append,
    skipNewlines_append_cons hns (by simp [hclose]), accept_of_kind hclose rfl]
  rfl

theorem someArgs_complete {ns ts : List Token} {as : List Node} {paren close : Token}
    (hparen : paren.kind = .leftParen) (hns : Newlines ns)
    (hhead : HeadIs (fun t => startsTerm t.kind = true ∨ t.kind = .minus) ts)
    (h : Complete .items ts as) (hclose : close.kind = .rightParen) :
    Complete .args (paren :: ns ++ ts ++ [close]) as := by
  refine ⟨paren, ns ++ ts ++ [close], rfl, hparen, fun levels => ?_⟩
  refine (h levels).via (fun rest => close :: rest) (fun _ _ _ => ⟨close, rfl, hclose⟩) ?_ ?_
    (.of_eq fun _ _ _ => rfl)
  · simp only [List.length_append, List.length_cons]
    omega
  · intro ending rest _
    have hassoc : ns ++ ts ++ [close] ++ rest = ns ++ (ts ++ close :: rest) := by simp
    have hnone : eraseOption (accept ending (· == .rightParen) (ts ++ close :: rest)) = .ok none := by
      obtain ⟨t, us, rfl, ht⟩ := hhead
      have hk : (t.kind == .rightParen) = false := by
        cases hk : t.kind <;> simp_all [startsTerm]
      rw [List.cons_append, eraseOption_accept_cons, hk]
      rfl
    rw [hassoc, erase_argumentList, skipNewlines_append hns,
      skipNewlines_of_head ((headIs_not_newline hhead).append _), hnone, ok_bind,
      arguments_newlines hns]

/-- What follows an expression and ends of lines, where the next token cannot prolong it. -/
theorem next_endsExpression {ending : Ending} {ns rest : List Token} (hns : Newlines ns)
    (h : Next ending rest EndsExpression) : Next ending (ns ++ rest) EndsExpression :=
  next_newlines hns (by simp [EndsExpression, EndsReference]) h

/-- The arguments of a call behind one that was read: more of them behind a comma. -/
def argumentsRest (ending : Ending) (levels : Nat) (n : Node) :
    List Token → Except Failure (List Node × List Token)
  | [] => .ok ([n], [])
  | close :: rest =>
    if close.kind = .comma then
      erase (arguments ending (expression ending levels) rest) >>= fun more =>
      .ok (n :: more.1, more.2)
    else .ok ([n], rest)

/-- An argument is read with the ends of lines behind it and the token that follows them. -/
theorem item_complete {ts ns : List Token} {n : Node}
    (hhead : HeadIs (fun t => startsTerm t.kind = true ∨ t.kind = .minus) ts)
    (h : Complete .expr ts n) (hns : Newlines ns) (levels : Nat) :
    Settles (fun k => k = .comma ∨ k = .rightParen) (levels ≤ ts.length)
      (fun ending rest => erase (arguments ending (expression ending levels) (ts ++ ns ++ rest)))
      fun ending rest => argumentsRest ending levels n rest := by
  -- The argument is read up to the ends of lines behind it, which are skipped.
  refine (expression_complete h levels).step (fun rest => ns ++ rest) (fun ending arg =>
    erase (expect ending (fun k => k == .comma || k == .rightParen) .argumentEnd
      (skipNewlines arg.2)) >>= fun close =>
    if close.1.kind = .comma then
      erase (arguments ending (expression ending levels) close.2) >>= fun more =>
      .ok (arg.1 :: more.1, more.2)
    else .ok ([arg.1], close.2)) ?_ id ?_ (.of_eq ?_)
  · intro ending rest hnext
    refine next_endsExpression hns (hnext.mono fun k hk => ?_)
    rcases hk with rfl | rfl <;> simp [EndsExpression, EndsReference]
  · intro ending rest _
    rw [List.append_assoc, erase_arguments,
      skipNewlines_of_head ((headIs_not_newline hhead).append _)]
  · intro ending rest hnext
    obtain ⟨close, us, rfl, hclose⟩ := hnext.exists_cons (by simp)
    have hkind : close.kind ≠ .newline := by
      rcases hclose with h | h
      · simp [h]
      · simp [h]
    rw [ok_bind, skipNewlines_append_cons hns hkind, erase_expect_cons,
      if_pos (by simpa using hclose)]
    rfl

theorem lastItem_complete {ts ns : List Token} {n : Node}
    (hhead : HeadIs (fun t => startsTerm t.kind = true ∨ t.kind = .minus) ts)
    (h : Complete .expr ts n) (hns : Newlines ns) : Complete .items (ts ++ ns) [n] := by
  intro levels
  refine (item_complete hhead h hns levels).via id (fun _ _ hnext => hnext.mono fun _ => .inr) ?_
    (fun _ _ _ => rfl) (.of_eq ?_)
  · simp only [List.length_append]
    omega
  · intro ending rest hnext
    obtain ⟨close, us, rfl, hclose⟩ := hnext.exists_cons (by simp)
    simp [argumentsRest, hclose]

theorem moreItems_complete {ts ns ms us : List Token} {n : Node} {as : List Node} {comma : Token}
    (hhead : HeadIs (fun t => startsTerm t.kind = true ∨ t.kind = .minus) ts)
    (h : Complete .expr ts n) (hns : Newlines ns) (hcomma : comma.kind = .comma) (hms : Newlines ms)
    (hmore : Complete .items us as) :
    Complete .items (ts ++ ns ++ comma :: ms ++ us) (n :: as) := by
  intro levels
  refine (item_complete hhead h hns levels).via (fun rest => comma :: (ms ++ (us ++ rest)))
    (fun _ _ _ => ⟨comma, rfl, .inl hcomma⟩) ?_ (fun ending rest _ =>
      congrArg (fun us => erase (arguments ending (expression ending levels) us)) (by simp)) ?_
  · simp only [List.length_append, List.length_cons]
    omega
  · refine (hmore levels).step id (fun _ more => .ok (n :: more.1, more.2)) (fun _ _ hnext => hnext)
      ?_ ?_ (.of_eq fun _ _ _ => rfl)
    · simp only [List.length_append, List.length_cons]
      omega
    · intro ending rest _
      rw [argumentsRest, if_pos hcomma, arguments_newlines hms]
      rfl

/-- The kinds that may name a property. -/
theorem isKey_kind {t : Token} (h : t.IsKey) :
    t.kind ≠ .newline ∧ t.kind ≠ .rightBrace ∧
      (t.kind == .rightBrace || t.kind == .string || isNameKind t.kind || t.kind == .boolean) =
        true := by
  rcases h with h | h | h
  · simp [h]
  · have hname := (isNameKind_iff t).mpr h
    cases hk : t.kind <;> simp_all [isNameKind]
  · simp [h]

theorem pair_complete {ns ts ms : List Token} {n : Node} {key colon : Token} (hkey : key.IsKey)
    (hcolon : colon.kind = .colon) (hns : Newlines ns)
    (hhead : HeadIs (fun t => startsTerm t.kind = true ∨ t.kind = .minus) ts)
    (h : Complete .expr ts n) (hms : Newlines ms) :
    Complete .pair (key :: colon :: ns ++ ts ++ ms) (key.key, n) := by
  -- The value is read up to what closes it, `ms` is skipped, and the token behind decides.
  intro levels
  obtain ⟨hnl, hbrace, hwanted⟩ := isKey_kind hkey
  refine (expression_complete h levels).step (fun rest => ms ++ rest) (fun ending value =>
    erase (expect ending (fun k => k == .comma || k == .rightBrace) .literalEnd
      (skipNewlines value.2)) >>= fun close =>
    if close.1.kind = .comma then
      erase (recordBody ending (expression ending levels) close.2) >>= fun more =>
      .ok ((key.key, value.1) :: more.1, more.2)
    else .ok ([(key.key, value.1)], close.2)) ?_ ?_ ?_ (.of_eq ?_)
  · intro ending rest hnext
    refine next_endsExpression hms (hnext.mono fun k hk => ?_)
    rcases hk with rfl | rfl <;> simp [EndsExpression, EndsReference]
  · simp only [List.length_append, List.length_cons]
    omega
  · intro ending rest _
    have hassoc : key :: colon :: ns ++ ts ++ ms ++ rest =
        key :: colon :: (ns ++ (ts ++ (ms ++ rest))) := by simp
    rw [hassoc, erase_recordBody, skipNewlines_of_head (headIs_cons hnl _), erase_expect_cons,
      if_pos hwanted, ok_bind, if_neg hbrace]
    simp only
    rw [expect_of_kind hcolon rfl, ok_bind, skipNewlines_append hns,
      skipNewlines_of_head ((headIs_not_newline hhead).append _)]
    rfl
  · intro ending rest hnext
    obtain ⟨close, us, rfl, hclose⟩ := hnext.exists_cons (by simp)
    have hkind : close.kind ≠ .newline := by
      rcases hclose with h | h
      · simp [h]
      · simp [h]
    rw [ok_bind, skipNewlines_append_cons hms hkind, erase_expect_cons,
      if_pos (by simpa using hclose)]
    rfl

theorem morePairs_complete {ts ns us : List Token} {p : String × Node} {ps : List (String × Node)}
    {comma : Token} (h : Complete .pair ts p) (hcomma : comma.kind = .comma) (hns : Newlines ns)
    (hmore : Complete .pairs us ps) : Complete .pairs (ts ++ comma :: ns ++ us) (p :: ps) := by
  intro levels
  refine (h levels).via (fun rest => comma :: (ns ++ (us ++ rest)))
    (fun _ _ _ => ⟨comma, rfl, .inl hcomma⟩) ?_ (fun ending rest _ =>
      congrArg (fun us => erase (recordBody ending (expression ending levels) us)) (by simp)) ?_
  · simp only [List.length_append, List.length_cons]
    omega
  · refine (hmore levels).step id (fun _ more => .ok (p :: more.1, more.2)) (fun _ _ hnext => hnext)
      ?_ ?_ (.of_eq ?_)
    · simp only [List.length_append, List.length_cons]
      omega
    · intro ending rest _
      rw [recordRest, if_pos hcomma, recordBody_newlines hns]
      rfl
    -- A comma behind the last pair goes on, in the same way for one pair and for several.
    · intro ending rest hnext
      obtain ⟨close, us, rfl, hclose⟩ := hnext.exists_cons (by simp)
      rcases hclose with hclose | hclose
      · simp only [id, recordRest, hclose, if_true, bind_assoc]
        rfl
      · simp [recordRest, hclose]

/-- The closing brace of an object literal ends its members. -/
theorem recordBody_rightBrace {ending : Ending} {expr : Parser Node} {close : Token}
    (hclose : close.kind = .rightBrace) (rest : List Token) :
    erase (recordBody ending expr (close :: rest)) = .ok ([], rest) := by
  rw [erase_recordBody, skipNewlines_of_head (headIs_cons (by simp [hclose]) rest),
    expect_of_kind hclose rfl, ok_bind, if_pos hclose]

theorem noMembers_complete {ns : List Token} (hns : Newlines ns) : Complete .members ns [] := by
  refine fun levels => .of_eq fun ending rest hnext => ?_
  obtain ⟨close, us, rfl, hclose⟩ := hnext.exists_cons (by simp)
  rw [recordBody_newlines hns, recordBody_rightBrace hclose, List.tail_cons]

theorem someMembers_complete {ns ts : List Token} {ps : List (String × Node)} (hns : Newlines ns)
    (h : Complete .pairs ts ps) : Complete .members (ns ++ ts) ps := by
  intro levels
  refine (h levels).via id (fun _ _ hnext => hnext.mono fun _ => .inr) ?_ ?_ (.of_eq ?_)
  · simp only [List.length_append]
    omega
  · intro ending rest _
    rw [List.append_assoc, recordBody_newlines hns]
    rfl
  · intro ending rest hnext
    obtain ⟨close, us, rfl, hclose⟩ := hnext.exists_cons (by simp)
    simp [recordRest, hclose]

theorem membersComma_complete {ns ts ms : List Token} {ps : List (String × Node)} {comma : Token}
    (hns : Newlines ns) (h : Complete .pairs ts ps) (hcomma : comma.kind = .comma)
    (hms : Newlines ms) : Complete .members (ns ++ ts ++ comma :: ms) ps := by
  intro levels
  refine (h levels).via (fun rest => comma :: (ms ++ rest))
    (fun _ _ _ => ⟨comma, rfl, .inl hcomma⟩) ?_ ?_ (.of_eq ?_)
  · simp only [List.length_append, List.length_cons]
    omega
  · intro ending rest _
    have hassoc : ns ++ ts ++ comma :: ms ++ rest = ns ++ (ts ++ comma :: (ms ++ rest)) := by simp
    rw [hassoc, recordBody_newlines hns]
  · intro ending rest hnext
    obtain ⟨close, us, rfl, hclose⟩ := hnext.exists_cons (by simp)
    rw [recordRest, if_pos hcomma, recordBody_newlines hms, recordBody_rightBrace hclose, ok_bind]
    simp

/-! ### Statements -/

theorem lastParam_complete {t : Token} (ht : t.kind = .identifier) :
    Complete .params [t] [t.text] := by
  intro ending rest hnext
  rw [List.singleton_append, erase_parameters, expect_of_kind ht rfl, ok_bind,
    accept_of_next hnext fun k hk => by simp [hk]]
  rfl

theorem moreParams_complete {ts : List Token} {ps : List String} {t comma : Token}
    (ht : t.kind = .identifier) (hcomma : comma.kind = .comma) (h : Complete .params ts ps) :
    Complete .params (t :: comma :: ts) (t.text :: ps) := by
  intro ending rest hnext
  rw [List.cons_append, List.cons_append, erase_parameters, expect_of_kind ht rfl, ok_bind,
    accept_of_kind hcomma rfl, ok_bind]
  simp only
  rw [h ending rest hnext, ok_bind]

/-- What ends a statement does not prolong an expression. -/
theorem endsExpression_of_endsStatement {k : TokenKind} (h : endsStatement k = true) :
    EndsExpression k := by
  cases k <;> simp_all [endsStatement, EndsExpression, EndsReference]

/-- A statement that begins with a word of its own is read as what stands behind the word is. -/
theorem word_complete {f : Bool} {ts : List Token} {n : Node} {word : Token} {k : TokenKind}
    (hword : word.kind = k) (hk : startsStatement k = true)
    (h : ∀ levels, Settles (fun k => endsStatement k = true) (levels ≤ ts.length + 1)
      (fun ending rest => statementBehind ending levels f word (ts ++ rest))
      fun _ rest => .ok (n, rest)) :
    Complete (.stmt f) (word :: ts) n := by
  intro levels
  cases levels with
  | zero => exact .overflow (Nat.zero_le _) fun _ _ => erase_statement_zero f
  | succ levels =>
    refine (h levels).via id (fun _ _ hnext => hnext) Nat.succ_le_succ ?_ (.of_eq fun _ _ _ => rfl)
    intro ending rest _
    rw [List.cons_append, erase_statement_succ, accept_of_kind hword hk]
    rfl

theorem binding_complete {f : Bool} {ts : List Token} {n : Node} {word name sign : Token}
    (hword : word.kind = .letWord) (hname : name.IsName) (hsign : sign.kind = .assign)
    (h : Complete .expr ts n) :
    Complete (.stmt f) (word :: name :: sign :: ts) (.binding name.text n word.line) := by
  refine word_complete hword rfl fun levels => ?_
  refine (expression_complete h levels).step id
    (fun _ value => .ok (.binding name.text value.1 word.line, value.2))
    (fun _ _ hnext => hnext.mono fun _ => endsExpression_of_endsStatement) ?_ ?_
    (.of_eq fun _ _ _ => rfl)
  · simp only [List.length_cons]
    omega
  · intro ending rest _
    rw [statementBehind, hword]
    simp only
    rw [List.cons_append, List.cons_append, erase_letStatement,
      expect_of_kind rfl ((isNameKind_iff name).mpr hname), ok_bind, expect_of_kind hsign rfl, ok_bind]
    rfl

theorem importing_complete {f : Bool} {word target : Token} (hword : word.kind = .importWord)
    (htarget : target.kind = .string) :
    Complete (.stmt f) [word, target] (.importing ⟨target.text, target.line⟩ none word.line) := by
  refine word_complete hword rfl fun levels => .of_eq fun ending rest hnext => ?_
  rw [statementBehind, hword]
  simp only
  rw [List.singleton_append, erase_importStatement, expect_of_kind htarget rfl, ok_bind,
    accept_of_next hnext ?_]
  · rfl
  · intro k hk
    cases k <;> simp_all [endsStatement]

theorem importingAs_complete {f : Bool} {word target asWord chosen : Token}
    (hword : word.kind = .importWord) (htarget : target.kind = .string) (has : asWord.kind = .asWord)
    (hchosen : chosen.kind = .identifier ∨ chosen.kind = .star) :
    Complete (.stmt f) [word, target, asWord, chosen]
      (.importing ⟨target.text, target.line⟩ (some chosen.text) word.line) := by
  refine word_complete hword rfl fun levels => .of_eq fun ending rest hnext => ?_
  rw [statementBehind, hword]
  simp only
  rw [List.cons_append, List.cons_append, List.singleton_append, erase_importStatement,
    expect_of_kind htarget rfl, ok_bind, accept_of_kind has rfl, ok_bind]
  simp only
  rw [expect_of_kind rfl (by simpa using hchosen)]
  rfl

theorem parameterList_complete {ts : List Token} {ps : List String} {close : Token}
    (hhead : HeadIs (·.kind = .identifier) ts) (h : Complete .params ts ps)
    (hclose : close.kind = .rightParen) (ending : Ending) (rest : List Token) :
    erase (parameterList ending (ts ++ [close] ++ rest)) = .ok (ps, rest) := by
  rw [List.append_assoc, List.singleton_append]
  -- The first parameter is no closing bracket.
  have hnone : eraseOption (accept ending (· == .rightParen) (ts ++ close :: rest)) = .ok none := by
    obtain ⟨t, us, rfl, ht⟩ := hhead
    exact accept_of_next (next_cons ht rfl _) fun k hk => by simp [← hk]
  rw [erase_parameterList, hnone, ok_bind]
  simp only
  rw [h ending _ (next_cons hclose (by decide) _), ok_bind, expect_of_kind hclose rfl, ok_bind]

/-- A definition, given that the tokens of its parameters are read. -/
theorem functionStatement_complete {f : Bool} {ts us : List Token} {ps : List String}
    {statements : List Node} {word name paren : Token} (hword : word.kind = .fnWord)
    (hname : name.kind = .identifier) (hparen : paren.kind = .leftParen)
    (hparams : ∀ ending rest, erase (parameterList ending (ts ++ rest)) = .ok (ps, rest))
    (h : Complete (.body true) us statements) :
    Complete (.stmt f) (word :: name :: paren :: ts ++ us)
      (.definition name.text ps statements word.line) := by
  show Complete (.stmt f) (word :: name :: paren :: (ts ++ us)) _
  refine word_complete hword rfl fun levels => ?_
  refine (h levels).step id
    (fun _ statements => .ok (.definition name.text ps statements.1 word.line, statements.2))
    (fun _ _ hnext => hnext.mono fun _ _ => trivial) ?_ ?_ (.of_eq fun _ _ _ => rfl)
  · simp only [List.length_append, List.length_cons]
    omega
  · intro ending rest _
    rw [statementBehind, hword]
    simp only
    rw [List.cons_append, List.cons_append, List.append_assoc, erase_functionStatement,
      expect_of_kind hname rfl, ok_bind, expect_of_kind hparen rfl, ok_bind, hparams]
    rfl

theorem definition_complete {f : Bool} {us : List Token} {statements : List Node}
    {word name paren close : Token} (hword : word.kind = .fnWord) (hname : name.kind = .identifier)
    (hparen : paren.kind = .leftParen) (hclose : close.kind = .rightParen)
    (h : Complete (.body true) us statements) :
    Complete (.stmt f) (word :: name :: paren :: close :: us)
      (.definition name.text [] statements word.line) := by
  have hparams : ∀ ending rest, erase (parameterList ending ([close] ++ rest)) = .ok ([], rest) := by
    intro ending rest
    rw [List.singleton_append, erase_parameterList, accept_of_kind hclose rfl]
    rfl
  exact functionStatement_complete hword hname hparen hparams h

theorem definitionParams_complete {f : Bool} {ts us : List Token} {ps : List String}
    {statements : List Node} {word name paren close : Token} (hword : word.kind = .fnWord)
    (hname : name.kind = .identifier) (hparen : paren.kind = .leftParen)
    (hhead : HeadIs (·.kind = .identifier) ts) (hparams : Complete .params ts ps)
    (hclose : close.kind = .rightParen) (h : Complete (.body true) us statements) :
    Complete (.stmt f) (word :: name :: paren :: ts ++ close :: us)
      (.definition name.text ps statements word.line) := by
  have hall : Complete (.stmt f) (word :: name :: paren :: (ts ++ [close]) ++ us)
      (.definition name.text ps statements word.line) :=
    functionStatement_complete hword hname hparen (parameterList_complete hhead hparams hclose) h
  simpa using hall

/-- What the parser does with the condition of a conditional, in front of its body. -/
def ConditionComplete (line : Int) (ts : List Token) (test : Node) : Prop :=
  ∀ levels, Settles (· = .leftBrace) (levels ≤ ts.length)
    (fun ending rest => erase (condition ending (expression ending levels) line (ts ++ rest)))
    fun _ rest => .ok (test, rest)

theorem isPresent_complete {ts : List Token} {n : Node} (h : Complete .expr ts n) (line : Int) :
    ConditionComplete line ts (.isPresent n line) := by
  intro levels
  refine (expression_complete h levels).step id
    (fun ending left => comparisonFrom ending (expression ending levels) line left) ?_ id
    (fun _ _ _ => erase_condition line) (.of_eq fun ending rest hnext => ?_)
  · intro ending rest hnext
    exact hnext.mono fun k hk => by simp [hk, EndsExpression, EndsReference]
  · simp only [id, ok_bind]
    unfold comparisonFrom
    rw [accept_of_next hnext fun k hk => by simp [hk]]
    rfl

theorem comparison_complete {ts us : List Token} {l r : Node} {sign : Token}
    (hl : Complete .expr ts l) (hsign : sign.kind = .equal ∨ sign.kind = .unequal)
    (hr : Complete .expr us r) (line : Int) :
    ConditionComplete line (ts ++ sign :: us) (.binary (comparisonOperator sign) l r line) := by
  intro levels
  refine (expression_complete hl levels).step (fun rest => sign :: (us ++ rest))
    (fun ending left => comparisonFrom ending (expression ending levels) line left) ?_ ?_ ?_ ?_
  · intro ending rest _
    refine ⟨sign, rfl, ?_⟩
    rcases hsign with h | h
    · simp [EndsExpression, EndsReference, h]
    · simp [EndsExpression, EndsReference, h]
  · simp only [List.length_append, List.length_cons]
    omega
  · intro ending rest _
    rw [List.append_assoc, erase_condition]
    rfl
  -- The sign is found behind the left side, so the right side is read.
  · refine (expression_complete hr levels).step id (fun _ right =>
      .ok (.binary (comparisonOperator sign) l right.1 line, right.2)) ?_ ?_ ?_
      (.of_eq fun _ _ _ => rfl)
    · intro ending rest hnext
      exact hnext.mono fun k hk => by simp [hk, EndsExpression, EndsReference]
    · simp only [List.length_append, List.length_cons]
      omega
    · intro ending rest _
      rw [ok_bind, comparisonFrom, eraseOption_accept_cons, if_pos (by simpa using hsign)]
      rfl

theorem ifStatement_complete {f : Bool} {ts us : List Token} {test : Node} {statements : List Node}
    {word : Token} (hword : word.kind = .ifWord) (h : ConditionComplete word.line ts test)
    (hhead : HeadIs (·.kind = .leftBrace) us) (hbody : Complete (.body f) us statements) :
    Complete (.stmt f) (word :: ts ++ us) (.conditional test statements word.line) := by
  show Complete (.stmt f) (word :: (ts ++ us)) _
  refine word_complete hword rfl fun levels => ?_
  refine (h levels).step (fun rest => us ++ rest) (fun ending test =>
    erase (body ending (statement ending levels f) test.2) >>= fun statements =>
    .ok (.conditional test.1 statements.1 word.line, statements.2)) ?_ ?_ ?_ ?_
  · intro ending rest _
    obtain ⟨brace, vs, rfl, hbrace⟩ := hhead
    exact ⟨brace, rfl, hbrace⟩
  · simp only [List.length_append]
    omega
  · intro ending rest _
    rw [statementBehind, hword]
    simp only
    rw [List.append_assoc, erase_ifStatement]
  · refine (hbody levels).step id (fun _ statements =>
      .ok (.conditional test statements.1 word.line, statements.2))
      (fun _ _ hnext => hnext.mono fun _ _ => trivial) ?_ (fun _ _ _ => rfl)
      (.of_eq fun _ _ _ => rfl)
    simp only [List.length_append]
    omega

theorem returning_complete {word : Token} (hword : word.kind = .returnWord) :
    Complete (.stmt true) [word] (.returning none word.line) := by
  refine word_complete hword rfl fun levels => .of_eq fun ending rest hnext => ?_
  obtain ⟨t, hpeek, ht⟩ := hnext
  rw [statementBehind, hword]
  simp only
  rw [List.nil_append, erase_returnStatement, if_neg (by decide), hpeek, ok_bind, if_pos ht]

theorem returningValue_complete {ts : List Token} {n : Node} {word : Token}
    (hword : word.kind = .returnWord)
    (hhead : HeadIs (fun t => startsTerm t.kind = true ∨ t.kind = .minus) ts)
    (h : Complete .expr ts n) :
    Complete (.stmt true) (word :: ts) (.returning (some n) word.line) := by
  refine word_complete hword rfl fun levels => ?_
  refine (expression_complete h levels).step id
    (fun _ value => .ok (.returning (some value.1) word.line, value.2))
    (fun _ _ hnext => hnext.mono fun _ => endsExpression_of_endsStatement) Nat.le_succ_of_le ?_
    (.of_eq fun _ _ _ => rfl)
  intro ending rest _
  obtain ⟨t, us, rfl, ht⟩ := hhead
  have hends : ¬endsStatement t.kind = true := by
    cases hk : t.kind <;> simp_all [startsTerm, endsStatement]
  rw [statementBehind, hword]
  simp only
  rw [erase_returnStatement, if_neg (by decide), List.cons_append, peek, ok_bind, if_neg hends]
  rfl

theorem expressionStatement_complete {f : Bool} {ts : List Token} {n : Node}
    (hhead : HeadIs (fun t => startsTerm t.kind = true ∨ t.kind = .minus) ts)
    (h : Complete .expr ts n) : Complete (.stmt f) ts n := by
  intro levels
  cases levels with
  | zero => exact .overflow (Nat.zero_le _) fun _ _ => erase_statement_zero f
  | succ levels =>
    refine (expression_complete h levels).via id
      (fun _ _ hnext => hnext.mono fun _ => endsExpression_of_endsStatement) Nat.succ_le_succ ?_
      (.of_eq fun _ _ _ => rfl)
    intro ending rest _
    obtain ⟨t, us, rfl, ht⟩ := hhead
    have hstarts : startsStatement t.kind = false := by
      cases hk : t.kind <;> simp_all [startsTerm, startsStatement]
    rw [List.cons_append, erase_statement_succ, eraseOption_accept_cons, hstarts]
    rfl

/-- A statement with what ends it behind it. -/
theorem ended_complete {f : Bool} {ts : List Token} {n : Node} (h : Complete (.stmt f) ts n)
    (levels : Nat) :
    Settles (fun k => endsStatement k = true) (levels ≤ ts.length + 1)
      (fun ending rest => erase (ended ending (statement ending levels f) (ts ++ rest)))
      fun _ rest => .ok (n, rest) := by
  refine (h levels).step id (fun ending node => peek ending node.2 >>= fun t =>
    if endsStatement t.kind then .ok node
    else failAt (.expected .endOfStatement t.describe) t.line) (fun _ _ hnext => hnext) id
    (fun _ _ _ => erase_ended) (.of_eq fun ending rest hnext => ?_)
  obtain ⟨t, hpeek, ht⟩ := hnext
  simp only [id, ok_bind]
  rw [hpeek, ok_bind, if_pos ht]

/-- The separators in front of other tokens are skipped. -/
theorem skipSeparators_append {ss : List Token} (hss : Separators ss) (ts : List Token) :
    skipSeparators (ss ++ ts) = skipSeparators ts := by
  unfold skipSeparators
  exact List.dropWhile_append_of_pos fun t ht => by simpa [Token.Separates] using hss t ht

/-- The kinds that a statement begins with neither separate nor close statements. -/
theorem begins_statement {t : Token}
    (ht : startsTerm t.kind = true ∨ t.kind = .minus ∨ startsStatement t.kind = true) :
    ¬t.Separates ∧ t.kind ≠ .rightBrace ∧ t.kind ≠ .endOfText := by
  unfold Token.Separates
  cases hk : t.kind <;> simp_all [startsTerm, startsStatement]

/-- The statements of a body that begin with one, behind separators. -/
theorem bodyStatements_of_head {ending : Ending} {stmt : Parser Node} {ss ts : List Token} {f : Bool}
    (hss : Separators ss) (hhead : HeadIs (Phrase.stmt f).Begins ts) (openLine : Int) :
    erase (bodyStatements ending stmt openLine (ss ++ ts)) =
      erase (ended ending stmt ts) >>= fun node =>
      erase (bodyStatements ending stmt openLine node.2) >>= fun more =>
      .ok (node.1 :: more.1, more.2) := by
  obtain ⟨t, us, rfl, ht⟩ := hhead
  obtain ⟨hsep, hbrace, htext⟩ := begins_statement ht
  rw [erase_bodyStatements, skipSeparators_append hss, skipSeparators_of_not hsep,
    eraseOption_accept_cons, if_neg (by simpa using hbrace), ok_bind]
  simp only
  rw [peek, ok_bind, if_neg htext]

theorem noStmts_complete {f : Bool} {ss : List Token} (hss : Separators ss) :
    Complete (.stmts f) ss [] := by
  refine fun levels openLine => .of_eq fun ending rest hnext => ?_
  obtain ⟨close, us, rfl, hclose⟩ := hnext.exists_cons (by simp)
  rw [erase_bodyStatements, skipSeparators_append hss, ← erase_bodyStatements,
    bodyStatements_rightBrace hclose, List.tail_cons]

theorem lastStmt_complete {f : Bool} {ss ts : List Token} {n : Node} (hss : Separators ss)
    (hhead : HeadIs (Phrase.stmt f).Begins ts) (h : Complete (.stmt f) ts n) :
    Complete (.stmts f) (ss ++ ts) [n] := by
  intro levels openLine
  refine (ended_complete h levels).step id (fun ending node =>
    erase (bodyStatements ending (statement ending levels f) openLine node.2) >>= fun more =>
    .ok (node.1 :: more.1, more.2)) ?_ ?_ ?_ (.of_eq ?_)
  · intro ending rest hnext
    exact hnext.mono fun k hk => by simp [hk, endsStatement]
  · simp only [List.length_append]
    omega
  · intro ending rest _
    rw [List.append_assoc, bodyStatements_of_head hss (hhead.append _)]
    rfl
  · intro ending rest hnext
    obtain ⟨close, us, rfl, hclose⟩ := hnext.exists_cons (by simp)
    simp only [id, ok_bind]
    rw [bodyStatements_rightBrace hclose, ok_bind, List.tail_cons]

theorem moreStmts_complete {f : Bool} {ss ts us : List Token} {n : Node} {ns : List Node}
    {sep : Token} (hss : Separators ss) (hhead : HeadIs (Phrase.stmt f).Begins ts)
    (h : Complete (.stmt f) ts n) (hsep : sep.Separates) (hmore : Complete (.stmts f) us ns) :
    Complete (.stmts f) (ss ++ ts ++ sep :: us) (n :: ns) := by
  intro levels openLine
  refine (ended_complete h levels).step (fun rest => sep :: (us ++ rest)) (fun ending node =>
    erase (bodyStatements ending (statement ending levels f) openLine node.2) >>= fun more =>
    .ok (node.1 :: more.1, more.2)) ?_ ?_ ?_ ?_
  · intro ending rest _
    refine ⟨sep, rfl, ?_⟩
    rcases hsep with h | h <;> simp [h, endsStatement]
  · simp only [List.length_append, List.length_cons]
    omega
  · intro ending rest _
    have hassoc : ss ++ ts ++ sep :: us ++ rest = ss ++ (ts ++ sep :: (us ++ rest)) := by simp
    rw [hassoc, bodyStatements_of_head hss (hhead.append _)]
  -- The separator behind the statement is skipped with those in front of the next one.
  · refine (hmore levels openLine).step id (fun _ more => .ok (n :: more.1, more.2))
      (fun _ _ hnext => hnext) ?_ ?_ (.of_eq fun _ _ _ => rfl)
    · simp only [List.length_append, List.length_cons]
      omega
    · intro ending rest _
      rw [ok_bind, bodyStatements_cons hsep]
      rfl

theorem body_complete {f : Bool} {ts : List Token} {ns : List Node} {brace close : Token}
    (hbrace : brace.kind = .leftBrace) (h : Complete (.stmts f) ts ns)
    (hclose : close.kind = .rightBrace) : Complete (.body f) (brace :: ts ++ [close]) ns := by
  intro levels
  refine (h levels brace.line).via (fun rest => close :: rest) (fun _ _ _ => ⟨close, rfl, hclose⟩)
    ?_ ?_ (.of_eq fun _ _ _ => rfl)
  · simp only [List.length_append, List.length_cons, List.length_nil]
    omega
  · intro ending rest _
    rw [List.append_assoc, List.cons_append, erase_body, expect_of_kind hbrace rfl]
    rfl

/-! ### All phrases -/

/-- Every phrase of the grammar is read as its tree. -/
theorem Derives.complete {p : Phrase} {ts : List Token} {v : p.Tree} (h : Derives p ts v) :
    Complete p ts v := by
  -- Each rule has its lemma above. Where the parser chooses by the first token, the lemma has to
  -- know what the phrase behind begins with, which is what `headed` gives.
  induction h with
  | exprOperand _ ih => exact exprOperand_complete ih
  | exprSum _ hsign _ ihl ihr => exact exprSum_complete ihl hsign ihr
  | operandTerm h ih => exact operandTerm_complete h.headed ih
  | operandMinus hsign _ ih => exact operandMinus_complete hsign ih
  | termNumber ht | termFloat ht | termBoolean ht | termString ht =>
    exact literal_complete (by simp [literalOf?, ht])
  | termObject hbrace _ hclose ih => exact termObject_complete hbrace ih hclose
  | termReference _ ih => exact termReference_complete ih
  | bareName ht => exact bareName_complete ht
  | call ht _ ih => exact call_complete ht ih
  | property _ hdot hname ih => exact property_complete ih hdot hname
  | methodCall _ hdot hname _ ih iha => exact methodCall_complete ih hdot hname iha
  | noArgs hparen hns hclose => exact noArgs_complete hparen hns hclose
  | someArgs hparen hns h hclose ih => exact someArgs_complete hparen hns h.headed ih hclose
  | lastItem h hns ih => exact lastItem_complete h.headed ih hns
  | moreItems h hns hcomma hms _ ih ihmore =>
    exact moreItems_complete h.headed ih hns hcomma hms ihmore
  | pair hkey hcolon hns h hms ih => exact pair_complete hkey hcolon hns h.headed ih hms
  | lastPair _ ih => exact ih
  | morePairs _ hcomma hns _ ih ihmore => exact morePairs_complete ih hcomma hns ihmore
  | noMembers hns => exact noMembers_complete hns
  | someMembers hns _ ih => exact someMembers_complete hns ih
  | membersComma hns _ hcomma hms ih => exact membersComma_complete hns ih hcomma hms
  | lastParam ht => exact lastParam_complete ht
  | moreParams ht hcomma _ ih => exact moreParams_complete ht hcomma ih
  | binding hword hname hsign _ ih => exact binding_complete hword hname hsign ih
  | importing hword htarget => exact importing_complete hword htarget
  | importingAs hword htarget has hchosen => exact importingAs_complete hword htarget has hchosen
  | definition hword hname hparen hclose _ ih =>
    exact definition_complete hword hname hparen hclose ih
  | definitionParams hword hname hparen h hclose _ ihp ihb =>
    exact definitionParams_complete hword hname hparen h.headed ihp hclose ihb
  | conditional hword _ hbody ih ihb =>
    exact ifStatement_complete hword (isPresent_complete ih _) hbody.headed ihb
  | conditionalComparison hword _ hsign _ hbody ihl ihr ihb =>
    have hall := ifStatement_complete hword (comparison_complete ihl hsign ihr _) hbody.headed ihb
    simpa using hall
  | returning hword => exact returning_complete hword
  | returningValue hword h ih => exact returningValue_complete hword h.headed ih
  | expression h ih => exact expressionStatement_complete h.headed ih
  | noStmts hss => exact noStmts_complete hss
  | lastStmt hss h ih => exact lastStmt_complete hss h.headed ih
  | moreStmts hss h hsep _ ih ihmore => exact moreStmts_complete hss h.headed ih hsep ihmore
  | body hbrace _ hclose ih => exact body_complete hbrace ih hclose

end ModuLang.Source
