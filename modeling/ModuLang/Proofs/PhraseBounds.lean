import ModuLang.Proofs.Grammar

/-!
# The first and the last token of a phrase

The parser tells phrases apart by their first token, and skips the ends of lines in front of a
phrase because no phrase begins with one. A statement does not end with a separator either, so the
separators that stand behind the last statement belong to the program and not to the statement.
-/

namespace ModuLang.Source

/-- Whether a phrase of a kind may begin with a token; the members of an object literal and the
statements of a body may be empty, and nothing is said of them. -/
def Phrase.Begins : Phrase → Token → Prop
  | .expr, t | .operand, t | .items, t => startsTerm t.kind = true ∨ t.kind = .minus
  | .term, t => startsTerm t.kind = true
  | .reference, t | .params, t => t.kind = .identifier
  | .args, t => t.kind = .leftParen
  | .pair, t | .pairs, t => t.IsKey
  | .stmt _, t => startsTerm t.kind = true ∨ t.kind = .minus ∨ startsStatement t.kind = true
  | .body _, t => t.kind = .leftBrace
  | .members, _ | .stmts _, _ => True

/-- Whether some tokens begin with one that satisfies a condition. -/
def HeadIs (P : Token → Prop) (ts : List Token) : Prop :=
  ∃ t us, ts = t :: us ∧ P t

theorem HeadIs.append {P : Token → Prop} {ts : List Token} (h : HeadIs P ts) (us : List Token) :
    HeadIs P (ts ++ us) := by
  obtain ⟨t, vs, rfl, ht⟩ := h
  exact ⟨t, vs ++ us, rfl, ht⟩

theorem HeadIs.mono {P Q : Token → Prop} {ts : List Token} (h : HeadIs P ts) (hPQ : ∀ t, P t → Q t) :
    HeadIs Q ts := by
  obtain ⟨t, us, rfl, ht⟩ := h
  exact ⟨t, us, rfl, hPQ t ht⟩

theorem headIs_cons {P : Token → Prop} {t : Token} (ht : P t) (ts : List Token) :
    HeadIs P (t :: ts) :=
  ⟨t, ts, rfl, ht⟩

/-- What a phrase begins with, where it cannot be empty. -/
def Phrase.Headed : Phrase → List Token → Prop
  | .members, _ | .stmts _, _ => True
  | p, ts => HeadIs p.Begins ts

theorem startsTerm_identifier {t : Token} (ht : t.kind = .identifier) :
    startsTerm t.kind = true := by
  rw [ht]
  rfl

/-- A phrase begins with a token that its kind may begin with. -/
theorem Derives.headed {p : Phrase} {ts : List Token} {v : p.Tree} (h : Derives p ts v) :
    p.Headed ts := by
  -- The first part of a phrase decides.
  induction h with
  | exprOperand _ ih => exact ih
  | exprSum _ _ _ ih _ => exact ih.append _
  | operandTerm _ ih => exact ih.mono fun t ht => .inl ht
  | operandMinus hsign _ _ => exact headIs_cons (.inr hsign) _
  | termNumber ht | termFloat ht | termBoolean ht | termString ht =>
    exact headIs_cons (by simp [Phrase.Begins, ht, startsTerm]) _
  | termObject hbrace _ _ _ => exact headIs_cons (by simp [Phrase.Begins, hbrace, startsTerm]) _
  | termReference _ ih => exact ih.mono fun t ht => startsTerm_identifier ht
  | bareName ht => exact headIs_cons ht _
  | call ht _ _ => exact headIs_cons ht _
  | property _ _ _ ih => exact ih.append _
  | methodCall _ _ _ _ ih _ => exact ih.append _
  | noArgs hparen _ _ => exact headIs_cons hparen _
  | someArgs hparen _ _ _ _ => exact headIs_cons hparen _
  | lastItem _ _ ih => exact ih.append _
  | moreItems _ _ _ _ _ ih _ => exact ((ih.append _).append _).append _
  | pair hkey _ _ _ _ _ => exact headIs_cons hkey _
  | lastPair _ ih => exact ih
  | morePairs _ _ _ _ ih _ => exact (ih.append _).append _
  | noMembers | someMembers | membersComma => trivial
  | lastParam ht => exact headIs_cons ht _
  | moreParams ht _ _ _ => exact headIs_cons ht _
  | binding hword | importing hword | importingAs hword | definition hword | definitionParams hword
  | conditional hword | conditionalComparison hword | returning hword | returningValue hword =>
    exact headIs_cons (.inr (.inr (by rw [hword]; rfl))) _
  | expression _ ih => exact ih.mono fun t ht => ht.elim .inl fun hm => .inr (.inl hm)
  | noStmts | lastStmt | moreStmts => trivial
  | body hbrace _ _ _ => exact headIs_cons hbrace _

/-- Whether some tokens do not end with one that separates statements. -/
def Closed (ts : List Token) : Prop :=
  ∀ t ∈ ts.getLast?, ¬t.Separates

theorem Closed.append {ts us : List Token} (hts : Closed ts) (hus : Closed us) :
    Closed (ts ++ us) := by
  intro t ht
  rw [List.getLast?_append, Option.mem_def] at ht
  cases hlast : us.getLast? with
  | none =>
    rw [hlast] at ht
    exact hts t ht
  | some u =>
    rw [hlast] at ht
    exact hus t (hlast.trans ht)

/-- Tokens that end with one of a kind that does not separate statements. -/
theorem closed_concat (ts : List Token) {t : Token} {k : TokenKind} (ht : t.kind = k)
    (hk : k ≠ .newline ∧ k ≠ .semicolon := by decide) : Closed (ts ++ [t]) := by
  intro u hu
  obtain rfl : t = u := by simpa using hu
  rintro (h | h)
  · exact hk.1 (ht.symm.trans h)
  · exact hk.2 (ht.symm.trans h)

theorem Closed.cons {t : Token} {k : TokenKind} {ts : List Token} (hts : Closed ts)
    (ht : t.kind = k) (hk : k ≠ .newline ∧ k ≠ .semicolon := by decide) : Closed (t :: ts) :=
  (closed_concat [] ht hk).append hts

/-- What a phrase ends with, where a separator cannot stand at its end. -/
def Phrase.Ends : Phrase → List Token → Prop
  | .expr, ts | .operand, ts | .term, ts | .reference, ts | .args, ts | .params, ts
  | .stmt _, ts | .body _, ts =>
    Closed ts
  | _, _ => True

/-- A statement, and each part that it may end with, does not end with a separator. -/
theorem Derives.ends {p : Phrase} {ts : List Token} {v : p.Tree} (h : Derives p ts v) :
    p.Ends ts := by
  -- The last part of a phrase decides. Lists may have separators behind their last element, so
  -- nothing is said of them.
  induction h with
  | exprOperand _ ih => exact ih
  | exprSum _ hsign _ ihl ihr =>
    rcases hsign with hsign | hsign
    · exact Closed.append ihl (Closed.cons ihr hsign)
    · exact Closed.append ihl (Closed.cons ihr hsign)
  | operandTerm _ ih => exact ih
  | operandMinus hsign _ ih => exact Closed.cons ih hsign
  | termNumber ht | termFloat ht | termBoolean ht | termString ht =>
    exact closed_concat [] ht
  | termObject _ _ hclose _ => exact closed_concat _ hclose
  | termReference _ ih => exact ih
  | bareName ht => exact closed_concat [] ht
  | call ht _ ih => exact Closed.cons ih ht
  | property _ hdot hname ih =>
    exact Closed.append ih ((closed_concat [] hname).cons hdot)
  | methodCall _ hdot hname _ ihr iha =>
    exact Closed.append ihr ((Closed.cons iha hname).cons hdot)
  | noArgs _ _ hclose => exact closed_concat _ hclose
  | someArgs _ _ _ hclose _ => exact closed_concat _ hclose
  | lastItem | moreItems | pair | lastPair | morePairs | noMembers | someMembers | membersComma =>
    trivial
  | lastParam ht => exact closed_concat [] ht
  | moreParams ht hcomma _ ih =>
    exact (Closed.cons ih hcomma).cons ht
  | binding hword hname hsign _ ih =>
    exact Closed.append (closed_concat [_, _] hsign) ih
  | importing _ htarget => exact closed_concat [_] htarget
  | importingAs _ _ _ hchosen =>
    rcases hchosen with hchosen | hchosen
    · exact closed_concat [_, _, _] hchosen
    · exact closed_concat [_, _, _] hchosen
  | definition _ _ _ hclose _ ih =>
    exact Closed.append (closed_concat [_, _, _] hclose) ih
  | definitionParams hword hname hparen _ hclose _ ihp ihb =>
    exact Closed.append (Closed.append (closed_concat [_, _] hparen) ihp) (Closed.cons ihb hclose)
  | conditional hword _ _ ihe ihb =>
    exact Closed.append (Closed.cons ihe hword) ihb
  | conditionalComparison hword _ hsign _ _ ihl ihr ihb =>
    refine Closed.append (Closed.append (Closed.cons ihl hword) ?_) ihb
    rcases hsign with hsign | hsign
    · exact Closed.cons ihr hsign
    · exact Closed.cons ihr hsign
  | returning hword => exact closed_concat [] hword
  | returningValue hword _ ih => exact Closed.cons ih hword
  | expression _ ih => exact ih
  | noStmts | lastStmt | moreStmts => trivial
  | body _ _ hclose _ => exact closed_concat _ hclose

/-- Whether no token is the end of the text. -/
def NoEnd (ts : List Token) : Prop :=
  ∀ t ∈ ts, t.kind ≠ .endOfText

@[simp]
theorem noEnd_nil : NoEnd [] :=
  fun _ ht => absurd ht List.not_mem_nil

@[simp]
theorem noEnd_cons {t : Token} {ts : List Token} :
    NoEnd (t :: ts) ↔ t.kind ≠ .endOfText ∧ NoEnd ts :=
  List.forall_mem_cons

@[simp]
theorem noEnd_append {ts us : List Token} : NoEnd (ts ++ us) ↔ NoEnd ts ∧ NoEnd us :=
  List.forall_mem_append

theorem Newlines.noEnd {ns : List Token} (h : Newlines ns) : NoEnd ns :=
  fun t ht => by simp [h t ht]

theorem Separators.noEnd {ss : List Token} (h : Separators ss) : NoEnd ss :=
  fun t ht => (h t ht).kind_ne

theorem Token.IsName.kind_ne {t : Token} (h : t.IsName) : t.kind ≠ .endOfText := by
  intro hk
  rw [Token.IsName, hk] at h
  simp at h

theorem Token.IsKey.kind_ne {t : Token} (h : t.IsKey) : t.kind ≠ .endOfText := by
  rcases h with h | h | h
  · simp [h]
  · exact h.kind_ne
  · simp [h]

/-- A phrase does not reach over the end of the text. -/
theorem Derives.noEnd {p : Phrase} {ts : List Token} {v : p.Tree} (h : Derives p ts v) :
    NoEnd ts := by
  induction h with
  | exprSum _ hsign _ ihl ihr => rcases hsign with h | h <;> simp [ihl, ihr, h]
  | noArgs hparen hns hclose => simp [hparen, hns.noEnd, hclose]
  | someArgs hparen hns _ hclose ih => simp [hparen, hns.noEnd, hclose, ih]
  | lastItem _ hns ih => simp [ih, hns.noEnd]
  | moreItems _ hns hcomma hms _ ih ihmore => simp [ih, hns.noEnd, hcomma, hms.noEnd, ihmore]
  | pair hkey hcolon hns _ hms ih => simp [hkey.kind_ne, hcolon, hns.noEnd, ih, hms.noEnd]
  | morePairs _ hcomma hns _ ih ihmore => simp [ih, hcomma, hns.noEnd, ihmore]
  | noMembers hns => exact hns.noEnd
  | someMembers hns _ ih => simp [hns.noEnd, ih]
  | membersComma hns _ hcomma hms ih => simp [hns.noEnd, ih, hcomma, hms.noEnd]
  | binding hword hname hsign _ ih => simp [hword, hname.kind_ne, hsign, ih]
  | importingAs hword htarget has hchosen =>
    rcases hchosen with h | h <;> simp [hword, htarget, has, h]
  | conditionalComparison hword _ hsign _ _ ihl ihr ihb =>
    rcases hsign with h | h <;> simp [hword, ihl, h, ihr, ihb]
  | noStmts hss => exact hss.noEnd
  | lastStmt hss _ ih => simp [hss.noEnd, ih]
  | moreStmts hss _ hsep _ ih ihmore => simp [hss.noEnd, ih, hsep.kind_ne, ihmore]
  | _ => simp [*]

end ModuLang.Source
