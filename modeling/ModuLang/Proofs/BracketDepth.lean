import ModuLang.Proofs.ProgramGrammar

/-!
# Brackets

In every phrase the brackets match: as many are closed as are opened, and none is closed that was
not opened before. A statement ends before the first end of a line at which no bracket is open, since
the ends of lines inside it all stand between brackets. So the number of open brackets alone tells
which ends of lines a program can be cut at.
-/

namespace ModuLang.Source

/-- How many more brackets some tokens open than they close. -/
def depth : List Token → Int
  | [] => 0
  | t :: ts => t.opens + depth ts

@[simp]
theorem depth_nil : depth [] = 0 := rfl

@[simp]
theorem depth_cons (t : Token) (ts : List Token) : depth (t :: ts) = t.opens + depth ts := rfl

@[simp]
theorem depth_append (ts us : List Token) : depth (ts ++ us) = depth ts + depth us := by
  induction ts with
  | nil => simp
  | cons t ts ih => rw [List.cons_append, depth_cons, depth_cons, ih, Int.add_assoc]

/-- Counting the open brackets from the left. -/
theorem foldl_opens (d : Int) (ts : List Token) :
    ts.foldl (fun depth t => depth + t.opens) d = d + depth ts := by
  induction ts generalizing d with
  | nil => simp
  | cons t ts ih =>
    rw [List.foldl_cons, ih, depth_cons]
    omega

/-- Separators are no brackets. -/
theorem Token.Separates.opens {t : Token} (h : t.Separates) : t.opens = 0 := by
  rcases h with h | h
  · simp [Token.opens, h]
  · simp [Token.opens, h]

theorem Separators.depth {ss : List Token} (h : Separators ss) : depth ss = 0 := by
  induction ss with
  | nil => rfl
  | cons s ss ih =>
    have hs : s.opens = 0 := (h s List.mem_cons_self).opens
    have hrest : Source.depth ss = 0 := ih fun t ht => h t (List.mem_cons_of_mem s ht)
    rw [depth_cons, hs, hrest]
    rfl

/-! ### Brackets that match -/

/-- Whether the brackets of some tokens match, with at least `floor` of them open at the end of each
line. -/
structure Nested (floor : Int) (ts : List Token) : Prop where
  closed : depth ts = 0
  above : ∀ us t vs, ts = us ++ t :: vs → 0 ≤ depth us ∧ (t.kind = .newline → floor ≤ depth us)

section Nested

variable {floor : Int} {ts us : List Token} {t : Token}

/-- At no point more brackets are closed than opened. -/
theorem Nested.depth_nonneg (h : Nested floor ts) (hus : us <+: ts) : 0 ≤ depth us := by
  obtain ⟨vs, rfl⟩ := hus
  cases vs with
  | nil =>
    have hclosed := h.closed
    rw [List.append_nil] at hclosed
    omega
  | cons t vs => exact (h.above us t vs rfl).1

theorem nested_nil : Nested floor [] :=
  ⟨rfl, fun us t vs heq => by simp at heq⟩

theorem Nested.append (hts : Nested floor ts) (hus : Nested floor us) : Nested floor (ts ++ us) := by
  refine ⟨?_, fun vs u ws heq => ?_⟩
  · rw [depth_append, hts.closed, hus.closed]
    rfl
  · rcases List.append_eq_append_iff.mp heq with ⟨xs, rfl, hxs⟩ | ⟨xs, hxs, hus'⟩
    · -- The token stands in the second part, and the first one is closed there.
      rw [depth_append, hts.closed, Int.zero_add]
      exact hus.above xs u ws hxs
    · cases xs with
      | nil =>
        rw [List.append_nil] at hxs
        subst hxs
        rw [hts.closed]
        exact hus.above [] u ws hus'.symm
      | cons x xs =>
        obtain ⟨rfl, -⟩ := List.cons_eq_cons.mp hus'
        exact hts.above vs _ xs hxs

/-- Tokens that need no brackets around them may stand between brackets. -/
theorem Nested.loosen (h : Nested 1 ts) : Nested 0 ts :=
  ⟨h.closed, fun us t vs heq => ⟨(h.above us t vs heq).1, fun _ => (h.above us t vs heq).1⟩⟩

/-- A token that is no bracket and no end of a line. -/
theorem nested_token {k : TokenKind} (ht : t.kind = k)
    (hk : k ∉ [.leftBrace, .leftParen, .rightBrace, .rightParen, .newline] := by decide) :
    Nested 1 [t] := by
  subst ht
  refine ⟨?_, fun us u vs heq => ?_⟩
  · rw [depth_cons, depth_nil, Token.opens]
    split
    all_goals simp_all
  · obtain ⟨rfl, rfl, rfl⟩ : us = [] ∧ t = u ∧ vs = [] := by
      cases us with
      | nil => simpa [and_comm] using heq
      | cons w us => simp at heq
    refine ⟨Int.le_refl 0, fun hnl => absurd hnl ?_⟩
    simp_all

theorem Nested.cons {k : TokenKind} (hts : Nested 1 ts) (ht : t.kind = k)
    (hk : k ∉ [.leftBrace, .leftParen, .rightBrace, .rightParen, .newline] := by decide) :
    Nested 1 (t :: ts) :=
  (nested_token ht hk).append hts

/-- Separators, outside of brackets of their own. -/
theorem Separators.nested {ss : List Token} (h : Separators ss) : Nested 0 ss := by
  refine ⟨h.depth, fun us t vs heq => ?_⟩
  have hus : Separators us := fun u hu => h u (heq ▸ List.mem_append_left _ hu)
  rw [hus.depth]
  exact ⟨Int.le_refl 0, fun _ => Int.le_refl 0⟩

theorem Newlines.nested {ns : List Token} (h : Newlines ns) : Nested 0 ns :=
  Separators.nested fun t ht => .inl (h t ht)

/-- Brackets around tokens keep the ends of their lines inside. -/
theorem Nested.wrap {opening closing : Token} (hts : Nested 0 ts) (hopening : opening.opens = 1)
    (hclosing : closing.opens = -1) : Nested 1 (opening :: ts ++ [closing]) := by
  refine ⟨?_, fun us t vs heq => ?_⟩
  · simp [hopening, hclosing, hts.closed]
  · cases us with
    | nil =>
      obtain ⟨rfl, -⟩ := List.cons_eq_cons.mp heq
      refine ⟨Int.le_refl 0, fun hnl => ?_⟩
      simp [Token.opens, hnl] at hopening
    | cons u us =>
      obtain ⟨rfl, hrest⟩ := List.cons_eq_cons.mp heq
      -- One bracket is open in front of the token, and those between it and the token match.
      have hus : us <+: ts := by
        rcases List.prefix_concat_iff.mp ⟨t :: vs, hrest.symm⟩ with heq | hus
        · subst heq
          simp at hrest
        · exact hus
      have hinner := hts.depth_nonneg hus
      rw [depth_cons, hopening]
      omega

end Nested

/-! ### Brackets of phrases -/

/-- How many brackets of a phrase of a kind are open at least at the end of a line inside it. -/
def Phrase.floor : Phrase → Int
  | .items | .pair | .pairs | .members | .stmts _ => 0
  | _ => 1

theorem Token.IsName.nested {t : Token} (h : t.IsName) : Nested 1 [t] := by
  refine nested_token rfl fun hk => ?_
  unfold Token.IsName at h
  cases hkind : t.kind <;> simp_all

theorem Token.IsKey.nested {t : Token} (h : t.IsKey) : Nested 1 [t] := by
  rcases h with h | h | h
  · exact nested_token h
  · exact h.nested
  · exact nested_token h

theorem opens_leftParen {t : Token} (ht : t.kind = .leftParen) : t.opens = 1 := by
  simp [Token.opens, ht]

theorem opens_rightParen {t : Token} (ht : t.kind = .rightParen) : t.opens = -1 := by
  simp [Token.opens, ht]

theorem opens_leftBrace {t : Token} (ht : t.kind = .leftBrace) : t.opens = 1 := by
  simp [Token.opens, ht]

theorem opens_rightBrace {t : Token} (ht : t.kind = .rightBrace) : t.opens = -1 := by
  simp [Token.opens, ht]

/-- The brackets of every phrase match, and a phrase that stands outside of brackets has none of the
ends of its lines outside of brackets. -/
theorem Derives.nested {p : Phrase} {ts : List Token} {v : p.Tree} (h : Derives p ts v) :
    Nested p.floor ts := by
  -- Brackets raise the floor of what they enclose. Where a phrase with a higher floor stands beside
  -- one with a lower floor, the higher one is loosened first.
  induction h with
  | exprOperand _ ih => exact ih
  | exprSum _ hsign _ ihl ihr =>
    rcases hsign with hsign | hsign
    · exact Nested.append ihl (Nested.cons ihr hsign)
    · exact Nested.append ihl (Nested.cons ihr hsign)
  | operandTerm _ ih => exact ih
  | operandMinus hsign _ ih => exact Nested.cons ih hsign
  | termNumber ht | termFloat ht | termBoolean ht | termString ht => exact nested_token ht
  | termObject hbrace _ hclose ih =>
    exact Nested.wrap ih (opens_leftBrace hbrace) (opens_rightBrace hclose)
  | termReference _ ih => exact ih
  | bareName ht => exact nested_token ht
  | call ht _ ih => exact Nested.cons ih ht
  | property _ hdot hname ih => exact Nested.append ih ((nested_token hname).cons hdot)
  | methodCall _ hdot hname _ ihr iha =>
    exact Nested.append ihr ((Nested.cons iha hname).cons hdot)
  | noArgs hparen hns hclose =>
    exact hns.nested.wrap (opens_leftParen hparen) (opens_rightParen hclose)
  | someArgs hparen hns _ hclose ih =>
    exact (hns.nested.append ih).wrap (opens_leftParen hparen) (opens_rightParen hclose)
  | lastItem _ hns ih => exact (Nested.loosen ih).append hns.nested
  | moreItems _ hns hcomma hms _ ih ihmore =>
    have hbehind : Nested 0 (_ :: _) := (nested_token hcomma).loosen.append hms.nested
    exact (((Nested.loosen ih).append hns.nested).append hbehind).append ihmore
  | pair hkey hcolon hns _ hms ih =>
    have hfront : Nested 0 (_ :: _ :: _) :=
      (hkey.nested.append (nested_token hcolon)).loosen.append hns.nested
    exact (hfront.append (Nested.loosen ih)).append hms.nested
  | lastPair _ ih => exact ih
  | morePairs _ hcomma hns _ ih ihmore =>
    have hbehind : Nested 0 (_ :: _) := (nested_token hcomma).loosen.append hns.nested
    exact (Nested.append ih hbehind).append ihmore
  | noMembers hns => exact hns.nested
  | someMembers hns _ ih => exact hns.nested.append ih
  | membersComma hns _ hcomma hms ih =>
    have hbehind : Nested 0 (_ :: _) := (nested_token hcomma).loosen.append hms.nested
    exact (hns.nested.append ih).append hbehind
  | lastParam ht => exact nested_token ht
  | moreParams ht hcomma _ ih => exact (Nested.cons ih hcomma).cons ht
  | binding hword hname hsign _ ih =>
    exact Nested.cons (hname.nested.append (Nested.cons ih hsign)) hword
  | importing hword htarget => exact (nested_token htarget).cons hword
  | importingAs hword htarget has hchosen =>
    rcases hchosen with hchosen | hchosen
    · exact (((nested_token hchosen).cons has).cons htarget).cons hword
    · exact (((nested_token hchosen).cons has).cons htarget).cons hword
  | definition hword hname hparen hclose _ ih =>
    have hparens : Nested 1 [_, _] :=
      nested_nil.wrap (opens_leftParen hparen) (opens_rightParen hclose)
    exact ((hparens.append ih).cons hname).cons hword
  | definitionParams hword hname hparen _ hclose _ ihp ihb =>
    have hparens := (Nested.loosen ihp).wrap (opens_leftParen hparen) (opens_rightParen hclose)
    have hwhole := ((hparens.append ihb).cons hname).cons hword
    simpa [Phrase.floor] using hwhole
  | conditional hword _ _ ihe ihb => exact Nested.append (Nested.cons ihe hword) ihb
  | conditionalComparison hword _ hsign _ _ ihl ihr ihb =>
    refine Nested.append (Nested.append (Nested.cons ihl hword) ?_) ihb
    rcases hsign with hsign | hsign
    · exact Nested.cons ihr hsign
    · exact Nested.cons ihr hsign
  | returning hword => exact nested_token hword
  | returningValue hword _ ih => exact Nested.cons ih hword
  | expression _ ih => exact ih
  | noStmts hss => exact hss.nested
  | lastStmt hss _ ih => exact hss.nested.append (Nested.loosen ih)
  | moreStmts hss _ hsep _ ih ihmore =>
    have hone : Nested 0 [_] := Separators.nested (List.forall_mem_singleton.mpr hsep)
    exact (hss.nested.append (Nested.loosen ih)).append (hone.append ihmore)
  | body hbrace _ hclose ih =>
    exact Nested.wrap ih (opens_leftBrace hbrace) (opens_rightBrace hclose)

/-! ### Cutting a program -/

/-- An end of a line inside a statement stands between brackets of the statement. -/
theorem Derives.depth_pos {f : Bool} {us vs : List Token} {n : Node} {nl : Token}
    (h : Derives (.stmt f) (us ++ nl :: vs) n) (hnl : nl.kind = .newline) : 0 < depth us :=
  (h.nested.above us nl vs rfl).2 hnl

/-- The ways that a token behind some others can stand in separators and a statement: it is one of
the separators, or it is in the statement. -/
theorem eq_of_append_eq {ss ts us vs : List Token} {t : Token} (h : ss ++ ts = us ++ t :: vs) :
    (∃ ss', ss = us ++ t :: ss' ∧ vs = ss' ++ ts) ∨ ∃ us', us = ss ++ us' ∧ ts = us' ++ t :: vs := by
  rcases List.append_eq_append_iff.mp h with ⟨xs, hus, hts⟩ | ⟨xs, hss, hrest⟩
  · exact .inr ⟨xs, hus, hts⟩
  · cases xs with
    | nil => exact .inr ⟨[], by simpa using hss.symm, hrest.symm⟩
    | cons x xs =>
      obtain ⟨rfl, hvs⟩ := List.cons_eq_cons.mp hrest
      exact .inl ⟨xs, hss, hvs⟩

/-- Separators around one of them. -/
theorem Separators.around {us vs : List Token} {t : Token} (h : Separators (us ++ t :: vs)) :
    Separators us ∧ Separators vs :=
  ⟨fun u hu => h u (List.mem_append_left _ hu),
    fun v hv => h v (List.mem_append_right _ (List.mem_cons_of_mem _ hv))⟩

/-- A program can be cut at an end of a line where no bracket is open. -/
theorem Derives.stmts_split {f : Bool} {us vs : List Token} {ns : List Node} {nl : Token}
    (h : Derives (.stmts f) (us ++ nl :: vs) ns) (hnl : nl.kind = .newline) (hus : depth us = 0) :
    ∃ ms ls, ns = ms ++ ls ∧ Derives (.stmts f) us ms ∧ Derives (.stmts f) vs ls := by
  suffices hall : ∀ ts ns, Derives (.stmts f) ts ns → ∀ us, ts = us ++ nl :: vs → depth us = 0 →
      ∃ ms ls, ns = ms ++ ls ∧ Derives (.stmts f) us ms ∧ Derives (.stmts f) vs ls from
    hall _ _ h us rfl hus
  intro ts ns h
  refine Derives.stmts_induction (fun ts ns => ∀ us, ts = us ++ nl :: vs → depth us = 0 →
    ∃ ms ls, ns = ms ++ ls ∧ Derives (.stmts f) us ms ∧ Derives (.stmts f) vs ls) ?_ ?_ ?_ h
  · rintro ss hss us rfl -
    exact ⟨[], [], rfl, .noStmts hss.around.1, .noStmts hss.around.2⟩
  · intro ss ts n hss hstmt us heq hdepth
    rcases eq_of_append_eq heq with ⟨ss', rfl, rfl⟩ | ⟨us', rfl, rfl⟩
    · exact ⟨[], [n], rfl, .noStmts hss.around.1, .lastStmt hss.around.2 hstmt⟩
    · have hpos := hstmt.depth_pos hnl
      rw [depth_append, hss.depth] at hdepth
      omega
  · intro ss ts rest n ns sep hss hstmt hsep hrest ih us heq hdepth
    rw [List.append_assoc] at heq
    rcases eq_of_append_eq heq with ⟨ss', rfl, rfl⟩ | ⟨us', rfl, hbehind⟩
    · refine ⟨[], n :: ns, rfl, .noStmts hss.around.1, ?_⟩
      rw [← List.append_assoc]
      exact .moreStmts hss.around.2 hstmt hsep hrest
    · rw [depth_append, hss.depth] at hdepth
      rcases eq_of_append_eq hbehind with ⟨ts', rfl, -⟩ | ⟨us', rfl, hsplit⟩
      · have hpos := hstmt.depth_pos hnl
        omega
      · have hclosed : depth ts = 0 := hstmt.nested.closed
        cases us' with
        | nil =>
          -- The end of the line is the separator behind the statement.
          obtain ⟨rfl, rfl⟩ := List.cons_eq_cons.mp hsplit
          rw [List.append_nil]
          exact ⟨[n], ns, rfl, .lastStmt hss hstmt, hrest⟩
        | cons u us' =>
          obtain ⟨rfl, hrest⟩ := List.cons_eq_cons.mp hsplit
          rw [depth_append, depth_cons, hclosed, hsep.opens] at hdepth
          obtain ⟨ms, ls, rfl, hms, hls⟩ := ih us' hrest (by omega)
          refine ⟨n :: ms, ls, rfl, ?_, hls⟩
          rw [← List.append_assoc]
          exact .moreStmts hss hstmt hsep hms

end ModuLang.Source
