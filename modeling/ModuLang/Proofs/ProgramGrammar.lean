import ModuLang.Proofs.ParserCompleteness

/-!
# The parser reads the grammar

The parser ends without a failure exactly on the sequences of tokens that are programs of the
grammar, and what it yields is the only tree that the grammar gives to them. The levels of nesting
are the one limit: they suffice if there are more of them than tokens, and where they do not, the
parser says so and yields no wrong tree.

Reading is local: a program that is read once is read the same way in front of any other text.
-/

namespace ModuLang.Source

variable {ending : Ending} {levels : Nat}

/-- An induction over the statements of a program or a body. -/
theorem Derives.stmts_induction {f : Bool} (P : List Token → List Node → Prop)
    (hnone : ∀ {ss}, Separators ss → P ss [])
    (hlast : ∀ {ss ts n}, Separators ss → Derives (.stmt f) ts n → P (ss ++ ts) [n])
    (hmore : ∀ {ss ts us n ns sep}, Separators ss → Derives (.stmt f) ts n → sep.Separates →
      Derives (.stmts f) us ns → P us ns → P (ss ++ ts ++ sep :: us) (n :: ns))
    {ts : List Token} {ns : List Node} (h : Derives (.stmts f) ts ns) : P ts ns := by
  cases h with
  | noStmts hss => exact hnone hss
  | lastStmt hss hstmt => exact hlast hss hstmt
  | moreStmts hss hstmt hsep hrest =>
    exact hmore hss hstmt hsep hrest (stmts_induction P hnone hlast hmore hrest)
termination_by ts.length

/-- A program that begins with a statement, behind separators. -/
theorem programStatements_of_head {ss ts : List Token} (hss : Separators ss)
    (hhead : HeadIs (Phrase.stmt false).Begins ts) :
    programStatements ending levels (ss ++ ts) =
      match erase (ended ending (statement ending levels false) ts) with
      | .error failure => ⟨[], some failure⟩
      | .ok node =>
        let more := programStatements ending levels node.2
        ⟨node.1 :: more.statements, more.failure⟩ := by
  obtain ⟨t, us, rfl, ht⟩ := hhead
  obtain ⟨hsep, hbrace, htext⟩ := begins_statement ht
  rw [programStatements_eq, skipSeparators_append hss, skipSeparators_of_not hsep, peek]
  exact (if_neg htext).trans (if_neg hbrace)

/-- Some tokens are read as some statements in front of everything that may follow them. -/
def ReadsAs (levels : Nat) (ts : List Token) (ns : List Node) : Prop :=
  ∀ ending rest, Next ending rest (fun k => endsStatement k = true) →
    programStatements ending levels (ts ++ rest) =
      ⟨ns ++ (programStatements ending levels rest).statements,
        (programStatements ending levels rest).failure⟩

/-- Some tokens are nested too deeply in front of everything that may follow them. -/
def Overflows (levels : Nat) (ts : List Token) : Prop :=
  ∀ ending rest, Next ending rest (fun k => endsStatement k = true) →
    (programStatements ending levels (ts ++ rest)).failure = some (.crash .stackOverflow)

/-- A separator ends the statement in front of it. -/
theorem next_separator {sep : Token} (hsep : sep.Separates) (ending : Ending) (rest : List Token) :
    Next ending (sep :: rest) (fun k => endsStatement k = true) := by
  refine ⟨sep, rfl, ?_⟩
  rcases hsep with h | h
  · simp [h, endsStatement]
  · simp [h, endsStatement]

theorem ReadsAs.append {ts us : List Token} {ns ms : List Node} {sep : Token}
    (hts : ReadsAs levels ts ns) (hsep : sep.Separates) (hus : ReadsAs levels us ms) :
    ReadsAs levels (ts ++ sep :: us) (ns ++ ms) := by
  intro ending rest hnext
  rw [List.append_assoc, List.cons_append, hts ending _ (next_separator hsep ending _),
    programStatements_cons hsep, hus ending rest hnext, List.append_assoc]

theorem ReadsAs.overflows {ts us : List Token} {ns : List Node} {sep : Token}
    (hts : ReadsAs levels ts ns) (hsep : sep.Separates) (hus : Overflows levels us) :
    Overflows levels (ts ++ sep :: us) := by
  intro ending rest hnext
  rw [List.append_assoc, List.cons_append, hts ending _ (next_separator hsep ending _),
    programStatements_cons hsep, hus ending rest hnext]

theorem Overflows.append {ts : List Token} {sep : Token} (h : Overflows levels ts)
    (hsep : sep.Separates) (us : List Token) : Overflows levels (ts ++ sep :: us) := by
  intro ending rest _
  rw [List.append_assoc]
  exact h ending _ (next_separator hsep ending _)

/-- A statement behind separators is read as its tree, or it is nested too deeply. -/
theorem statement_complete {ss ts : List Token} {n : Node} (hss : Separators ss)
    (h : Derives (.stmt false) ts n) (levels : Nat) :
    ReadsAs levels (ss ++ ts) [n] ∨ levels ≤ ts.length + 1 ∧ Overflows levels (ss ++ ts) := by
  rcases ended_complete h.complete levels with hread | ⟨hfew, hover⟩
  · refine .inl fun ending rest hnext => ?_
    have hended : erase (ended ending (statement ending levels false) (ts ++ rest)) = .ok (n, rest) :=
      hread ending rest hnext
    rw [List.append_assoc, programStatements_of_head hss (h.headed.append _), hended]
    rfl
  · refine .inr ⟨hfew, fun ending rest hnext => ?_⟩
    have hended : erase (ended ending (statement ending levels false) (ts ++ rest)) =
        .error (.crash .stackOverflow) := hover ending rest hnext
    rw [List.append_assoc, programStatements_of_head hss (h.headed.append _), hended]

/-- The tokens of a program are read as its statements, or they are nested too deeply, whatever
follows them. -/
theorem programStatements_complete {ts : List Token} {ns : List Node}
    (h : Derives (.stmts false) ts ns) (levels : Nat) :
    ReadsAs levels ts ns ∨ levels ≤ ts.length + 1 ∧ Overflows levels ts := by
  refine Derives.stmts_induction
    (fun ts ns => ReadsAs levels ts ns ∨ levels ≤ ts.length + 1 ∧ Overflows levels ts) ?_ ?_ ?_ h
  · intro ss hss
    refine .inl fun ending rest _ => ?_
    rw [programStatements_eq, skipSeparators_append hss, ← programStatements_eq]
    rfl
  · intro ss ts n hss hstmt
    rcases statement_complete hss hstmt levels with hread | ⟨hfew, hover⟩
    · exact .inl hread
    · refine .inr ⟨?_, hover⟩
      simp only [List.length_append]
      omega
  · intro ss ts us n ns sep hss hstmt hsep _ ih
    rcases statement_complete hss hstmt levels with hread | ⟨hfew, hover⟩
    · rcases ih with ih | ⟨hfew, ih⟩
      · exact .inl (hread.append hsep ih)
      · refine .inr ⟨?_, hread.overflows hsep ih⟩
        simp only [List.length_append, List.length_cons]
        omega
    · refine .inr ⟨?_, hover.append hsep us⟩
      simp only [List.length_append, List.length_cons]
      omega

/-- Where a program in front of a separator is read to its end together with what follows, both are
read on their own. -/
theorem programStatements_front {ts us : List Token} {ns ms : List Node} {sep : Token}
    (hts : Derives (.stmts false) ts ns) (hsep : sep.Separates)
    (h : programStatements ending levels (ts ++ sep :: us) = ⟨ms, none⟩) :
    ReadsAs levels ts ns ∧
      ∃ ls, ms = ns ++ ls ∧ programStatements ending levels us = ⟨ls, none⟩ := by
  have hnext := next_separator hsep ending us
  rcases programStatements_complete hts levels with hreads | ⟨-, hover⟩
  · have hboth := hreads ending (sep :: us) hnext
    rw [h, programStatements_cons hsep] at hboth
    obtain ⟨hstatements, hfailure⟩ := Program.mk.inj hboth
    refine ⟨hreads, _, hstatements, ?_⟩
    rw [hfailure]
  · have hfailed := hover ending (sep :: us) hnext
    rw [h] at hfailed
    cases hfailed

/-! ### Sequences of tokens -/

/-- A sequence of tokens as the parser sees it, which is up to the first end of the text. -/
def untilEnd (ts : List Token) : List Token :=
  ts.takeWhile (·.kind != .endOfText)

/-- What stands behind the tokens that the parser sees is the end of the text. -/
theorem next_untilEnd (line : Int) (ts : List Token) :
    ∃ rest, ts = untilEnd ts ++ rest ∧ Next (.endOfText line) rest (· = .endOfText) := by
  refine ⟨ts.dropWhile (·.kind != .endOfText), List.takeWhile_append_dropWhile.symm, ?_⟩
  cases hrest : ts.dropWhile (·.kind != .endOfText) with
  | nil => exact ⟨_, rfl, rfl⟩
  | cons t us =>
    refine ⟨t, rfl, ?_⟩
    have hhead := List.head?_dropWhile_not (·.kind != .endOfText) ts
    rw [hrest] at hhead
    simpa using hhead

/-- The tokens that the parser sees are those in front of the end of the text. -/
theorem untilEnd_eq {ts used rest : List Token} {t : Token} (hused : NoEnd used)
    (hts : ts = used ++ rest) (hpeek : peek ending rest = .ok t) (ht : t.kind = .endOfText) :
    untilEnd ts = used := by
  unfold untilEnd
  rw [hts, List.takeWhile_append_of_pos fun u hu => by simpa using hused u hu]
  cases rest with
  | nil => simp
  | cons u us =>
    obtain rfl : u = t := Except.ok.inj hpeek
    simp [ht]

/-- A program in front of the end of the text. -/
theorem programStatements_end {line : Int} {rest : List Token} {ts : List Token} {ns : List Node}
    (h : ReadsAs levels ts ns) (hrest : Next (.endOfText line) rest (· = .endOfText)) :
    programStatements (.endOfText line) levels (ts ++ rest) = ⟨ns, none⟩ := by
  obtain ⟨t, hpeek, ht⟩ := hrest
  rw [h _ rest ⟨t, hpeek, by simp [ht, endsStatement]⟩, programStatements_endOfText hpeek ht,
    List.append_nil]

/-- Where a program is read to its end, the line of the end does not matter. -/
theorem programStatements_endOfText_line {line line' : Int} {ts : List Token} {ns : List Node}
    (h : programStatements (.endOfText line) levels ts = ⟨ns, none⟩) :
    programStatements (.endOfText line') levels ts = ⟨ns, none⟩ := by
  obtain ⟨used, rest, t, hused, rfl, hpeek, ht⟩ := programStatements_sound levels ts
    (congrArg Program.failure h)
  rw [h] at hused
  have hend : Next (.endOfText line) rest (fun k => endsStatement k = true) :=
    ⟨t, hpeek, by simp [ht, endsStatement]⟩
  rcases programStatements_complete hused levels with hreads | ⟨-, hover⟩
  · refine programStatements_end hreads ?_
    cases rest with
    | nil => exact ⟨_, rfl, rfl⟩
    | cons u us => exact ⟨t, hpeek, ht⟩
  · have hfailed := hover _ _ hend
    rw [h] at hfailed
    cases hfailed

/-- A program in front of separators and the end of the text. -/
theorem programStatements_separators {ts ss : List Token} {ns : List Node}
    (h : ReadsAs levels ts ns) (hss : Separators ss) (line : Int) :
    programStatements (.endOfText line) levels (ts ++ ss) = ⟨ns, none⟩ := by
  cases ss with
  | nil => exact programStatements_end h ⟨_, rfl, rfl⟩
  | cons sep ss =>
    have hskip : programStatements (.endOfText line) levels ((sep :: ss) ++ []) = ⟨[], none⟩ := by
      rw [programStatements_eq, skipSeparators_append hss, ← programStatements_eq]
      exact programStatements_endOfText rfl rfl levels
    rw [List.append_nil] at hskip
    have hnext := next_separator (hss sep List.mem_cons_self) (.endOfText line) ss
    rw [h _ _ hnext, hskip, List.append_nil]

/-- A text of one line is read as its tokens are, of which the last one ends the line. -/
theorem parse_of_readsAs [Host.Limits] {source : String} {line : Int} {ts : List Token}
    {ns : List Node}
    (h : tokenize source = (ts ++ [⟨.newline, "\n", line⟩], none)) (hread : ReadsAs stackLimit ts ns) :
    parse source = ⟨ns, none⟩ := by
  have hnewline : Separators [⟨.newline, "\n", line⟩] := by
    intro sep hsep
    rw [List.mem_singleton.mp hsep]
    exact .inl rfl
  unfold parse
  rw [h]
  exact programStatements_separators hread hnewline _

/-- The parser accepts exactly the programs of the grammar, and yields their only tree, unless the
levels of nesting do not suffice; more levels than tokens suffice. -/
theorem programStatements_iff_derives (line : Int) (levels : Nat) (ts : List Token)
    (hlevels : (programStatements (.endOfText line) levels ts).failure ≠
        some (.crash .stackOverflow) ∨ (untilEnd ts).length + 1 < levels) :
    ((programStatements (.endOfText line) levels ts).failure = none ↔
        ∃ ns, Derives (.stmts false) (untilEnd ts) ns) ∧
      ∀ ns, Derives (.stmts false) (untilEnd ts) ns →
        ns = (programStatements (.endOfText line) levels ts).statements := by
  obtain ⟨rest, hts, hrest⟩ := next_untilEnd line ts
  have hcomplete : ∀ ns, Derives (.stmts false) (untilEnd ts) ns →
      programStatements (.endOfText line) levels ts = ⟨ns, none⟩ := by
    intro ns hns
    rw [hts]
    rcases programStatements_complete hns levels with hread | ⟨hfew, hover⟩
    · exact programStatements_end hread hrest
    · have hfailed := hover _ rest (hrest.mono fun k hk => by simp [hk, endsStatement])
      rw [← hts] at hfailed
      rcases hlevels with hlevels | hlevels
      · exact absurd hfailed hlevels
      · omega
  refine ⟨⟨fun h => ?_, ?_⟩, fun ns hns => ?_⟩
  · obtain ⟨used, rest', t, hused, hts', hpeek, ht⟩ := programStatements_sound levels ts h
    rw [untilEnd_eq hused.noEnd hts' hpeek ht]
    exact ⟨_, hused⟩
  · rintro ⟨ns, hns⟩
    rw [hcomplete ns hns]
  · rw [hcomplete ns hns]

/-- A call with its arguments over two lines is a program, and has one tree. -/
theorem call_over_two_lines_derives :
    (untilEnd (tokenize "f(1,\n-x.y)").1).length + 1 < stackLimit ∧
      ∃ ns, Derives (.stmts false) (untilEnd (tokenize "f(1,\n-x.y)").1) ns ∧
        ∀ ms, Derives (.stmts false) (untilEnd (tokenize "f(1,\n-x.y)").1) ms → ms = ns := by
  have hlevels : (untilEnd (tokenize "f(1,\n-x.y)").1).length + 1 < stackLimit := by
    decide +kernel
  obtain ⟨haccepts, hunique⟩ := programStatements_iff_derives 2 stackLimit _ (.inr hlevels)
  obtain ⟨ns, hns⟩ := haccepts.mp (by decide +kernel)
  refine ⟨hlevels, ns, hns, fun ms hms => ?_⟩
  rw [hunique ms hms, hunique ns hns]

end ModuLang.Source
