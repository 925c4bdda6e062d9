import ModuLang.Proofs.ParserSoundness
import ModuLang.Proofs.TokenLines

/-!
# The lines of what is read

Everything that reading a text gives has a line of the text. The lexer counts the lines, so its
tokens and its failures have one; the parser takes its lines from the tokens, and at the end of the
text it takes the line of the last token. There always is one, because the first line of a text
gives at least the token of its end.

`ReadsIn` says of a step of the parser that it keeps to the lines of a given set: its nodes stand
there, the tokens behind them do, and where it fails it reports one of these lines.
-/

namespace ModuLang

/-- Whether a node has a property, with all nodes inside it. -/
inductive Node.Every (Q : Node → Prop) : Node → Prop where
  | intro {n : Node} (hself : Q n) (hchildren : ∀ c ∈ n.children, c.Every Q) : Every Q n

/-- Whether a node stands at one of the given lines, with all nodes inside it. -/
abbrev Node.LinesIn (P : Int → Prop) (n : Node) : Prop :=
  n.Every fun n => P n.line

/-- Whether a failure is reported at one of the given lines, if it has a line at all. -/
def Failure.At (P : Int → Prop) : Failure → Prop
  | .fault f => P f.line
  | .crash _ => True

theorem Failure.At.mono {P Q : Int → Prop} {failure : Failure} (h : failure.At P)
    (hPQ : ∀ line, P line → Q line) : failure.At Q := by
  cases failure with
  | fault f => exact hPQ _ h
  | crash c => trivial

namespace Node

variable {Q : Node → Prop} {n c : Node}

theorem Every.self (h : n.Every Q) : Q n := by
  cases h with
  | intro hself _ => exact hself

theorem Every.children (h : n.Every Q) (hc : c ∈ n.children) : c.Every Q := by
  cases h with
  | intro _ hchildren => exact hchildren c hc

/-- A node with nothing inside it. -/
theorem every_leaf (hself : Q n) (hn : n.children = []) : n.Every Q := by
  refine .intro hself fun c hc => ?_
  rw [hn] at hc
  exact absurd hc List.not_mem_nil

/-- A node with one node inside it, and others behind it. -/
theorem every_cons {cs : List Node} (hself : Q n) (hn : n.children = c :: cs) (hc : c.Every Q)
    (hcs : ∀ d ∈ cs, d.Every Q) : n.Every Q := by
  refine .intro hself fun d hd => ?_
  rw [hn] at hd
  rcases List.mem_cons.mp hd with rfl | hd
  · exact hc
  · exact hcs d hd

/-- A node with one node inside it. -/
theorem every_unary (hself : Q n) (hn : n.children = [c]) (hc : c.Every Q) : n.Every Q :=
  every_cons hself hn hc (List.forall_mem_nil _)

theorem every_binary {op : BinaryOperator} {l r : Node} {line : Int}
    (hself : Q (.binary op l r line)) (hl : l.Every Q) (hr : r.Every Q) :
    (Node.binary op l r line).Every Q :=
  every_cons hself rfl hl (List.forall_mem_singleton.mpr hr)

end Node

namespace Source

/-- Whether some tokens stand at the given lines. -/
def TokensIn (P : Int → Prop) (ts : List Token) : Prop :=
  ∀ t ∈ ts, P t.line

/-- Whether the end of the tokens is reported at one of the given lines. -/
def Ending.At (P : Int → Prop) : Ending → Prop
  | .endOfText line => P line
  | .failed failure => failure.At P

/-- A result of a step that keeps to the given lines: what it read is as asked and the tokens behind
it stand at these lines, or the failure does. -/
inductive ReadsIn (P : Int → Prop) {α : Type} (Q : α → Prop) :
    Except Failure (α × List Token) → Prop where
  | ok {v : α} {ts : List Token} : Q v → TokensIn P ts → ReadsIn P Q (.ok (v, ts))
  | failed {failure : Failure} : failure.At P → ReadsIn P Q (.error failure)

/-- Whether a step keeps to the given lines where its tokens do. -/
def Parser.ReadsIn (P : Int → Prop) {α : Type} (Q : α → Prop) (step : Parser α) : Prop :=
  ∀ ts, TokensIn P ts → Source.ReadsIn P Q (erase (step ts))

/-! ### The next token -/

section Steps

variable {α β : Type} {P : Int → Prop} {Q : α → Prop} {R : β → Prop} {ending : Ending}
  {ts : List Token}

theorem TokensIn.dropWhile (h : TokensIn P ts) (skips : Token → Bool) :
    TokensIn P (ts.dropWhile skips) :=
  fun t ht => h t ((List.dropWhile_sublist skips).subset ht)

theorem TokensIn.skipNewlines (h : TokensIn P ts) : TokensIn P (skipNewlines ts) :=
  h.dropWhile _

theorem TokensIn.skipSeparators (h : TokensIn P ts) : TokensIn P (skipSeparators ts) :=
  h.dropWhile _

theorem ReadsIn.bind {x : Except Failure (α × List Token)}
    {f : α × List Token → Except Failure (β × List Token)} (hx : ReadsIn P Q x)
    (hf : ∀ v us, x = .ok (v, us) → Q v → TokensIn P us → ReadsIn P R (f (v, us))) :
    ReadsIn P R (x >>= f) := by
  cases hx with
  | ok hv hus => exact hf _ _ rfl hv hus
  | failed hfailure => exact .failed hfailure

theorem readsIn_failAt {cause : Cause} {line : Int} (hline : P line) :
    ReadsIn P Q (failAt cause line) :=
  .failed hline

variable (hending : ending.At P)

include hending

theorem line_of_peek {t : Token} (hts : TokensIn P ts) (h : peek ending ts = .ok t) : P t.line := by
  cases ts with
  | nil =>
    cases ending with
    | endOfText line =>
      cases h
      exact hending
    | failed failure => cases h
  | cons u rest =>
    cases h
    exact hts t List.mem_cons_self

theorem at_of_peek {failure : Failure} (h : peek ending ts = .error failure) : failure.At P := by
  cases ts with
  | nil =>
    cases ending with
    | endOfText line => cases h
    | failed failure =>
      cases h
      exact hending
  | cons u rest => cases h

/-- What follows a look at the next token. -/
theorem ReadsIn.peek {f : Token → Except Failure (β × List Token)} (hts : TokensIn P ts)
    (hf : ∀ t, P t.line → ReadsIn P R (f t)) : ReadsIn P R (peek ending ts >>= f) := by
  cases hpeek : Source.peek ending ts with
  | error failure => exact .failed (at_of_peek hending hpeek)
  | ok t => exact hf t (line_of_peek hending hts hpeek)

/-- What follows the use of a token that need not be there. -/
theorem ReadsIn.accept {wanted : TokenKind → Bool}
    {f : Option (Token × List Token) → Except Failure (β × List Token)} (hts : TokensIn P ts)
    (hnone : ReadsIn P R (f none))
    (hsome : ∀ t rest, ts = t :: rest → P t.line → TokensIn P rest →
      ReadsIn P R (f (some (t, rest)))) :
    ReadsIn P R (eraseOption (accept ending wanted ts) >>= f) := by
  cases ts with
  | nil =>
    rw [eraseOption_accept_nil]
    cases ending with
    | endOfText line => exact hnone
    | failed failure => exact .failed hending
  | cons t rest =>
    rw [eraseOption_accept_cons]
    split
    · have hrest : TokensIn P rest := fun u hu => hts u (List.mem_cons_of_mem t hu)
      exact hsome t rest rfl (hts t List.mem_cons_self) hrest
    · exact hnone

/-- The use of a token that has to be there. -/
theorem readsIn_expect (wanted : TokenKind → Bool) (what : Expectation) (hts : TokensIn P ts) :
    ReadsIn P (fun t => P t.line) (erase (expect ending wanted what ts)) := by
  cases ts with
  | nil =>
    -- The error is reported where the text ends.
    rw [erase_expect_nil]
    exact .peek hending hts fun t ht => readsIn_failAt ht
  | cons t rest =>
    have ht : P t.line := hts t List.mem_cons_self
    rw [erase_expect_cons]
    split
    · exact .ok ht fun u hu => hts u (List.mem_cons_of_mem t hu)
    · exact readsIn_failAt ht

end Steps

/-! ### Expressions -/

section Expressions

variable {P : Int → Prop} {ending : Ending} (hending : ending.At P) {expr : Parser Node}

include hending

theorem readsIn_arguments (hexpr : expr.ReadsIn P (Node.LinesIn P)) {ts : List Token}
    (hts : TokensIn P ts) :
    ReadsIn P (∀ n ∈ ·, Node.LinesIn P n) (erase (arguments ending expr ts)) := by
  rw [erase_arguments]
  refine (hexpr _ hts.skipNewlines).bind fun arg behind hread harg hbehind => ?_
  refine (readsIn_expect hending _ _ hbehind.skipNewlines).bind fun close rest hclose _ hrest => ?_
  have hshorter : rest.length < ts.length :=
    calc rest.length < (skipNewlines behind).length := erase_shorter hclose
      _ ≤ behind.length := length_skipNewlines_le behind
      _ < (skipNewlines ts).length := erase_shorter hread
      _ ≤ ts.length := length_skipNewlines_le ts
  split
  · refine (readsIn_arguments hexpr hrest).bind fun more left _ hmore hleft => ?_
    exact .ok (List.forall_mem_cons.mpr ⟨harg, hmore⟩) hleft
  · exact .ok (List.forall_mem_singleton.mpr harg) hrest
termination_by ts.length

theorem readsIn_argumentList (hexpr : expr.ReadsIn P (Node.LinesIn P)) :
    (argumentList ending expr).ReadsIn P (∀ n ∈ ·, Node.LinesIn P n) := by
  intro ts hts
  rw [erase_argumentList]
  refine .accept hending hts.skipNewlines (readsIn_arguments hending hexpr hts)
    fun close rest _ _ hrest => ?_
  exact .ok (List.forall_mem_nil _) hrest

theorem readsIn_propertyChain (hexpr : expr.ReadsIn P (Node.LinesIn P)) {object : Node}
    (hobject : object.LinesIn P) {ts : List Token} (hts : TokensIn P ts) :
    ReadsIn P (Node.LinesIn P) (erase (propertyChain ending expr object ts)) := by
  rw [erase_propertyChain]
  refine .accept hending hts (.ok hobject hts) fun dot behind hcut _ hbehind => ?_
  refine (readsIn_expect hending _ _ hbehind).bind fun name rest hread hname hrest => ?_
  have hshorter : rest.length < ts.length := by
    have hname : rest.length < behind.length := erase_shorter hread
    rw [hcut, List.length_cons]
    omega
  -- A property and a method call have the line of the name, not that of the object in front.
  refine .accept hending hrest ?_ fun paren inner hparen _ hinner => ?_
  · have hnode : (Node.property object name.text name.line).LinesIn P :=
      Node.every_unary hname rfl hobject
    exact readsIn_propertyChain hexpr hnode hrest
  · have hlist := readsIn_argumentList hending hexpr inner hinner
    refine hlist.bind fun args left hread hargs hleft => ?_
    have hshorter' : left.length < ts.length := by
      have hargs : left.length < inner.length := erase_shorter hread
      have hcut' : rest.length = inner.length + 1 := congrArg List.length hparen
      omega
    have hnode : (Node.methodCall object name.text args name.line).LinesIn P :=
      Node.every_cons hname rfl hobject hargs
    exact readsIn_propertyChain hexpr hnode hleft
termination_by ts.length

theorem readsIn_recordBody (hexpr : expr.ReadsIn P (Node.LinesIn P)) {ts : List Token}
    (hts : TokensIn P ts) :
    ReadsIn P (∀ p ∈ ·, Node.LinesIn P p.2) (erase (recordBody ending expr ts)) := by
  rw [erase_recordBody]
  refine (readsIn_expect hending _ _ hts.skipNewlines).bind fun first behind hfirst _ hbehind => ?_
  split
  · exact .ok (List.forall_mem_nil _) hbehind
  · refine (readsIn_expect hending _ _ hbehind).bind fun colon afterColon hcolon _ hafter => ?_
    refine (hexpr _ hafter.skipNewlines).bind fun value afterValue hread hvalue hleft => ?_
    refine (readsIn_expect hending _ _ hleft.skipNewlines).bind fun close rest hclose _ hrest => ?_
    have hshorter : rest.length < ts.length :=
      calc rest.length < (skipNewlines afterValue).length := erase_shorter hclose
        _ ≤ afterValue.length := length_skipNewlines_le afterValue
        _ < (skipNewlines afterColon).length := erase_shorter hread
        _ ≤ afterColon.length := length_skipNewlines_le afterColon
        _ < behind.length := erase_shorter hcolon
        _ < (skipNewlines ts).length := erase_shorter hfirst
        _ ≤ ts.length := length_skipNewlines_le ts
    split
    · refine (readsIn_recordBody hexpr hrest).bind fun more left _ hmore hleft => ?_
      exact .ok (List.forall_mem_cons.mpr ⟨hvalue, hmore⟩) hleft
    · exact .ok (List.forall_mem_singleton.mpr hvalue) hrest
termination_by ts.length

omit hending in
theorem linesIn_literalOf? {t : Token} {n : Node} (ht : P t.line) (h : literalOf? t = some n) :
    n.LinesIn P := by
  unfold literalOf? at h
  split at h <;> cases h <;> exact Node.every_leaf ht rfl

theorem readsIn_term (hexpr : expr.ReadsIn P (Node.LinesIn P)) :
    (term ending expr).ReadsIn P (Node.LinesIn P) := by
  intro ts hts
  -- The node is on the line of the first token. Where that begins no operand, the step fails there.
  by_cases hstart : ∃ t us, ts = t :: us ∧ startsTerm t.kind = true
  · obtain ⟨t, rest, rfl, ht⟩ := hstart
    have hline : P t.line := hts t List.mem_cons_self
    have hrest : TokensIn P rest := fun u hu => hts u (List.mem_cons_of_mem t hu)
    rcases startsTerm_cases ht with ⟨n, hn⟩ | hbrace | hname
    · rw [erase_term_literal hn]
      exact .ok (linesIn_literalOf? hline hn) hrest
    · rw [erase_term_leftBrace hbrace]
      refine (readsIn_recordBody hending hexpr hrest).bind fun ps left _ hps hleft => ?_
      exact .ok (.intro hline (List.forall_mem_map.mpr hps)) hleft
    · rw [erase_term_identifier hname]
      refine .accept hending hrest ?_ fun paren inner _ _ hinner => ?_
      · have hnode : (Node.identifier t.text t.line).LinesIn P := Node.every_leaf hline rfl
        exact readsIn_propertyChain hending hexpr hnode hrest
      · have hlist := readsIn_argumentList hending hexpr inner hinner
        refine hlist.bind fun args left _ hargs hleft => ?_
        have hnode : (Node.call t.text args t.line).LinesIn P := .intro hline hargs
        exact readsIn_propertyChain hending hexpr hnode hleft
  · have hother : ∀ t us, ts = t :: us → startsTerm t.kind = false := fun t us hcut =>
      Bool.eq_false_iff.mpr fun ht => hstart ⟨t, us, hcut, ht⟩
    rw [erase_term_other hother]
    exact .peek hending hts fun t ht => readsIn_failAt ht

theorem readsIn_sumChain {operandStep : Parser Node}
    (hoperand : operandStep.ReadsIn P (Node.LinesIn P)) {left : Node} (hleft : left.LinesIn P)
    {ts : List Token} (hts : TokensIn P ts) :
    ReadsIn P (Node.LinesIn P) (erase (sumChain ending operandStep left ts)) := by
  rw [erase_sumChain]
  refine .accept hending hts (.ok hleft hts) fun sign behind hcut hsign hbehind => ?_
  refine (hoperand behind hbehind).bind fun right rest hread hright hrest => ?_
  have hshorter : rest.length < ts.length := by
    have hright : rest.length < behind.length := erase_shorter hread
    rw [hcut, List.length_cons]
    omega
  exact readsIn_sumChain hoperand (Node.every_binary hsign hleft hright) hrest
termination_by ts.length

theorem readsIn_sum {operandStep : Parser Node}
    (hoperand : operandStep.ReadsIn P (Node.LinesIn P)) :
    (sum ending operandStep).ReadsIn P (Node.LinesIn P) := by
  intro ts hts
  rw [erase_sum]
  exact (hoperand ts hts).bind fun first rest _ hfirst hrest =>
    readsIn_sumChain hending hoperand hfirst hrest

theorem readsIn_operand (levels : Nat) : (operand ending levels).ReadsIn P (Node.LinesIn P) := by
  induction levels with
  | zero => exact fun ts _ => .failed trivial
  | succ levels ih =>
    intro ts hts
    rw [erase_operand_succ]
    refine .accept hending hts (readsIn_term hending (readsIn_sum hending ih) ts hts)
      fun sign rest _ hsign hrest => ?_
    refine (ih rest hrest).bind fun inner left _ hinner hleft => ?_
    -- A sign is read as a subtraction from a zero that has the line of the sign.
    exact .ok (Node.every_binary hsign (Node.every_leaf hsign rfl) hinner) hleft

theorem readsIn_expression (levels : Nat) : (expression ending levels).ReadsIn P (Node.LinesIn P) :=
  readsIn_sum hending (readsIn_operand hending levels)

end Expressions

/-! ### Statements -/

section Statements

variable {P : Int → Prop} {ending : Ending} (hending : ending.At P) {expr stmt : Parser Node}
  {word : Token}

include hending

theorem readsIn_ended (hstmt : stmt.ReadsIn P (Node.LinesIn P)) :
    (ended ending stmt).ReadsIn P (Node.LinesIn P) := by
  intro ts hts
  rw [erase_ended]
  refine (hstmt ts hts).bind fun node rest _ hnode hrest => .peek hending hrest fun t ht => ?_
  split
  · exact .ok hnode hrest
  · exact readsIn_failAt ht

theorem readsIn_bodyStatements (hstmt : stmt.ReadsIn P (Node.LinesIn P)) (openLine : Int)
    {ts : List Token} (hts : TokensIn P ts) :
    ReadsIn P (∀ n ∈ ·, Node.LinesIn P n) (erase (bodyStatements ending stmt openLine ts)) := by
  rw [erase_bodyStatements]
  refine .accept hending hts.skipSeparators (.peek hending hts.skipSeparators fun t ht => ?_)
    fun close rest _ _ hrest => .ok (List.forall_mem_nil _) hrest
  -- A body that is not closed is reported at the end of the text, whatever line it was opened at.
  split
  · exact readsIn_failAt ht
  · have hended := readsIn_ended hending hstmt _ hts.skipSeparators
    refine hended.bind fun node rest hread hnode hrest => ?_
    have hshorter : rest.length < ts.length := ended_shorter hread
    refine (readsIn_bodyStatements hstmt openLine hrest).bind fun more left _ hmore hleft => ?_
    exact .ok (List.forall_mem_cons.mpr ⟨hnode, hmore⟩) hleft
termination_by ts.length

theorem readsIn_body (hstmt : stmt.ReadsIn P (Node.LinesIn P)) :
    (body ending stmt).ReadsIn P (∀ n ∈ ·, Node.LinesIn P n) := by
  intro ts hts
  rw [erase_body]
  exact (readsIn_expect hending _ _ hts).bind fun brace rest _ _ hrest =>
    readsIn_bodyStatements hending hstmt _ hrest

theorem readsIn_parameters {ts : List Token} (hts : TokensIn P ts) :
    ReadsIn P (fun _ => True) (erase (parameters ending ts)) := by
  rw [erase_parameters]
  refine (readsIn_expect hending _ _ hts).bind fun name behind hname _ hbehind => ?_
  refine .accept hending hbehind (.ok trivial hbehind) fun comma rest hcomma _ hrest => ?_
  have hshorter : rest.length < ts.length := by
    have hname : behind.length < ts.length := erase_shorter hname
    have hcut : behind.length = rest.length + 1 := congrArg List.length hcomma
    omega
  exact (readsIn_parameters hrest).bind fun more left _ _ hleft => .ok trivial hleft
termination_by ts.length

theorem readsIn_parameterList : (parameterList ending).ReadsIn P fun _ => True := by
  intro ts hts
  rw [erase_parameterList]
  refine .accept hending hts ?_ fun close rest _ _ hrest => .ok trivial hrest
  refine (readsIn_parameters hending hts).bind fun names behind _ _ hbehind => ?_
  exact (readsIn_expect hending _ _ hbehind).bind fun close rest _ _ hrest => .ok trivial hrest

theorem readsIn_condition (hexpr : expr.ReadsIn P (Node.LinesIn P)) {line : Int} (hline : P line) :
    (condition ending expr line).ReadsIn P (Node.LinesIn P) := by
  intro ts hts
  rw [erase_condition]
  refine (hexpr ts hts).bind fun left behind _ hleft hbehind => ?_
  refine .accept hending hbehind (.ok (Node.every_unary hline rfl hleft) hbehind)
    fun sign rest _ _ hrest => ?_
  refine (hexpr rest hrest).bind fun right after _ hright hafter => ?_
  exact .ok (Node.every_binary hline hleft hright) hafter

section Words

variable (hword : P word.line)

include hword

theorem readsIn_letStatement (hexpr : expr.ReadsIn P (Node.LinesIn P)) :
    (letStatement ending expr word).ReadsIn P (Node.LinesIn P) := by
  intro ts hts
  rw [erase_letStatement]
  refine (readsIn_expect hending _ _ hts).bind fun name behind _ _ hbehind => ?_
  refine (readsIn_expect hending _ _ hbehind).bind fun sign rest _ _ hrest => ?_
  refine (hexpr rest hrest).bind fun value left _ hvalue hleft => ?_
  exact .ok (Node.every_unary hword rfl hvalue) hleft

theorem readsIn_importStatement : (importStatement ending word).ReadsIn P (Node.LinesIn P) := by
  intro ts hts
  rw [erase_importStatement]
  refine (readsIn_expect hending _ _ hts).bind fun target behind _ _ hbehind => ?_
  refine .accept hending hbehind (.ok (Node.every_leaf hword rfl) hbehind)
    fun asWord rest _ _ hrest => ?_
  refine (readsIn_expect hending _ _ hrest).bind fun chosen left _ _ hleft => ?_
  exact .ok (Node.every_leaf hword rfl) hleft

theorem readsIn_functionStatement (hstmt : stmt.ReadsIn P (Node.LinesIn P)) :
    (functionStatement ending stmt word).ReadsIn P (Node.LinesIn P) := by
  intro ts hts
  rw [erase_functionStatement]
  refine (readsIn_expect hending _ _ hts).bind fun name behind _ _ hbehind => ?_
  refine (readsIn_expect hending _ _ hbehind).bind fun paren rest _ _ hrest => ?_
  refine (readsIn_parameterList hending rest hrest).bind fun params after _ _ hafter => ?_
  refine (readsIn_body hending hstmt after hafter).bind fun statements left _ hbody hleft => ?_
  exact .ok (.intro hword hbody) hleft

theorem readsIn_ifStatement (hexpr : expr.ReadsIn P (Node.LinesIn P))
    (hstmt : stmt.ReadsIn P (Node.LinesIn P)) :
    (ifStatement ending expr stmt word).ReadsIn P (Node.LinesIn P) := by
  intro ts hts
  rw [erase_ifStatement]
  refine (readsIn_condition hending hexpr hword ts hts).bind fun test behind _ htest hbehind => ?_
  refine (readsIn_body hending hstmt behind hbehind).bind fun statements left _ hbody hleft => ?_
  exact .ok (Node.every_cons hword rfl htest hbody) hleft

theorem readsIn_returnStatement (hexpr : expr.ReadsIn P (Node.LinesIn P)) (inFunction : Bool)
    {ts : List Token} (hts : TokensIn P ts) :
    ReadsIn P (Node.LinesIn P) (erase (returnStatement ending expr inFunction word ts)) := by
  rw [erase_returnStatement]
  split
  · exact readsIn_failAt hword
  · refine .peek hending hts fun t _ => ?_
    split
    · exact .ok (Node.every_leaf hword rfl) hts
    · refine (hexpr ts hts).bind fun value left _ hvalue hleft => ?_
      exact .ok (Node.every_unary hword rfl hvalue) hleft

end Words

theorem readsIn_statement (levels : Nat) (inFunction : Bool) :
    (statement ending levels inFunction).ReadsIn P (Node.LinesIn P) := by
  induction levels generalizing inFunction with
  | zero =>
    -- A text that is too deeply nested ends the reading with a crash, which has no line.
    exact fun ts _ => .failed trivial
  | succ levels ih =>
    intro ts hts
    have hexpr := readsIn_expression hending levels
    rw [erase_statement_succ]
    refine .accept hending hts (hexpr ts hts) fun word rest _ hword hrest => ?_
    simp only [statementBehind]
    split
    · exact readsIn_letStatement hending hword hexpr rest hrest
    · exact readsIn_importStatement hending hword rest hrest
    · exact readsIn_functionStatement hending hword (ih true) rest hrest
    · exact readsIn_ifStatement hending hword hexpr (ih inFunction) rest hrest
    · exact readsIn_returnStatement hending hword hexpr inFunction hrest

/-- The statements of a program stand at the given lines, and the failure behind them does. -/
theorem programStatements_lines (levels : Nat) {ts : List Token} (hts : TokensIn P ts) :
    (∀ n ∈ (programStatements ending levels ts).statements, n.LinesIn P) ∧
      ∀ failure, (programStatements ending levels ts).failure = some failure → failure.At P := by
  have hnone : ∀ n ∈ ([] : List Node), n.LinesIn P := List.forall_mem_nil _
  have hended := readsIn_ended hending (readsIn_statement hending levels false) _ hts.skipSeparators
  rw [programStatements_eq]
  cases hpeek : peek ending (skipSeparators ts) with
  | error failure => exact ⟨hnone, fun _ h => Option.some.inj h ▸ at_of_peek hending hpeek⟩
  | ok t =>
    simp only
    split
    · exact ⟨hnone, fun _ h => absurd h (by simp)⟩
    · split
      · exact ⟨hnone, fun _ h => Option.some.inj h ▸ line_of_peek hending hts.skipSeparators hpeek⟩
      · cases hread : erase (ended ending (statement ending levels false) (skipSeparators ts)) with
        | error failure =>
          rw [hread] at hended
          cases hended with
          | failed hfailure => exact ⟨hnone, fun _ h => Option.some.inj h ▸ hfailure⟩
        | ok node =>
          rw [hread] at hended
          cases hended with
          | @ok n rest hn hrest =>
            have hshorter : rest.length < ts.length := ended_shorter hread
            obtain ⟨hmore, hfailure⟩ := programStatements_lines levels hrest
            exact ⟨List.forall_mem_cons.mpr ⟨hn, hmore⟩, hfailure⟩
termination_by ts.length

end Statements

/-! ### Texts -/

theorem integerDefect?_at {digits : List Char} {line : Int} {failure : Failure}
    (h : integerDefect? digits line = some failure) : failure.At (· = line) := by
  unfold integerDefect? at h
  split at h
  · cases h
    trivial
  · split at h <;> cases h
    rfl

/-- A line that cannot be read is reported itself. -/
theorem lexLine_at (line : Int) (cs : List Char) {failure : Failure}
    (h : (lexLine line cs).2 = some failure) : failure.At (· = line) := by
  fun_induction lexLine line cs with
  | case1 => cases h
  | case2 c tail hgap ih => exact ih h
  | case3 c tail hgap text rest whole nonempty hscan _ ih => exact ih h
  | case4 | case5 =>
    cases h
    rfl
  | case6 c tail hgap kind text rest whole nonempty hscan defect hdefect =>
    cases h
    split at hdefect
    · exact integerDefect?_at hdefect
    · cases hdefect
  | case7 c tail hgap kind text rest whole nonempty hscan hdefect _ tokens failure hrest ih =>
    rw [hrest] at ih
    exact ih h

theorem lineTokens_lines {P : Int → Prop} {line : Int} (hline : P line)
    (tokens : List (TokenKind × String)) : TokensIn P (lineTokens line tokens) := by
  intro t ht
  rcases List.mem_append.mp ht with ht | ht
  · obtain ⟨spelled, -, rfl⟩ := List.mem_map.mp ht
    exact hline
  · rw [List.mem_singleton.mp ht]
    exact hline

/-- A failure to read some lines is reported at one of these lines, unless it is a comment that was
open before them. -/
theorem tokenizeLines_at {P : Int → Prop} {line : Int} {since : Option Int}
    {ls : List (List Char)} (hlines : ∀ l, line ≤ l → l < line + ls.length → P l)
    (hsince : ∀ start ∈ since, P start) {failure : Failure}
    (h : (tokenizeLines line since ls).2 = some failure) : failure.At P := by
  -- The first line is one of the given ones, and the ones behind it are as well.
  have hsplit : ∀ {line : Int} {cs : List Char} {rest : List (List Char)},
      (∀ l, line ≤ l → l < line + (cs :: rest).length → P l) →
        P line ∧ ∀ l, line + 1 ≤ l → l < line + 1 + rest.length → P l := by
    intro line cs rest h
    simp only [List.length_cons] at h
    exact ⟨h line (Int.le_refl line) (by omega), fun l hle hlt => h l (by omega) (by omega)⟩
  fun_induction tokenizeLines line since ls with
  | case1 line since =>
    obtain ⟨start, hstart, rfl⟩ := Option.map_eq_some_iff.mp h
    exact hsince start hstart
  | case2 line since cs rest visible? hidden ih => exact ih (hsplit hlines).2 hsince h
  | case3 line since cs rest visible? visible hvisible tokens hlex more _ hmore ih =>
    rw [hmore] at ih
    exact ih (hsplit hlines).2 (by simp) h
  | case4 line since cs rest visible? visible hvisible tokens l hlex more _ hmore ih =>
    obtain ⟨hline, hrest⟩ := hsplit hlines
    rw [hmore] at ih
    exact ih hrest (by simpa using hline) h
  | case5 line since cs rest visible? visible hvisible tokens own hrunsOn hlex =>
    have hown : own.At (· = line) := lexLine_at line visible (congrArg Prod.snd hlex)
    cases h
    refine hown.mono ?_
    rintro _ rfl
    exact (hsplit hlines).1

/-- Whether a line, counted from one, is one of a text. -/
def IsLineOf (source : String) (line : Int) : Prop :=
  1 ≤ line ∧ line ≤ (Text.lines source.toList).length

/-- The nodes of a program stand at its lines, and a failure to read it is reported at one. -/
theorem parse_lines [Host.Limits] (source : String) :
    (∀ n ∈ (parse source).statements, n.LinesIn (IsLineOf source)) ∧
      ∀ failure, (parse source).failure = some failure → failure.At (IsLineOf source) := by
  have htokens : TokensIn (IsLineOf source) (tokenize source).1 := by
    intro t ht
    obtain ⟨l, visible, hle, hlt, hmem⟩ := exists_line_of_mem_tokenizeLines ht
    exact lineTokens_lines ⟨hle, by omega⟩ _ t hmem
  have hfailure : ∀ failure, (tokenize source).2 = some failure → failure.At (IsLineOf source) :=
    fun failure h => tokenizeLines_at (fun l hle hlt => ⟨hle, by omega⟩) (by simp) h
  refine programStatements_lines ?_ stackLimit htokens
  split
  · next failure hfails => exact hfailure failure hfails
  · next hends =>
    -- The text was read to its end, so its last token is the end of a line.
    obtain ⟨us, last, hlast, -⟩ : EndsLine (tokenize source).1 :=
      tokenizeLines_endsLine hends (.inr (Text.lines_ne_nil _))
    have hline : IsLineOf source last.line := htokens last (by simp [hlast])
    change IsLineOf source (((tokenize source).1.getLast?.map Token.line).getD 0)
    simpa [hlast] using hline

end Source

end ModuLang
