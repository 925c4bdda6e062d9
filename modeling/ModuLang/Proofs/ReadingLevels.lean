import ModuLang.Proofs.JsonText
import ModuLang.Proofs.ParserSoundness
import ModuLang.Proofs.TokenLines

/-!
# How many levels reading needs

The parser and the reader of documents follow a nesting only as far as the host can. But every level
of a nesting begins with a token or a character of its own, so a text is never nested deeper than it
is long: with more levels than that, reading never comes to the end of its levels, and all such
numbers of levels give the same program or the same document.

Two steps that are given different numbers of levels are compared. `Alike` says of their results that
they are the same, and that the levels did not run out. A step that uses a token before it takes
another one gives that one fewer tokens, and this pays for the level that the other one lacks.
-/

namespace ModuLang

/-- Whether two computations end in the same way, and not with the given error. -/
structure SameBut {ε α : Type} (e : ε) (x y : Except ε α) : Prop where
  eq : x = y
  follows : x ≠ .error e

section SameBut

variable {ε α β : Type} {e : ε}

theorem sameBut_ok (a : α) : SameBut e (.ok a) (.ok a) :=
  ⟨rfl, by simp⟩

theorem SameBut.bind {x y : Except ε α} {f g : α → Except ε β} (h : SameBut e x y)
    (hrest : ∀ a, x = .ok a → SameBut e (f a) (g a)) : SameBut e (x >>= f) (y >>= g) := by
  obtain ⟨rfl, hfollows⟩ := h
  cases x with
  | ok a => exact hrest a rfl
  | error e' => exact ⟨rfl, fun heq => hfollows (congrArg Except.error (Except.error.inj heq))⟩

end SameBut

namespace Source

variable {α β : Type} {n : Nat} {ending : Ending} {ts : List Token}

/-- Whether two ways to read end in the same way, and not because the host could not follow. -/
abbrev Alike (x y : Except Failure α) : Prop :=
  SameBut (.crash .stackOverflow) x y

/-- Whether two steps end in the same way where there are fewer tokens than the given number. -/
def Parser.AlikeBelow (n : Nat) (step step' : Parser α) : Prop :=
  ∀ ts, ts.length < n → Alike (erase (step ts)) (erase (step' ts))

theorem Parser.AlikeBelow.mono {k : Nat} {step step' : Parser α} (h : step.AlikeBelow n step')
    (hle : k ≤ n) : step.AlikeBelow k step' :=
  fun ts hts => h ts (Nat.lt_of_lt_of_le hts hle)

/-- Whether the end of a text is not there because the host could not follow. -/
def Ending.Follows (ending : Ending) : Prop :=
  ending ≠ .failed (.crash .stackOverflow)

/-! ### The next token -/

section Steps

theorem alike_failAt (cause : Cause) (line : Int) :
    Alike (failAt cause line : Except Failure α) (failAt cause line) :=
  ⟨rfl, by simp [failAt]⟩

/-- What follows a step that ends in the same way where there are so few tokens. -/
theorem Alike.step {step step' : Parser α} {f g : α × List Token → Except Failure β}
    (h : step.AlikeBelow n step') (hts : ts.length < n)
    (hrest : ∀ r : α × List Token, r.2.length < ts.length → Alike (f r) (g r)) :
    Alike (erase (step ts) >>= f) (erase (step' ts) >>= g) :=
  (h ts hts).bind fun r hread => hrest r (erase_shorter hread)

variable (hending : ending.Follows)

include hending

theorem alike_peek (ts : List Token) : Alike (peek ending ts) (peek ending ts) := by
  refine ⟨rfl, fun heq => ?_⟩
  cases ts with
  | cons t rest => cases heq
  | nil =>
    cases ending with
    | endOfText line => cases heq
    | failed failure =>
      cases heq
      exact hending rfl

/-- What follows a look at the next token. -/
theorem Alike.peek {f g : Token → Except Failure β} (h : ∀ t, Alike (f t) (g t)) :
    Alike (Source.peek ending ts >>= f) (Source.peek ending ts >>= g) :=
  (alike_peek hending ts).bind fun t _ => h t

/-- What follows the use of a token that need not be there. -/
theorem Alike.accept {wanted : TokenKind → Bool}
    {f g : Option (Token × List Token) → Except Failure β} (hnone : Alike (f none) (g none))
    (hsome : ∀ t : Token × List Token, t.2.length < ts.length → Alike (f (some t)) (g (some t))) :
    Alike (eraseOption (accept ending wanted ts) >>= f)
      (eraseOption (accept ending wanted ts) >>= g) := by
  cases ts with
  | nil =>
    rw [eraseOption_accept_nil]
    cases ending with
    | endOfText line => exact hnone
    | failed failure => exact ⟨rfl, fun heq => hending (by cases heq; rfl)⟩
  | cons t rest =>
    rw [eraseOption_accept_cons]
    split
    · exact hsome (t, rest) (Nat.lt_succ_self _)
    · exact hnone

theorem alike_expect (wanted : TokenKind → Bool) (what : Expectation) (ts : List Token) :
    Alike (erase (expect ending wanted what ts)) (erase (expect ending wanted what ts)) := by
  cases ts with
  | nil =>
    rw [erase_expect_nil]
    exact .peek hending fun t => alike_failAt _ _
  | cons t rest =>
    rw [erase_expect_cons]
    split
    · exact sameBut_ok _
    · exact alike_failAt _ _

/-- What follows the use of a token that has to be there. -/
theorem Alike.expect {wanted : TokenKind → Bool} {what : Expectation}
    {f g : Token × List Token → Except Failure β}
    (h : ∀ t : Token × List Token, t.2.length < ts.length → Alike (f t) (g t)) :
    Alike (erase (expect ending wanted what ts) >>= f)
      (erase (expect ending wanted what ts) >>= g) :=
  (alike_expect hending wanted what ts).bind fun t hread => h t (erase_shorter hread)

end Steps

/-! ### Expressions -/

section Expressions

variable {expr expr' : Parser Node} (hending : ending.Follows)

include hending

theorem alike_arguments (hexpr : expr.AlikeBelow n expr') {ts : List Token} (hts : ts.length < n) :
    Alike (erase (arguments ending expr ts)) (erase (arguments ending expr' ts)) := by
  have hskip := length_skipNewlines_le ts
  rw [erase_arguments, erase_arguments]
  refine .step hexpr (by omega) fun arg harg => ?_
  have hskip' := length_skipNewlines_le arg.2
  refine .expect hending fun close hclose => ?_
  have hshorter : close.2.length < ts.length := by omega
  split
  · exact (alike_arguments hexpr (by omega)).bind fun more _ => sameBut_ok _
  · exact sameBut_ok _
termination_by ts.length

theorem alike_argumentList (hexpr : expr.AlikeBelow n expr') :
    (argumentList ending expr).AlikeBelow n (argumentList ending expr') := by
  intro ts hts
  rw [erase_argumentList, erase_argumentList]
  exact .accept hending (alike_arguments hending hexpr hts) fun close _ => sameBut_ok _

theorem alike_propertyChain (hexpr : expr.AlikeBelow n expr') (object : Node) {ts : List Token}
    (hts : ts.length < n) :
    Alike (erase (propertyChain ending expr object ts))
      (erase (propertyChain ending expr' object ts)) := by
  rw [erase_propertyChain, erase_propertyChain]
  refine .accept hending (sameBut_ok _) fun dot hdot => .expect hending fun name hname => ?_
  have hshorter : name.2.length < ts.length := by omega
  refine .accept hending (alike_propertyChain hexpr _ (by omega)) fun paren hparen => ?_
  refine .step (alike_argumentList hending hexpr) (by omega) fun args hargs => ?_
  exact alike_propertyChain hexpr _ (by omega)
termination_by ts.length

theorem alike_recordBody (hexpr : expr.AlikeBelow n expr') {ts : List Token} (hts : ts.length < n) :
    Alike (erase (recordBody ending expr ts)) (erase (recordBody ending expr' ts)) := by
  have hskip := length_skipNewlines_le ts
  rw [erase_recordBody, erase_recordBody]
  refine .expect hending fun first hfirst => ?_
  split
  · exact sameBut_ok _
  · refine .expect hending fun colon hcolon => ?_
    have hskip' := length_skipNewlines_le colon.2
    refine .step hexpr (by omega) fun value hvalue => ?_
    have hskip'' := length_skipNewlines_le value.2
    refine .expect hending fun close hclose => ?_
    have hshorter : close.2.length < ts.length := by omega
    split
    · exact (alike_recordBody hexpr (by omega)).bind fun more _ => sameBut_ok _
    · exact sameBut_ok _
termination_by ts.length

/-- An operand begins with a token, behind which there is one fewer. -/
theorem alike_term (hexpr : expr.AlikeBelow n expr') :
    (term ending expr).AlikeBelow (n + 1) (term ending expr') := by
  intro ts hts
  by_cases hstart : ∃ t us, ts = t :: us ∧ startsTerm t.kind = true
  · obtain ⟨t, rest, rfl, ht⟩ := hstart
    have hrest : rest.length < n := Nat.lt_of_succ_lt_succ hts
    rcases startsTerm_cases ht with ⟨m, hm⟩ | hbrace | hname
    · rw [erase_term_literal hm, erase_term_literal hm]
      exact sameBut_ok _
    · rw [erase_term_leftBrace hbrace, erase_term_leftBrace hbrace]
      exact (alike_recordBody hending hexpr hrest).bind fun ps _ => sameBut_ok _
    · rw [erase_term_identifier hname, erase_term_identifier hname]
      refine .accept hending (alike_propertyChain hending hexpr _ hrest) fun paren hparen => ?_
      refine .step (alike_argumentList hending hexpr) (by omega) fun args hargs => ?_
      exact alike_propertyChain hending hexpr _ (by omega)
  · have hother : ∀ t us, ts = t :: us → startsTerm t.kind = false := fun t us hcut =>
      Bool.eq_false_iff.mpr fun ht => hstart ⟨t, us, hcut, ht⟩
    rw [erase_term_other hother, erase_term_other hother]
    exact .peek hending fun t => alike_failAt _ _

theorem alike_sumChain (hexpr : expr.AlikeBelow n expr') (left : Node) {ts : List Token}
    (hts : ts.length < n) :
    Alike (erase (sumChain ending expr left ts)) (erase (sumChain ending expr' left ts)) := by
  rw [erase_sumChain, erase_sumChain]
  refine .accept hending (sameBut_ok _) fun sign hsign => ?_
  refine .step hexpr (by omega) fun right hright => ?_
  have hshorter : right.2.length < ts.length := by omega
  exact alike_sumChain hexpr _ (by omega)
termination_by ts.length

theorem alike_sum (hexpr : expr.AlikeBelow n expr') :
    (sum ending expr).AlikeBelow n (sum ending expr') := by
  intro ts hts
  rw [erase_sum, erase_sum]
  exact .step hexpr hts fun first hfirst => alike_sumChain hending hexpr _ (by omega)

theorem alike_operand {levels levels' : Nat} (h : n ≤ levels) (h' : n ≤ levels') :
    (operand ending levels).AlikeBelow n (operand ending levels') := by
  induction n generalizing levels levels' with
  | zero => exact fun ts hts => absurd hts (Nat.not_lt_zero _)
  | succ n ih =>
    obtain ⟨k, rfl⟩ : ∃ k, levels = k + 1 := ⟨levels - 1, by omega⟩
    obtain ⟨k', rfl⟩ : ∃ k, levels' = k + 1 := ⟨levels' - 1, by omega⟩
    have hinner : (operand ending k).AlikeBelow n (operand ending k') := ih (by omega) (by omega)
    intro ts hts
    rw [erase_operand_succ, erase_operand_succ]
    refine .accept hending (alike_term hending (alike_sum hending hinner) ts hts)
      fun sign hsign => ?_
    exact .step hinner (by omega) fun inner _ => sameBut_ok _

theorem alike_expression {levels levels' : Nat} (h : n ≤ levels) (h' : n ≤ levels') :
    (expression ending levels).AlikeBelow n (expression ending levels') :=
  alike_sum hending (alike_operand hending h h')

end Expressions

/-! ### Statements -/

section Statements

variable {expr expr' stmt stmt' : Parser Node} (hending : ending.Follows)

include hending

theorem alike_ended (hstmt : stmt.AlikeBelow n stmt') :
    (ended ending stmt).AlikeBelow n (ended ending stmt') := by
  intro ts hts
  rw [erase_ended, erase_ended]
  refine .step hstmt hts fun node _ => .peek hending fun t => ?_
  split
  · exact sameBut_ok _
  · exact alike_failAt _ _

theorem alike_bodyStatements (hstmt : stmt.AlikeBelow n stmt') (openLine : Int) {ts : List Token}
    (hts : ts.length < n) :
    Alike (erase (bodyStatements ending stmt openLine ts))
      (erase (bodyStatements ending stmt' openLine ts)) := by
  have hskip := length_skipSeparators_le ts
  rw [erase_bodyStatements, erase_bodyStatements]
  refine .accept hending (.peek hending fun t => ?_) fun close _ => sameBut_ok _
  split
  · exact alike_failAt _ _
  · refine .step (alike_ended hending hstmt) (by omega) fun node hnode => ?_
    have hshorter : node.2.length < ts.length := by omega
    exact (alike_bodyStatements hstmt openLine (by omega)).bind fun more _ => sameBut_ok _
termination_by ts.length

theorem alike_body (hstmt : stmt.AlikeBelow n stmt') :
    (body ending stmt).AlikeBelow n (body ending stmt') := by
  intro ts hts
  rw [erase_body, erase_body]
  exact .expect hending fun brace hbrace =>
    alike_bodyStatements hending hstmt _ (by omega)

theorem alike_letStatement (hexpr : expr.AlikeBelow n expr') (word : Token) :
    (letStatement ending expr word).AlikeBelow n (letStatement ending expr' word) := by
  intro ts hts
  rw [erase_letStatement, erase_letStatement]
  refine .expect hending fun name hname => .expect hending fun sign hsign => ?_
  exact .step hexpr (by omega) fun value _ => sameBut_ok _

theorem alike_importStatement (word : Token) :
    (importStatement ending word).AlikeBelow n (importStatement ending word) := by
  intro ts hts
  rw [erase_importStatement]
  refine .expect hending fun target _ => .accept hending (sameBut_ok _) fun asWord _ => ?_
  exact .expect hending fun chosen _ => sameBut_ok _

theorem alike_parameters (ts : List Token) :
    Alike (erase (parameters ending ts)) (erase (parameters ending ts)) := by
  rw [erase_parameters]
  refine .expect hending fun name hname => .accept hending (sameBut_ok _) fun comma hcomma => ?_
  have hshorter : comma.2.length < ts.length := by omega
  exact (alike_parameters comma.2).bind fun more _ => sameBut_ok _
termination_by ts.length

theorem alike_parameterList : (parameterList ending).AlikeBelow n (parameterList ending) := by
  intro ts hts
  rw [erase_parameterList]
  refine .accept hending ?_ fun close _ => sameBut_ok _
  refine (alike_parameters hending ts).bind fun names _ => ?_
  exact Alike.expect hending fun close _ => sameBut_ok _

theorem alike_functionStatement (hstmt : stmt.AlikeBelow n stmt') (word : Token) :
    (functionStatement ending stmt word).AlikeBelow n (functionStatement ending stmt' word) := by
  intro ts hts
  rw [erase_functionStatement, erase_functionStatement]
  refine .expect hending fun name hname => .expect hending fun paren hparen => ?_
  have hparams : (parameterList ending).AlikeBelow n (parameterList ending) :=
    alike_parameterList hending
  refine .step hparams (by omega) fun params hparams => ?_
  exact .step (alike_body hending hstmt) (by omega) fun statements _ => sameBut_ok _

theorem alike_condition (hexpr : expr.AlikeBelow n expr') (line : Int) :
    (condition ending expr line).AlikeBelow n (condition ending expr' line) := by
  intro ts hts
  rw [erase_condition, erase_condition]
  refine .step hexpr hts fun left hleft => ?_
  refine .accept hending (sameBut_ok _) fun sign hsign => ?_
  exact .step hexpr (by omega) fun right _ => sameBut_ok _

theorem alike_ifStatement (hexpr : expr.AlikeBelow n expr') (hstmt : stmt.AlikeBelow n stmt')
    (word : Token) :
    (ifStatement ending expr stmt word).AlikeBelow n (ifStatement ending expr' stmt' word) := by
  intro ts hts
  rw [erase_ifStatement, erase_ifStatement]
  refine .step (alike_condition hending hexpr word.line) hts fun test htest => ?_
  exact .step (alike_body hending hstmt) (by omega) fun statements _ => sameBut_ok _

theorem alike_returnStatement (hexpr : expr.AlikeBelow n expr') (inFunction : Bool) (word : Token)
    (hts : ts.length < n) :
    Alike (erase (returnStatement ending expr inFunction word ts))
      (erase (returnStatement ending expr' inFunction word ts)) := by
  rw [erase_returnStatement, erase_returnStatement]
  split
  · exact alike_failAt _ _
  · refine .peek hending fun t => ?_
    split
    · exact sameBut_ok _
    · exact .step hexpr hts fun value _ => sameBut_ok _

/-- A statement may be an expression from its first token on, so it takes one level more. -/
theorem alike_statement {levels levels' : Nat} (h : n < levels) (h' : n < levels')
    (inFunction : Bool) :
    (statement ending levels inFunction).AlikeBelow n (statement ending levels' inFunction) := by
  induction n generalizing levels levels' inFunction with
  | zero => exact fun ts hts => absurd hts (Nat.not_lt_zero _)
  | succ n ih =>
    obtain ⟨k, rfl⟩ : ∃ k, levels = k + 1 := ⟨levels - 1, by omega⟩
    obtain ⟨k', rfl⟩ : ∃ k, levels' = k + 1 := ⟨levels' - 1, by omega⟩
    have hexpr : (expression ending k).AlikeBelow (n + 1) (expression ending k') :=
      alike_expression hending (by omega) (by omega)
    have hinner : ∀ inFunction, (statement ending k inFunction).AlikeBelow n
        (statement ending k' inFunction) := ih (by omega) (by omega)
    intro ts hts
    rw [erase_statement_succ, erase_statement_succ]
    refine .accept hending (hexpr ts hts) fun word hword => ?_
    have hrest : word.2.length < n := by omega
    have hexpr := hexpr.mono (Nat.le_succ n)
    simp only [statementBehind]
    split
    · exact alike_letStatement hending hexpr word.1 word.2 hrest
    · exact alike_importStatement hending word.1 word.2 hrest
    · exact alike_functionStatement hending (hinner true) word.1 word.2 hrest
    · exact alike_ifStatement hending hexpr (hinner inFunction) word.1 word.2 hrest
    · exact alike_returnStatement hending hexpr inFunction word.1 hrest

/-! ### Programs -/

/-- With more levels than tokens all numbers of levels give the same program, and it does not end
because the host could not follow. -/
theorem programStatements_levels {levels levels' : Nat} (ts : List Token)
    (h : ts.length + 1 < levels) (h' : ts.length + 1 < levels') :
    programStatements ending levels ts = programStatements ending levels' ts ∧
      (programStatements ending levels ts).failure ≠ some (.crash .stackOverflow) := by
  have hskip := length_skipSeparators_le ts
  have hpeek := alike_peek hending (skipSeparators ts)
  have hstatement : Alike (erase (ended ending (statement ending levels false) (skipSeparators ts)))
      (erase (ended ending (statement ending levels' false) (skipSeparators ts))) :=
    alike_ended hending (alike_statement hending h h' false) _ (by omega)
  rw [programStatements_eq levels, programStatements_eq levels']
  cases hnext : peek ending (skipSeparators ts) with
  | error failure =>
    refine ⟨rfl, fun heq => hpeek.follows ?_⟩
    rw [hnext, Option.some.inj heq]
  | ok t =>
    simp only
    rw [← hstatement.eq]
    split
    · exact ⟨rfl, by simp⟩
    · split
      · exact ⟨rfl, by simp⟩
      · cases hread : erase (ended ending (statement ending levels false) (skipSeparators ts)) with
        | error failure =>
          refine ⟨rfl, fun heq => hstatement.follows ?_⟩
          rw [hread, Option.some.inj heq]
        | ok node =>
          have hshorter : node.2.length < ts.length := ended_shorter hread
          have hrest : node.2.length + 1 < levels := by omega
          have hrest' : node.2.length + 1 < levels' := by omega
          obtain ⟨hsame, hfollows⟩ := programStatements_levels node.2 hrest hrest'
          simp only
          rw [hsame]
          exact ⟨rfl, hsame ▸ hfollows⟩
termination_by ts.length

end Statements

/-! ### Texts -/

theorem integerDefect?_follows (digits : List Char) (line : Int) :
    integerDefect? digits line ≠ some (.crash .stackOverflow) := by
  unfold integerDefect?
  split
  · simp
  · split <;> simp

theorem lexLine_follows (line : Int) (cs : List Char) :
    (lexLine line cs).2 ≠ some (.crash .stackOverflow) := by
  fun_induction lexLine line cs with
  | case1 | case4 | case5 => simp
  | case2 c tail hgap ih => exact ih
  | case3 c tail hgap text rest whole nonempty hscan _ ih => exact ih
  | case6 c tail hgap kind text rest whole nonempty hscan defect hdefect =>
    split at hdefect
    · exact hdefect ▸ integerDefect?_follows text line
    · cases hdefect
  | case7 c tail hgap kind text rest whole nonempty hscan hdefect _ tokens failure hrest ih =>
    rw [hrest] at ih
    exact ih

/-- Cutting a text into tokens does not go down into anything. -/
theorem tokenizeLines_follows (line : Int) (since : Option Int) (ls : List (List Char)) :
    (tokenizeLines line since ls).2 ≠ some (.crash .stackOverflow) := by
  fun_induction tokenizeLines line since ls with
  | case1 line since => cases since <;> simp
  | case2 line since cs rest visible? hidden ih => exact ih
  | case3 line since cs rest visible? visible hvisible tokens hlex more _ hmore ih
  | case4 line since cs rest visible? visible hvisible tokens l hlex more _ hmore ih =>
    rw [hmore] at ih
    exact ih
  | case5 line since cs rest visible? visible hvisible tokens own hrunsOn hlex =>
    have hown := lexLine_follows line visible
    rw [hlex] at hown
    exact hown

/-- All hosts that can follow so many levels read the same program from a text, and none of them
fails to follow it. -/
theorem parse_settled (source : String) :
    ∃ levels program, program.failure ≠ some (.crash .stackOverflow) ∧
      ∀ [Host.Limits], levels ≤ stackLimit → parse source = program := by
  have htokens : (tokenize source).2 ≠ some (.crash .stackOverflow) := tokenizeLines_follows _ _ _
  let ending := endingOf (tokenize source).1 (tokenize source).2
  have hending : ending.Follows := by
    intro heq
    cases hfailure : (tokenize source).2 with
    | none =>
      simp only [ending, endingOf, hfailure] at heq
      cases heq
    | some failure =>
      simp only [ending, endingOf, hfailure, Ending.failed.injEq] at heq
      exact htokens (hfailure.trans (congrArg some heq))
  let levels := (tokenize source).1.length + 2
  obtain ⟨-, hfollows⟩ :=
    programStatements_levels hending (tokenize source).1 (Nat.lt_succ_self _) (Nat.lt_succ_self _)
  refine ⟨levels, programStatements ending levels (tokenize source).1, hfollows, fun hlevels => ?_⟩
  exact (programStatements_levels hending (tokenize source).1 hlevels (Nat.lt_succ_self _)).1

end Source

/-! ### Documents -/

namespace Json

open Text

variable {α : Type} {n : Nat}

/-- Whether two ways to read end in the same way, and not because the host could not follow. -/
abbrev Alike (x y : Except ReadFailure α) : Prop :=
  SameBut .tooDeep x y

/-- Whether two steps end in the same way where there are fewer characters than the given number. -/
def Reader.AlikeBelow (n : Nat) (step step' : Reader α) : Prop :=
  ∀ cs, cs.length < n → Alike (step cs) (step' cs)

theorem alike_defect (defect : JsonDefect) (left : List Char) :
    Alike (.error (.defect defect left) : Except ReadFailure α) (.error (.defect defect left)) :=
  ⟨rfl, by simp⟩

theorem alike_stringRest (start cs : List Char) :
    Alike (stringRest start cs) (stringRest start cs) := by
  rw [stringRest]
  split
  · exact sameBut_ok _
  · exact alike_defect _ _
  · exact alike_defect _ _
  · exact (alike_stringRest start _).bind fun _ _ => sameBut_ok _
termination_by cs.length

theorem alike_memberName (cs : List Char) : Alike (memberName cs) (memberName cs) := by
  unfold memberName
  split
  · refine (alike_stringRest _ _).bind fun name _ => ?_
    split
    · exact sameBut_ok _
    · exact alike_defect _ _
  · exact alike_defect _ _

theorem alike_scalar (cs : List Char) : Alike (scalar cs) (scalar cs) := by
  cases cs with
  | nil => exact alike_defect _ _
  | cons c tail =>
    rw [scalar.eq_2]
    split
    · exact sameBut_ok _
    · split
      · exact alike_defect _ _
      · next numeral rest hnumeral =>
        refine SameBut.bind ⟨rfl, ?_⟩ fun _ _ => sameBut_ok _
        unfold Numeral.toJson
        split
        · split <;> simp
        · simp

section Containers

variable {item item' : Reader Json} (hitem : Reader.AlikeBelow n item item')

include hitem

theorem alike_arrayItems {cs : List Char} (hcs : cs.length < n) :
    Alike (arrayItems item cs) (arrayItems item' cs) := by
  rw [arrayItems, arrayItems]
  refine (hitem cs hcs).bind fun first _ => ?_
  split
  · exact sameBut_ok _
  · next rest heq =>
    have hshorter : (skipSpace rest).length < cs.length := by
      have hfirst := first.shorter
      have hskip := length_skipSpace_le first.rest
      have hrest := length_skipSpace_le rest
      rw [heq, List.length_cons] at hskip
      omega
    exact (alike_arrayItems (by omega)).bind fun _ _ => sameBut_ok _
  · exact alike_defect _ _
termination_by cs.length

theorem alike_objectMembers {cs : List Char} (hcs : cs.length < n) :
    Alike (objectMembers item cs) (objectMembers item' cs) := by
  rw [objectMembers, objectMembers]
  refine (alike_memberName cs).bind fun name _ => ?_
  have hname : (skipSpace name.rest).length < cs.length :=
    Nat.lt_of_le_of_lt (length_skipSpace_le name.rest) name.shorter
  refine (hitem _ (Nat.lt_trans hname hcs)).bind fun value _ => ?_
  split
  · exact sameBut_ok _
  · next rest heq =>
    have hshorter : (skipSpace rest).length < cs.length := by
      have hvalue := value.shorter
      have hskip := length_skipSpace_le value.rest
      have hrest := length_skipSpace_le rest
      rw [heq, List.length_cons] at hskip
      omega
    exact (alike_objectMembers (by omega)).bind fun _ _ => sameBut_ok _
  · exact alike_defect _ _
termination_by cs.length

theorem alike_arrayRest {cs : List Char} (hcs : cs.length < n) :
    Alike (arrayRest item cs) (arrayRest item' cs) := by
  have hskip := length_skipSpace_le cs
  unfold arrayRest
  split
  · exact sameBut_ok _
  · exact (alike_arrayItems hitem (by omega)).bind fun _ _ => sameBut_ok _

theorem alike_objectRest {cs : List Char} (hcs : cs.length < n) :
    Alike (objectRest item cs) (objectRest item' cs) := by
  have hskip := length_skipSpace_le cs
  unfold objectRest
  split
  · exact sameBut_ok _
  · exact (alike_objectMembers hitem (by omega)).bind fun _ _ => sameBut_ok _

end Containers

/-- A document begins with a character, behind which there is one fewer. -/
theorem alike_document {levels levels' : Nat} (h : n ≤ levels) (h' : n ≤ levels') :
    Reader.AlikeBelow n (document levels) (document levels') := by
  induction n generalizing levels levels' with
  | zero => exact fun cs hcs => absurd hcs (Nat.not_lt_zero _)
  | succ n ih =>
    obtain ⟨k, rfl⟩ : ∃ k, levels = k + 1 := ⟨levels - 1, by omega⟩
    obtain ⟨k', rfl⟩ : ∃ k, levels' = k + 1 := ⟨levels' - 1, by omega⟩
    have hinner : Reader.AlikeBelow n (document k) (document k') := ih (by omega) (by omega)
    intro cs hcs
    rcases document_cases cs with ⟨tail, rfl⟩ | ⟨tail, rfl⟩ | ⟨tail, rfl⟩ | hscalar
    · exact (alike_stringRest _ tail).bind fun _ _ => sameBut_ok _
    · exact alike_arrayRest hinner (Nat.lt_of_succ_lt_succ hcs)
    · exact alike_objectRest hinner (Nat.lt_of_succ_lt_succ hcs)
    · rw [hscalar, hscalar]
      exact alike_scalar cs

/-- With more levels than characters two hosts read the same from a text. -/
theorem alike_read (limits limits' : Host.Limits) {cs : List Char} (h : cs.length < limits.levels)
    (h' : cs.length < limits'.levels) : Alike (@read limits cs) (@read limits' cs) := by
  unfold read
  split
  · exact alike_defect _ _
  · refine (alike_document h h' _ (Nat.lt_succ_of_le (length_skipSpace_le cs))).bind fun root _ => ?_
    split
    · exact sameBut_ok _
    · exact alike_defect _ _

/-- All hosts that can follow so many levels read the same document from a text, and none of them
fails to follow it. -/
theorem parse_settled (s : String) :
    ∃ levels result, result ≠ .error (.crash .stackOverflow) ∧
      ∀ [Host.Limits], levels ≤ stackLimit → parse s = result := by
  let large : Host.Limits := ⟨s.toList.length + 32, Nat.le_add_left _ _⟩
  have hlarge : s.toList.length < large.levels := Nat.lt_add_of_pos_right (by decide)
  refine ⟨s.toList.length + 1, @parse large s, ?_, fun hlevels => ?_⟩
  · have hread := alike_read large large hlarge hlarge
    unfold parse
    split
    · simp
    · simp
    · next heq => exact absurd heq hread.follows
    · simp
  · have hread := alike_read _ large hlevels hlarge
    unfold parse
    rw [hread.eq]

end Json

end ModuLang
