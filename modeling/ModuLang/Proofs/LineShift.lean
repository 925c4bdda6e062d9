import ModuLang.Proofs.ProgramGrammar

/-!
# Reading at other lines

The parser copies the line of a token to the node that it begins, and to the errors, but never acts
on it. So tokens that stand some lines further down are read as the same statements, these lines
further down, and to the same token; where they cannot be read, they can be read nowhere.

Neither does the parser act on how many lines end at a place: wherever it looks for the end of a
line, it skips all that follow. So ends of lines behind the end of a line can be left out as well.
`Relocation` is what both changes of the tokens have in common, and it is all that the parser needs
to read the same program.
-/

namespace ModuLang

/-- A string literal, so many lines further down. -/
def Quotation.shift (d : Int) (q : Quotation) : Quotation :=
  { q with line := q.line + d }

mutual

/-- A node with all that is in it, so many lines further down. -/
def Node.shift (d : Int) : Node → Node
  | .literal value line => .literal value (line + d)
  | .text quotation => .text (quotation.shift d)
  | .identifier name line => .identifier name (line + d)
  | .record properties line => .record (Node.shiftMembers d properties) (line + d)
  | .binary op left right line => .binary op (left.shift d) (right.shift d) (line + d)
  | .isPresent value line => .isPresent (value.shift d) (line + d)
  | .call name args line => .call name (Node.shiftAll d args) (line + d)
  | .property object name line => .property (object.shift d) name (line + d)
  | .methodCall object name args line =>
    .methodCall (object.shift d) name (Node.shiftAll d args) (line + d)
  | .binding name value line => .binding name (value.shift d) (line + d)
  | .importing target asName line => .importing (target.shift d) asName (line + d)
  | .definition name params body line => .definition name params (Node.shiftAll d body) (line + d)
  | .conditional condition body line =>
    .conditional (condition.shift d) (Node.shiftAll d body) (line + d)
  | .returning none line => .returning none (line + d)
  | .returning (some value) line => .returning (some (value.shift d)) (line + d)
  | .unknown => .unknown

/-- Nodes, so many lines further down. -/
def Node.shiftAll (d : Int) : List Node → List Node
  | [] => []
  | n :: ns => n.shift d :: Node.shiftAll d ns

/-- The properties of an object literal, so many lines further down. -/
def Node.shiftMembers (d : Int) : List (String × Node) → List (String × Node)
  | [] => []
  | (key, n) :: ps => (key, n.shift d) :: Node.shiftMembers d ps

end

/-! ### No lines further down -/

theorem Quotation.shift_zero (q : Quotation) : q.shift 0 = q := by
  rw [Quotation.shift, Int.add_zero]

mutual

theorem Node.shift_zero : (n : Node) → n.shift 0 = n
  | .literal value line => by rw [Node.shift, Int.add_zero]
  | .text quotation => by rw [Node.shift, quotation.shift_zero]
  | .identifier name line => by rw [Node.shift, Int.add_zero]
  | .record properties line => by rw [Node.shift, shiftMembers_zero properties, Int.add_zero]
  | .binary op left right line => by
    rw [Node.shift, left.shift_zero, right.shift_zero, Int.add_zero]
  | .isPresent value line => by rw [Node.shift, value.shift_zero, Int.add_zero]
  | .call name args line => by rw [Node.shift, shiftAll_zero args, Int.add_zero]
  | .property object name line => by rw [Node.shift, object.shift_zero, Int.add_zero]
  | .methodCall object name args line => by
    rw [Node.shift, object.shift_zero, shiftAll_zero args, Int.add_zero]
  | .binding name value line => by rw [Node.shift, value.shift_zero, Int.add_zero]
  | .importing target asName line => by rw [Node.shift, target.shift_zero, Int.add_zero]
  | .definition name params body line => by rw [Node.shift, shiftAll_zero body, Int.add_zero]
  | .conditional condition body line => by
    rw [Node.shift, condition.shift_zero, shiftAll_zero body, Int.add_zero]
  | .returning none line => by rw [Node.shift, Int.add_zero]
  | .returning (some value) line => by rw [Node.shift, value.shift_zero, Int.add_zero]
  | .unknown => by rw [Node.shift]

theorem Node.shiftAll_zero : (ns : List Node) → Node.shiftAll 0 ns = ns
  | [] => by rw [Node.shiftAll]
  | n :: ns => by rw [Node.shiftAll, n.shift_zero, shiftAll_zero ns]

theorem Node.shiftMembers_zero : (ps : List (String × Node)) → Node.shiftMembers 0 ps = ps
  | [] => by rw [Node.shiftMembers]
  | (key, n) :: ps => by rw [Node.shiftMembers, n.shift_zero, shiftMembers_zero ps]

end

namespace Source

/-- A token, so many lines further down. -/
def Token.shift (d : Int) (t : Token) : Token :=
  { t with line := t.line + d }

@[simp]
theorem Token.kind_shift (d : Int) (t : Token) : (t.shift d).kind = t.kind := rfl

/-- A change of tokens that the parser notices in their lines alone: all of them are moved so many
lines down, and behind the end of a line further ends of lines may be left out. -/
structure Relocation (d : Int) where
  tokens : List Token → List Token
  nil : tokens [] = []
  cons : ∀ t ts, t.kind ≠ .newline → tokens (t :: ts) = t.shift d :: tokens ts
  lineEnd : ∀ t ts, t.kind = .newline → ∃ us, tokens (t :: ts) = t.shift d :: us
  newlines : ∀ ts, skipNewlines (tokens ts) = tokens (skipNewlines ts)
  separators : ∀ ts, skipSeparators (tokens ts) = tokens (skipSeparators ts)

/-- The first token is moved, whatever becomes of those behind it. -/
theorem Relocation.exists_cons {d : Int} (σ : Relocation d) (t : Token) (ts : List Token) :
    ∃ us, σ.tokens (t :: ts) = t.shift d :: us := by
  by_cases ht : t.kind = .newline
  · exact σ.lineEnd t ts ht
  · exact ⟨_, σ.cons t ts ht⟩

/-- Tokens, so many lines further down. -/
def shiftTokens (d : Int) (ts : List Token) : List Token :=
  ts.map (Token.shift d)

/-- Skipping tokens of some kinds does not depend on their lines. -/
theorem dropWhile_shiftTokens (d : Int) (skips : TokenKind → Bool) (ts : List Token) :
    (shiftTokens d ts).dropWhile (fun t => skips t.kind) =
      shiftTokens d (ts.dropWhile fun t => skips t.kind) :=
  List.dropWhile_map ..

/-- The change that only moves tokens. -/
def Relocation.shift (d : Int) : Relocation d where
  tokens := shiftTokens d
  nil := rfl
  cons _ _ _ := rfl
  lineEnd _ ts _ := ⟨shiftTokens d ts, rfl⟩
  newlines := dropWhile_shiftTokens d (· == .newline)
  separators := dropWhile_shiftTokens d fun k => k == .newline || k == .semicolon

/-! ### Ends of lines behind the end of a line -/

@[simp]
theorem Token.shift_zero (t : Token) : t.shift 0 = t := by
  rw [Token.shift, Int.add_zero]

/-- Tokens without the ends of lines that stand behind the end of a line. -/
def dropBlankLines (behindEnd : Bool) : List Token → List Token
  | [] => []
  | t :: ts =>
    if t.kind = .newline then
      if behindEnd then dropBlankLines true ts else t :: dropBlankLines true ts
    else t :: dropBlankLines false ts

/-- Where the ends of lines are skipped, it does not matter how many of them there are. -/
theorem dropWhile_dropBlankLines {skips : Token → Bool}
    (hskips : ∀ t, t.kind = .newline → skips t = true) (behindEnd : Bool) (ts : List Token) :
    (dropBlankLines behindEnd ts).dropWhile skips = dropBlankLines false (ts.dropWhile skips) := by
  induction ts generalizing behindEnd with
  | nil => rfl
  | cons t ts ih =>
    by_cases hline : t.kind = .newline
    · have ht : skips t = true := hskips t hline
      rw [dropBlankLines, if_pos hline, List.dropWhile_cons_of_pos ht]
      split
      · exact ih true
      · rw [List.dropWhile_cons_of_pos ht, ih]
    · rw [dropBlankLines, if_neg hline]
      by_cases ht : skips t = true
      · rw [List.dropWhile_cons_of_pos ht, List.dropWhile_cons_of_pos ht, ih]
      · rw [List.dropWhile_cons_of_neg ht, List.dropWhile_cons_of_neg ht, dropBlankLines,
          if_neg hline]

/-- The change that only leaves out ends of lines. -/
def Relocation.dropBlankLines : Relocation 0 where
  tokens := Source.dropBlankLines false
  nil := rfl
  cons t ts ht := by rw [Source.dropBlankLines, if_neg ht, t.shift_zero]
  lineEnd t ts ht := by
    rw [Source.dropBlankLines, if_pos ht, t.shift_zero]
    exact ⟨_, rfl⟩
  newlines := dropWhile_dropBlankLines (fun t ht => by simp [ht]) false
  separators := dropWhile_dropBlankLines (fun t ht => by simp [ht]) false

/-! ### Failures at other lines -/

end Source

/-- A failure, so many lines further down. A body that is not closed is blamed on the line where it
was opened. -/
def Failure.shift (d : Int) : Failure → Failure
  | .fault ⟨.bodyNotClosed openLine, line⟩ => .fault ⟨.bodyNotClosed (openLine + d), line + d⟩
  | .fault ⟨cause, line⟩ => .fault ⟨cause, line + d⟩
  | .crash c => .crash c

theorem Failure.shift_zero (failure : Failure) : failure.shift 0 = failure := by
  fun_cases Failure.shift 0 failure with
  | case1 openLine line => rw [Int.add_zero, Int.add_zero]
  | case2 cause line hbody => rw [Int.add_zero]
  | case3 c => rfl

namespace Source

/-- What stands behind the last token, so many lines further down. -/
def Ending.shift (d : Int) : Ending → Ending
  | .endOfText line => .endOfText (line + d)
  | .failed failure => .failed (failure.shift d)

theorem Ending.shift_zero (ending : Ending) : ending.shift 0 = ending := by
  cases ending with
  | endOfText line => rw [Ending.shift, Int.add_zero]
  | failed failure => rw [Ending.shift, failure.shift_zero]

/-- A program, so many lines further down. -/
def Program.shift (d : Int) (p : Program) : Program :=
  ⟨p.statements.map (Node.shift d), p.failure.map (Failure.shift d)⟩

theorem Program.shift_zero (p : Program) : p.shift 0 = p := by
  have hnodes : Node.shift 0 = id := funext Node.shift_zero
  have hfailures : Failure.shift 0 = id := funext Failure.shift_zero
  rw [Program.shift, hnodes, hfailures, List.map_id, Option.map_id, id]

/-! ### Steps that do the same at other lines -/

/-- Two results of a step: the second one is the first one so many lines further down. -/
inductive Shifts {d : Int} (σ : Relocation d) {α : Type} (φ : α → α) :
    Except Failure (α × List Token) → Except Failure (α × List Token) → Prop where
  | ok (v : α) (ts : List Token) : Shifts σ φ (.ok (v, ts)) (.ok (φ v, σ.tokens ts))
  | failed (e : Failure) : Shifts σ φ (.error e) (.error (e.shift d))

section Steps

variable {α β : Type} {d : Int} {σ : Relocation d} {ending : Ending} {φ : α → α} {ψ : β → β}
  {ts : List Token}

theorem Shifts.bind {x y : Except Failure (α × List Token)}
    {f g : α × List Token → Except Failure (β × List Token)} (hxy : Shifts σ φ x y)
    (hfg : ∀ v us, x = .ok (v, us) → Shifts σ ψ (f (v, us)) (g (φ v, σ.tokens us))) :
    Shifts σ ψ (x >>= f) (y >>= g) := by
  cases hxy with
  | ok v us => exact hfg v us rfl
  | failed e => exact .failed e

/-- Looking at the next token. -/
theorem peek_shift (σ : Relocation d) (ending : Ending) (ts : List Token) :
    (∃ t, peek ending ts = .ok t ∧ peek (ending.shift d) (σ.tokens ts) = .ok (t.shift d)) ∨
      ∃ e, peek ending ts = .error e ∧
        peek (ending.shift d) (σ.tokens ts) = .error (e.shift d) := by
  cases ts with
  | nil =>
    rw [σ.nil]
    cases ending with
    | endOfText line => exact .inl ⟨_, rfl, rfl⟩
    | failed failure => exact .inr ⟨failure, rfl, rfl⟩
  | cons t rest =>
    obtain ⟨us, hcons⟩ := σ.exists_cons t rest
    rw [hcons]
    exact .inl ⟨t, rfl, rfl⟩

/-- What follows a look at the next token. -/
theorem Shifts.peek {f g : Token → Except Failure (β × List Token)}
    (hfg : ∀ t, Shifts σ ψ (f t) (g (t.shift d))) :
    Shifts σ ψ (peek ending ts >>= f) (peek (ending.shift d) (σ.tokens ts) >>= g) := by
  rcases peek_shift σ ending ts with ⟨t, hpeek, hpeek'⟩ | ⟨e, hpeek, hpeek'⟩
  · rw [hpeek, hpeek']
    exact hfg t
  · rw [hpeek, hpeek']
    exact .failed e

/-- What follows the use of a token that need not be there, and is not the end of a line. -/
theorem Shifts.accept {wanted : TokenKind → Bool} (hwanted : wanted .newline = false)
    {f g : Option (Token × List Token) → Except Failure (β × List Token)}
    (hnone : Shifts σ ψ (f none) (g none))
    (hsome : ∀ t rest, ts = t :: rest → wanted t.kind = true →
      Shifts σ ψ (f (some (t, rest))) (g (some (t.shift d, σ.tokens rest)))) :
    Shifts σ ψ (eraseOption (accept ending wanted ts) >>= f)
      (eraseOption (accept (ending.shift d) wanted (σ.tokens ts)) >>= g) := by
  cases ts with
  | nil =>
    rw [σ.nil, eraseOption_accept_nil, eraseOption_accept_nil]
    cases ending with
    | endOfText line => exact hnone
    | failed failure => exact .failed failure
  | cons t rest =>
    by_cases hkind : wanted t.kind = true
    · have hline : t.kind ≠ .newline := fun heq => by
        rw [heq, hwanted] at hkind
        cases hkind
      rw [σ.cons t rest hline, eraseOption_accept_cons, eraseOption_accept_cons, Token.kind_shift,
        if_pos hkind, if_pos hkind]
      exact hsome t rest rfl hkind
    · obtain ⟨us, hcons⟩ := σ.exists_cons t rest
      rw [hcons, eraseOption_accept_cons, eraseOption_accept_cons, Token.kind_shift, if_neg hkind,
        if_neg hkind]
      exact hnone

/-- The use of a token that has to be there, and is not the end of a line. -/
theorem shifts_expect {wanted : TokenKind → Bool} (hwanted : wanted .newline = false)
    (what : Expectation) (ts : List Token) :
    Shifts σ (Token.shift d) (erase (expect ending wanted what ts))
      (erase (expect (ending.shift d) wanted what (σ.tokens ts))) := by
  cases ts with
  | nil =>
    rw [σ.nil, erase_expect_nil, erase_expect_nil]
    cases ending with
    | endOfText line => exact .failed (.fault ⟨.expected what _, line⟩)
    | failed failure => exact .failed failure
  | cons t rest =>
    by_cases hkind : wanted t.kind = true
    · have hline : t.kind ≠ .newline := fun heq => by
        rw [heq, hwanted] at hkind
        cases hkind
      rw [σ.cons t rest hline, erase_expect_cons, erase_expect_cons, Token.kind_shift, if_pos hkind,
        if_pos hkind]
      exact .ok t rest
    · obtain ⟨us, hcons⟩ := σ.exists_cons t rest
      rw [hcons, erase_expect_cons, erase_expect_cons, Token.kind_shift, if_neg hkind, if_neg hkind]
      exact .failed (.fault ⟨.expected what t.describe, t.line⟩)

/-- Two steps, of which the second one does further down what the first one does. -/
def Parser.Shifts (σ : Relocation d) (φ : α → α) (step step' : Parser α) : Prop :=
  ∀ ts, Source.Shifts σ φ (erase (step ts)) (erase (step' (σ.tokens ts)))

end Steps

/-! ### Expressions -/

section Expressions

variable {d : Int} {σ : Relocation d} {ending : Ending} {expr expr' : Parser Node} {ts : List Token}

theorem shifts_arguments (hexpr : expr.Shifts σ (Node.shift d) expr') (ts : List Token) :
    Shifts σ (Node.shiftAll d) (erase (arguments ending expr ts))
      (erase (arguments (ending.shift d) expr' (σ.tokens ts))) := by
  rw [erase_arguments, erase_arguments, σ.newlines]
  refine (hexpr _).bind fun arg behind harg => ?_
  rw [σ.newlines]
  refine (shifts_expect rfl _ _).bind fun close rest hclose => ?_
  have hrest : rest.length < ts.length :=
    calc rest.length < (skipNewlines behind).length := erase_shorter hclose
      _ ≤ behind.length := length_skipNewlines_le behind
      _ < (skipNewlines ts).length := erase_shorter harg
      _ ≤ ts.length := length_skipNewlines_le ts
  rw [Token.kind_shift]
  split
  · refine (shifts_arguments hexpr rest).bind fun more left _ => ?_
    exact .ok (arg :: more) left
  · exact .ok [arg] rest
termination_by ts.length

theorem shifts_argumentList (hexpr : expr.Shifts σ (Node.shift d) expr') :
    (argumentList ending expr).Shifts σ (Node.shiftAll d)
      (argumentList (ending.shift d) expr') := by
  intro ts
  rw [erase_argumentList, erase_argumentList, σ.newlines]
  refine .accept rfl (shifts_arguments hexpr ts) fun close rest _ _ => ?_
  exact .ok [] rest

theorem shifts_propertyChain (hexpr : expr.Shifts σ (Node.shift d) expr') (object : Node)
    (ts : List Token) :
    Shifts σ (Node.shift d) (erase (propertyChain ending expr object ts))
      (erase (propertyChain (ending.shift d) expr' (object.shift d) (σ.tokens ts))) := by
  rw [erase_propertyChain, erase_propertyChain]
  refine .accept rfl (.ok object ts) fun dot behind hts _ => ?_
  refine (shifts_expect rfl _ _).bind fun name rest hname => ?_
  have hrest : rest.length < ts.length := by
    have hbehind : rest.length < behind.length := erase_shorter hname
    rw [hts, List.length_cons]
    omega
  refine .accept rfl (shifts_propertyChain hexpr _ rest) fun paren inner hparen _ => ?_
  refine (shifts_argumentList hexpr inner).bind fun args left hargs => ?_
  have hleft : left.length < ts.length := by
    have hinner : left.length < inner.length := erase_shorter hargs
    have hbehind : rest.length = inner.length + 1 := congrArg List.length hparen
    omega
  exact shifts_propertyChain hexpr _ left
termination_by ts.length

theorem shifts_recordBody (hexpr : expr.Shifts σ (Node.shift d) expr') (ts : List Token) :
    Shifts σ (Node.shiftMembers d) (erase (recordBody ending expr ts))
      (erase (recordBody (ending.shift d) expr' (σ.tokens ts))) := by
  rw [erase_recordBody, erase_recordBody, σ.newlines]
  refine (shifts_expect rfl _ _).bind fun first behind hfirst => ?_
  rw [Token.kind_shift]
  split
  · exact .ok [] behind
  · refine (shifts_expect rfl _ _).bind fun colon afterColon hcolon => ?_
    rw [σ.newlines]
    refine (hexpr _).bind fun value afterValue hvalue => ?_
    rw [σ.newlines]
    refine (shifts_expect rfl _ _).bind fun close rest hclose => ?_
    have hrest : rest.length < ts.length :=
      calc rest.length < (skipNewlines afterValue).length := erase_shorter hclose
        _ ≤ afterValue.length := length_skipNewlines_le afterValue
        _ < (skipNewlines afterColon).length := erase_shorter hvalue
        _ ≤ afterColon.length := length_skipNewlines_le afterColon
        _ < behind.length := erase_shorter hcolon
        _ < (skipNewlines ts).length := erase_shorter hfirst
        _ ≤ ts.length := length_skipNewlines_le ts
    rw [Token.kind_shift]
    split
    · refine (shifts_recordBody hexpr rest).bind fun more left _ => ?_
      exact .ok ((_, value) :: more) left
    · exact .ok [(_, value)] rest
termination_by ts.length

theorem literalOf?_shift (t : Token) :
    literalOf? (t.shift d) = (literalOf? t).map (Node.shift d) := by
  unfold literalOf?
  rw [Token.kind_shift]
  split <;> rfl

theorem shifts_term (hexpr : expr.Shifts σ (Node.shift d) expr') :
    (term ending expr).Shifts σ (Node.shift d) (term (ending.shift d) expr') := by
  intro ts
  by_cases hstart : ∃ t us, ts = t :: us ∧ startsTerm t.kind = true
  · obtain ⟨t, rest, rfl, ht⟩ := hstart
    have hline : t.kind ≠ .newline := fun heq => by
      rw [heq] at ht
      cases ht
    rw [σ.cons t rest hline]
    rcases startsTerm_cases ht with ⟨n, hn⟩ | hbrace | hname
    · have hshift : literalOf? (t.shift d) = some (n.shift d) := by
        rw [literalOf?_shift, hn]
        rfl
      rw [erase_term_literal hn, erase_term_literal hshift]
      exact .ok n rest
    · rw [erase_term_leftBrace hbrace, erase_term_leftBrace ((t.kind_shift d).trans hbrace)]
      refine (shifts_recordBody hexpr rest).bind fun ps left _ => ?_
      exact .ok (Node.record ps t.line) left
    · rw [erase_term_identifier hname, erase_term_identifier ((t.kind_shift d).trans hname)]
      refine .accept rfl (shifts_propertyChain hexpr (.identifier t.text t.line) rest)
        fun paren inner _ _ => ?_
      refine (shifts_argumentList hexpr inner).bind fun args left _ => ?_
      exact shifts_propertyChain hexpr (.call t.text args t.line) left
  · -- Neither list begins with an operand, so both steps fail.
    have hother : ∀ t us, ts = t :: us → startsTerm t.kind = false := fun t us hts =>
      Bool.eq_false_iff.mpr fun ht => hstart ⟨t, us, hts, ht⟩
    have hother' : ∀ t us, σ.tokens ts = t :: us → startsTerm t.kind = false := by
      intro t us hts
      cases ts with
      | nil =>
        rw [σ.nil] at hts
        cases hts
      | cons u vs =>
        obtain ⟨_, hcons⟩ := σ.exists_cons u vs
        obtain rfl : u.shift d = t := (List.cons.inj (hcons.symm.trans hts)).1
        exact hother u vs rfl
    rw [erase_term_other hother, erase_term_other hother']
    exact .peek fun t => .failed _

theorem shifts_sumChain {operandStep operandStep' : Parser Node}
    (hoperand : operandStep.Shifts σ (Node.shift d) operandStep') (left : Node) (ts : List Token) :
    Shifts σ (Node.shift d) (erase (sumChain ending operandStep left ts))
      (erase (sumChain (ending.shift d) operandStep' (left.shift d) (σ.tokens ts))) := by
  rw [erase_sumChain, erase_sumChain]
  refine .accept rfl (.ok left ts) fun sign behind hts _ => ?_
  refine (hoperand behind).bind fun right rest hright => ?_
  have hrest : rest.length < ts.length := by
    have hbehind : rest.length < behind.length := erase_shorter hright
    rw [hts, List.length_cons]
    omega
  exact shifts_sumChain hoperand _ rest
termination_by ts.length

theorem shifts_sum {operandStep operandStep' : Parser Node}
    (hoperand : operandStep.Shifts σ (Node.shift d) operandStep') :
    (sum ending operandStep).Shifts σ (Node.shift d)
      (sum (ending.shift d) operandStep') := by
  intro ts
  rw [erase_sum, erase_sum]
  exact (hoperand ts).bind fun first rest _ => shifts_sumChain hoperand first rest

theorem shifts_operand (levels : Nat) :
    (operand ending levels).Shifts σ (Node.shift d) (operand (ending.shift d) levels) := by
  induction levels with
  | zero => exact fun ts => .failed _
  | succ levels ih =>
    intro ts
    rw [erase_operand_succ, erase_operand_succ]
    refine .accept rfl (shifts_term (shifts_sum ih) ts) fun sign rest _ _ => ?_
    refine (ih rest).bind fun inner left _ => ?_
    exact .ok (Node.binary .subtract (.literal .null sign.line) inner sign.line) left

theorem shifts_expression (levels : Nat) :
    (expression ending levels).Shifts σ (Node.shift d)
      (expression (ending.shift d) levels) :=
  shifts_sum (shifts_operand levels)

end Expressions

/-! ### Statements -/

section Statements

variable {d : Int} {σ : Relocation d} {ending : Ending} {expr expr' stmt stmt' : Parser Node} {ts : List Token}

theorem shifts_ended (hstmt : stmt.Shifts σ (Node.shift d) stmt') :
    (ended ending stmt).Shifts σ (Node.shift d) (ended (ending.shift d) stmt') := by
  intro ts
  rw [erase_ended, erase_ended]
  refine (hstmt ts).bind fun node rest _ => .peek fun t => ?_
  rw [Token.kind_shift]
  split
  · exact .ok node rest
  · exact .failed _

theorem shifts_bodyStatements (hstmt : stmt.Shifts σ (Node.shift d) stmt') (openLine : Int)
    (ts : List Token) :
    Shifts σ (Node.shiftAll d) (erase (bodyStatements ending stmt openLine ts))
      (erase (bodyStatements (ending.shift d) stmt' (openLine + d) (σ.tokens ts))) := by
  rw [erase_bodyStatements, erase_bodyStatements, σ.separators]
  refine .accept rfl (.peek fun t => ?_) fun close rest _ _ => .ok [] rest
  rw [Token.kind_shift]
  split
  · exact .failed _
  · refine (shifts_ended hstmt _).bind fun node rest hnode => ?_
    have hrest : rest.length < ts.length := ended_shorter hnode
    refine (shifts_bodyStatements hstmt openLine rest).bind fun more left _ => ?_
    exact .ok (node :: more) left
termination_by ts.length

theorem shifts_body (hstmt : stmt.Shifts σ (Node.shift d) stmt') :
    (body ending stmt).Shifts σ (Node.shiftAll d) (body (ending.shift d) stmt') := by
  intro ts
  rw [erase_body, erase_body]
  refine (shifts_expect rfl _ _).bind fun brace rest _ => ?_
  exact shifts_bodyStatements hstmt _ rest

theorem shifts_letStatement (hexpr : expr.Shifts σ (Node.shift d) expr') (word : Token) :
    (letStatement ending expr word).Shifts σ (Node.shift d)
      (letStatement (ending.shift d) expr' (word.shift d)) := by
  intro ts
  rw [erase_letStatement, erase_letStatement]
  refine (shifts_expect rfl _ _).bind fun name behind _ => ?_
  refine (shifts_expect rfl _ _).bind fun sign rest _ => ?_
  refine (hexpr rest).bind fun value left _ => ?_
  exact .ok (Node.binding name.text value word.line) left

theorem shifts_importStatement (word : Token) :
    (importStatement ending word).Shifts σ (Node.shift d)
      (importStatement (ending.shift d) (word.shift d)) := by
  intro ts
  rw [erase_importStatement, erase_importStatement]
  refine (shifts_expect rfl _ _).bind fun target behind _ => ?_
  refine .accept rfl ?_ fun asWord rest _ _ => ?_
  · exact .ok (Node.importing ⟨target.text, target.line⟩ none word.line) behind
  · refine (shifts_expect rfl _ _).bind fun chosen left _ => ?_
    exact .ok (Node.importing ⟨target.text, target.line⟩ (some chosen.text) word.line) left

theorem shifts_parameters (ts : List Token) :
    Shifts σ id (erase (parameters ending ts))
      (erase (parameters (ending.shift d) (σ.tokens ts))) := by
  rw [erase_parameters, erase_parameters]
  refine (shifts_expect rfl _ _).bind fun name behind hname => ?_
  refine .accept rfl (.ok [name.text] behind) fun comma rest hcomma _ => ?_
  have hrest : rest.length < ts.length := by
    have hbehind : behind.length < ts.length := erase_shorter hname
    have hcut : behind.length = rest.length + 1 := congrArg List.length hcomma
    omega
  refine (shifts_parameters rest).bind fun more left _ => ?_
  exact .ok (name.text :: more) left
termination_by ts.length

theorem shifts_parameterList :
    (parameterList ending).Shifts σ id (parameterList (ending.shift d)) := by
  intro ts
  rw [erase_parameterList, erase_parameterList]
  refine .accept rfl ?_ fun close rest _ _ => .ok [] rest
  refine (shifts_parameters ts).bind fun names behind _ => ?_
  refine (shifts_expect rfl _ _).bind fun close rest _ => ?_
  exact .ok names rest

theorem shifts_functionStatement (hstmt : stmt.Shifts σ (Node.shift d) stmt') (word : Token) :
    (functionStatement ending stmt word).Shifts σ (Node.shift d)
      (functionStatement (ending.shift d) stmt' (word.shift d)) := by
  intro ts
  rw [erase_functionStatement, erase_functionStatement]
  refine (shifts_expect rfl _ _).bind fun name behind _ => ?_
  refine (shifts_expect rfl _ _).bind fun paren rest _ => ?_
  refine (shifts_parameterList rest).bind fun params afterParams _ => ?_
  refine (shifts_body hstmt afterParams).bind fun statements left _ => ?_
  exact .ok (Node.definition name.text params statements word.line) left

theorem shifts_condition (hexpr : expr.Shifts σ (Node.shift d) expr') (wordLine : Int) :
    (condition ending expr wordLine).Shifts σ (Node.shift d)
      (condition (ending.shift d) expr' (wordLine + d)) := by
  intro ts
  rw [erase_condition, erase_condition]
  refine (hexpr ts).bind fun left behind _ => ?_
  refine .accept rfl (.ok (Node.isPresent left wordLine) behind) fun sign rest _ _ => ?_
  refine (hexpr rest).bind fun right after _ => ?_
  exact .ok (Node.binary (if sign.kind = .equal then .equal else .unequal) left right wordLine) after

theorem shifts_ifStatement (hexpr : expr.Shifts σ (Node.shift d) expr')
    (hstmt : stmt.Shifts σ (Node.shift d) stmt') (word : Token) :
    (ifStatement ending expr stmt word).Shifts σ (Node.shift d)
      (ifStatement (ending.shift d) expr' stmt' (word.shift d)) := by
  intro ts
  rw [erase_ifStatement, erase_ifStatement]
  refine (shifts_condition hexpr word.line ts).bind fun test behind _ => ?_
  refine (shifts_body hstmt behind).bind fun statements left _ => ?_
  exact .ok (Node.conditional test statements word.line) left

theorem shifts_returnStatement (hexpr : expr.Shifts σ (Node.shift d) expr') (inFunction : Bool)
    (word : Token) (ts : List Token) :
    Shifts σ (Node.shift d) (erase (returnStatement ending expr inFunction word ts))
      (erase (returnStatement (ending.shift d) expr' inFunction (word.shift d)
        (σ.tokens ts))) := by
  rw [erase_returnStatement, erase_returnStatement]
  split
  · exact .failed _
  · refine .peek fun t => ?_
    rw [Token.kind_shift]
    split
    · exact .ok (Node.returning none word.line) ts
    · refine (hexpr ts).bind fun value left _ => ?_
      exact .ok (Node.returning (some value) word.line) left

theorem shifts_statement (levels : Nat) (inFunction : Bool) :
    (statement ending levels inFunction).Shifts σ (Node.shift d)
      (statement (ending.shift d) levels inFunction) := by
  induction levels generalizing inFunction with
  | zero => exact fun ts => .failed _
  | succ levels ih =>
    intro ts
    rw [erase_statement_succ, erase_statement_succ]
    refine .accept rfl (shifts_expression levels ts) fun word rest _ _ => ?_
    simp only [statementBehind, Token.kind_shift]
    split
    · exact shifts_letStatement (shifts_expression levels) word rest
    · exact shifts_importStatement word rest
    · exact shifts_functionStatement (ih true) word rest
    · exact shifts_ifStatement (shifts_expression levels) (ih inFunction) word rest
    · exact shifts_returnStatement (shifts_expression levels) inFunction word rest

/-! ### Programs -/

/-- Further down a program is read as it is, with its statements and its failure there. -/
theorem programStatements_relocate (σ : Relocation d) (ending : Ending) (levels : Nat)
    (ts : List Token) :
    programStatements (ending.shift d) levels (σ.tokens ts) =
      (programStatements ending levels ts).shift d := by
  rw [programStatements_eq, programStatements_eq, σ.separators]
  rcases peek_shift σ ending (skipSeparators ts) with ⟨t, hpeek, hpeek'⟩ | ⟨e, hpeek, hpeek'⟩
  · rw [hpeek, hpeek']
    dsimp only
    have hkind : (t.shift d).kind = t.kind := t.kind_shift d
    by_cases hend : t.kind = .endOfText
    · rw [if_pos hend, if_pos (hkind.trans hend)]
      rfl
    · by_cases hbrace : t.kind = .rightBrace
      · rw [if_neg hend, if_pos hbrace, if_neg (hkind.trans_ne hend), if_pos (hkind.trans hbrace)]
        rfl
      · rw [if_neg hend, if_neg hbrace, if_neg (hkind.trans_ne hend), if_neg (hkind.trans_ne hbrace)]
        have hended : Shifts σ (Node.shift d)
            (erase (ended ending (statement ending levels false) (skipSeparators ts)))
            (erase (ended (ending.shift d) (statement (ending.shift d) levels false)
              (σ.tokens (skipSeparators ts)))) :=
          shifts_ended (shifts_statement levels false) _
        -- Both readings fail alike, or they give a statement and its shift.
        generalize hnode : erase (ended ending (statement ending levels false)
          (skipSeparators ts)) = read at hended
        generalize erase (ended (ending.shift d) (statement (ending.shift d) levels false)
          (σ.tokens (skipSeparators ts))) = read' at hended
        cases hended with
        | failed e => rfl
        | ok n rest =>
          have hrest : rest.length < ts.length := ended_shorter hnode
          simp only [programStatements_relocate σ ending levels rest]
          rfl
  · rw [hpeek, hpeek']
    rfl
termination_by ts.length

/-- A program is read as it is without the ends of lines that stand behind the end of a line. -/
theorem programStatements_dropBlankLines (ending : Ending) (levels : Nat) (ts : List Token) :
    programStatements ending levels (dropBlankLines false ts) =
      programStatements ending levels ts := by
  have hread := programStatements_relocate .dropBlankLines ending levels ts
  rw [ending.shift_zero, Program.shift_zero] at hread
  exact hread

/-- A program that is read to its end is read to its end so many lines further down, wherever the end
of the text is. -/
theorem programStatements_shift (d line line' : Int) (levels : Nat) (ts : List Token) {ns : List Node}
    (h : programStatements (.endOfText line) levels ts = ⟨ns, none⟩) :
    programStatements (.endOfText line') levels (shiftTokens d ts) =
      ⟨ns.map (Node.shift d), none⟩ := by
  have hread := programStatements_relocate (.shift d) (.endOfText line) levels ts
  rw [h] at hread
  exact programStatements_endOfText_line hread

end Statements

end Source

end ModuLang
