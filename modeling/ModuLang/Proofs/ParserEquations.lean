import ModuLang.Source.Parser

/-!
# The parser without its bounds

A step of the parser gives what it read together with a proof that fewer tokens are left, and that
proof stands in the type of the result. `erase` forgets it. The equations here say what each step
does in terms of the erased results of the steps that it takes, so that a proof about the parser can
rewrite the tokens that a step is given.
-/

namespace ModuLang.Source

/-- What a step read and what it left. -/
def erase {α : Type} {b : Nat} (r : Except Failure (Parsed α b)) :
    Except Failure (α × List Token) :=
  r.map fun p => (p.value, p.rest)

/-- What a step read and what it left, if it read anything. -/
def eraseOption {α : Type} {b : Nat} (r : Except Failure (Option (Parsed α b))) :
    Except Failure (Option (α × List Token)) :=
  r.map (Option.map fun p => (p.value, p.rest))

/-- A computation that ends well took both of its steps. -/
theorem bind_eq_ok {ε α β : Type} {x : Except ε α} {f : α → Except ε β} {b : β} :
    (x >>= f) = .ok b ↔ ∃ a, x = .ok a ∧ f a = .ok b := by
  cases x with
  | error e => simp [bind, Except.bind]
  | ok a => simp [bind, Except.bind]

@[simp]
theorem ok_bind {ε α β : Type} (a : α) (f : α → Except ε β) : (Except.ok a >>= f) = f a := rfl

@[simp]
theorem error_bind {ε α β : Type} (e : ε) (f : α → Except ε β) :
    (Except.error e >>= f) = .error e := rfl

section Erase

variable {α β γ : Type} {b c : Nat}

@[simp]
theorem erase_pure (p : Parsed α b) : erase (pure p) = .ok (p.value, p.rest) := rfl

/-- Erasing one step after another. -/
theorem erase_bind {x : Except Failure (Parsed α b)} {f : Parsed α b → Except Failure (Parsed β c)}
    {g : α × List Token → Except Failure (β × List Token)}
    (h : ∀ p, erase (f p) = g (p.value, p.rest)) : erase (x >>= f) = erase x >>= g := by
  cases x with
  | error e => rfl
  | ok p => exact h p

/-- Erasing a step after a look at the next token. -/
theorem erase_bind_option {x : Except Failure (Option (Parsed α b))}
    {f : Option (Parsed α b) → Except Failure (Parsed β c)}
    {g : Option (α × List Token) → Except Failure (β × List Token)} (hnone : erase (f none) = g none)
    (hsome : ∀ p, erase (f (some p)) = g (some (p.value, p.rest))) :
    erase (x >>= f) = eraseOption x >>= g := by
  cases x with
  | error e => rfl
  | ok p =>
    cases p with
    | none => exact hnone
    | some p => exact hsome p

/-- Erasing a step after a computation that uses no token. -/
theorem erase_bind_plain {x : Except Failure γ} {f : γ → Except Failure (Parsed β c)} :
    erase (x >>= f) = x >>= fun a => erase (f a) := by
  cases x with
  | error e => rfl
  | ok a => rfl

/-- A step whose result is only widened. -/
theorem erase_widen {x : Except Failure (Parsed α b)} (hle : b ≤ c) :
    erase (x >>= fun p => pure (p.widen hle)) = erase x := by
  cases x with
  | error e => rfl
  | ok p => rfl

end Erase

variable {ending : Ending} {expr operandStep stmt : Parser Node} {ts : List Token}

/-! ### The next token -/

/-- Looking for a token that is there. -/
theorem eraseOption_accept_cons (wanted : TokenKind → Bool) (t : Token) (rest : List Token) :
    eraseOption (accept ending wanted (t :: rest)) =
      .ok (if wanted t.kind then some (t, rest) else none) := by
  unfold accept
  by_cases hw : wanted t.kind = true
  · simp [eraseOption, Except.map, hw]
  · simp [eraseOption, Except.map, hw]

/-- Looking for a token at the end. -/
theorem eraseOption_accept_nil (wanted : TokenKind → Bool) :
    eraseOption (accept ending wanted []) = (peek ending []).map fun _ => none := by
  unfold accept eraseOption
  cases peek ending [] with
  | error e => rfl
  | ok t => rfl

/-- Requiring a token that is there. -/
theorem erase_expect_cons (wanted : TokenKind → Bool) (what : Expectation) (t : Token)
    (rest : List Token) :
    erase (expect ending wanted what (t :: rest)) =
      if wanted t.kind then .ok (t, rest) else failAt (.expected what t.describe) t.line := by
  unfold expect accept
  by_cases hw : wanted t.kind = true
  · simp [hw, erase, Except.map, pure, Except.pure]
  · simp [hw, erase, Except.map, peek, failAt]

/-- Requiring a token at the end. -/
theorem erase_expect_nil (wanted : TokenKind → Bool) (what : Expectation) :
    erase (expect ending wanted what []) =
      peek ending [] >>= fun t => failAt (.expected what t.describe) t.line := by
  unfold expect accept
  cases h : peek ending [] with
  | error e => rfl
  | ok t => simp [Except.map, erase, failAt]

/-! ### Expressions -/

/-- The arguments of a call: one, and then the next one or the closing bracket. -/
theorem erase_arguments :
    erase (arguments ending expr ts) =
      erase (expr (skipNewlines ts)) >>= fun arg =>
      erase (expect ending (fun k => k == .comma || k == .rightParen) .argumentEnd
        (skipNewlines arg.2)) >>= fun close =>
      if close.1.kind = .comma then
        erase (arguments ending expr close.2) >>= fun more => .ok (arg.1 :: more.1, more.2)
      else .ok ([arg.1], close.2) := by
  conv => lhs; unfold arguments
  refine erase_bind fun arg => erase_bind fun close => ?_
  split
  · exact erase_bind fun more => rfl
  · rfl

/-- The arguments behind an opening bracket, where there may be none. -/
theorem erase_argumentList :
    erase (argumentList ending expr ts) =
      eraseOption (accept ending (· == .rightParen) (skipNewlines ts)) >>= fun
        | some close => .ok ([], close.2)
        | none => erase (arguments ending expr ts) := by
  unfold argumentList
  exact erase_bind_option rfl fun close => rfl

/-- A chain of properties goes on at each dot. -/
theorem erase_propertyChain (object : Node) :
    erase (propertyChain ending expr object ts) =
      eraseOption (accept ending (· == .dot) ts) >>= fun
        | none => .ok (object, ts)
        | some dot =>
          erase (expect ending (· == .identifier) .propertyName dot.2) >>= fun name =>
          eraseOption (accept ending (· == .leftParen) name.2) >>= fun
            | none =>
              erase (propertyChain ending expr (.property object name.1.text name.1.line) name.2)
            | some paren =>
              erase (argumentList ending expr paren.2) >>= fun args =>
              erase (propertyChain ending expr
                (.methodCall object name.1.text args.1 name.1.line) args.2) := by
  conv => lhs; unfold propertyChain
  refine erase_bind_option rfl fun dot => erase_bind fun name => erase_bind_option ?_ fun paren => ?_
  · exact erase_widen _
  · exact erase_bind fun args => erase_widen _

/-- The body of an object literal: its closing brace, or a property and what follows it. -/
theorem erase_recordBody :
    erase (recordBody ending expr ts) =
      erase (expect ending
        (fun k => k == .rightBrace || k == .string || isNameKind k || k == .boolean) .literalKey
        (skipNewlines ts)) >>= fun first =>
      if first.1.kind = .rightBrace then .ok ([], first.2)
      else
        let key := if first.1.kind = .string then unquote first.1.text else first.1.text
        erase (expect ending (· == .colon) (.literalColon key) first.2) >>= fun colon =>
        erase (expr (skipNewlines colon.2)) >>= fun value =>
        erase (expect ending (fun k => k == .comma || k == .rightBrace) .literalEnd
          (skipNewlines value.2)) >>= fun close =>
        if close.1.kind = .comma then
          erase (recordBody ending expr close.2) >>= fun more =>
          .ok ((key, value.1) :: more.1, more.2)
        else .ok ([(key, value.1)], close.2) := by
  conv => lhs; unfold recordBody
  refine erase_bind fun first => ?_
  split
  · rfl
  · refine erase_bind fun colon => erase_bind fun value => erase_bind fun close => ?_
    split
    · exact erase_bind fun more => rfl
    · rfl

/-- What a name is followed by: arguments make it a call. -/
theorem erase_term_identifier {t : Token} {rest : List Token} (ht : t.kind = .identifier) :
    erase (term ending expr (t :: rest)) =
      eraseOption (accept ending (· == .leftParen) rest) >>= fun
        | none => erase (propertyChain ending expr (.identifier t.text t.line) rest)
        | some paren =>
          erase (argumentList ending expr paren.2) >>= fun args =>
          erase (propertyChain ending expr (.call t.text args.1 t.line) args.2) := by
  unfold term
  simp only [accept, ht, startsTerm, if_true, ok_bind]
  refine erase_bind_option ?_ fun paren => ?_
  · exact erase_widen _
  · exact erase_bind fun args => erase_widen _

/-- An opening brace begins an object literal. -/
theorem erase_term_leftBrace {t : Token} {rest : List Token} (ht : t.kind = .leftBrace) :
    erase (term ending expr (t :: rest)) =
      erase (recordBody ending expr rest) >>= fun ps => .ok (.record ps.1 t.line, ps.2) := by
  unfold term
  simp only [accept, ht, startsTerm, if_true, ok_bind]
  exact erase_bind fun ps => rfl

/-- The literal that a single token stands for. -/
def literalOf? (t : Token) : Option Node :=
  match t.kind with
  | .number => some (.literal (.int (Number.digitsValue t.text.toList)) t.line)
  | .float => some (.literal (.float ((Number.readFloat? t.text).getD 0)) t.line)
  | .boolean => some (.literal (.bool (t.text = "true")) t.line)
  | .string => some (.text ⟨t.text, t.line⟩)
  | _ => none

/-- A literal is a single token. -/
theorem erase_term_literal {t : Token} {n : Node} {rest : List Token} (ht : literalOf? t = some n) :
    erase (term ending expr (t :: rest)) = .ok (n, rest) := by
  unfold literalOf? at ht
  unfold term
  split at ht <;> simp_all [accept, startsTerm]

/-- No other token begins an operand. -/
theorem erase_term_other (h : ∀ t rest, ts = t :: rest → startsTerm t.kind = false) :
    erase (term ending expr ts) =
      peek ending ts >>= fun t => failAt (.expectedExpression t.describe) t.line := by
  unfold term
  cases ts with
  | nil =>
    unfold accept
    cases peek ending [] with
    | error e => rfl
    | ok t => rfl
  | cons t rest => simp [accept, h t rest rfl, peek, failAt, erase, Except.map]

/-- A sum goes on at each sign. -/
theorem erase_sumChain (left : Node) :
    erase (sumChain ending operandStep left ts) =
      eraseOption (accept ending (fun k => k == .plus || k == .minus) ts) >>= fun
        | none => .ok (left, ts)
        | some sign =>
          erase (operandStep sign.2) >>= fun right =>
          erase (sumChain ending operandStep
            (.binary (if sign.1.kind = .plus then .add else .subtract) left right.1 sign.1.line)
            right.2) := by
  conv => lhs; unfold sumChain
  refine erase_bind_option rfl fun sign => erase_bind fun right => ?_
  exact erase_widen _

/-- A sum begins with an operand. -/
theorem erase_sum :
    erase (sum ending operandStep ts) =
      erase (operandStep ts) >>= fun first =>
      erase (sumChain ending operandStep first.1 first.2) := by
  unfold sum
  exact erase_bind fun first => erase_widen _

/-- An operand without levels left is a stack overflow. -/
theorem erase_operand_zero :
    erase (operand ending 0 ts) = .error (.crash .stackOverflow) := rfl

/-- An operand is a term behind any number of signs. -/
theorem erase_operand_succ (levels : Nat) :
    erase (operand ending (levels + 1) ts) =
      eraseOption (accept ending (· == .minus) ts) >>= fun
        | none => erase (term ending (expression ending levels) ts)
        | some sign =>
          erase (operand ending levels sign.2) >>= fun inner =>
          .ok (.binary .subtract (.literal .null sign.1.line) inner.1 sign.1.line, inner.2) := by
  conv => lhs; unfold operand
  refine erase_bind_option rfl fun sign => ?_
  exact erase_bind fun inner => rfl

/-! ### Statements -/

/-- A statement must be followed by what ends one. -/
theorem erase_ended :
    erase (ended ending stmt ts) =
      erase (stmt ts) >>= fun node =>
      peek ending node.2 >>= fun t =>
      if endsStatement t.kind then .ok node
      else failAt (.expected .endOfStatement t.describe) t.line := by
  unfold ended
  refine erase_bind fun node => ?_
  rw [erase_bind_plain]
  congr 1
  funext t
  split <;> rfl

/-- The statements of a body: its closing brace, or a statement and what follows it. -/
theorem erase_bodyStatements (openLine : Int) :
    erase (bodyStatements ending stmt openLine ts) =
      eraseOption (accept ending (· == .rightBrace) (skipSeparators ts)) >>= fun
        | some close => .ok ([], close.2)
        | none =>
          peek ending (skipSeparators ts) >>= fun t =>
          if t.kind = .endOfText then failAt (.bodyNotClosed openLine) t.line
          else
            erase (ended ending stmt (skipSeparators ts)) >>= fun node =>
            erase (bodyStatements ending stmt openLine node.2) >>= fun more =>
            .ok (node.1 :: more.1, more.2) := by
  conv => lhs; unfold bodyStatements
  refine erase_bind_option ?_ fun close => rfl
  rw [erase_bind_plain]
  congr 1
  funext t
  split
  · rfl
  · exact erase_bind fun node => erase_bind fun more => rfl

/-- A body stands between braces. -/
theorem erase_body :
    erase (body ending stmt ts) =
      erase (expect ending (· == .leftBrace) .bodyStart ts) >>= fun brace =>
      erase (bodyStatements ending stmt brace.1.line brace.2) := by
  unfold body
  exact erase_bind fun brace => erase_widen _

/-- A binding: a name, the sign and an expression. -/
theorem erase_letStatement (word : Token) :
    erase (letStatement ending expr word ts) =
      erase (expect ending isNameKind .variableName ts) >>= fun name =>
      erase (expect ending (· == .assign) (.assignmentTo name.1.text) name.2) >>= fun sign =>
      erase (expr sign.2) >>= fun value =>
      .ok (.binding name.1.text value.1 word.line, value.2) := by
  unfold letStatement
  exact erase_bind fun name => erase_bind fun sign => erase_bind fun value => rfl

/-- An import: its target, and the name that is chosen for it if there is one. -/
theorem erase_importStatement (word : Token) :
    erase (importStatement ending word ts) =
      erase (expect ending (· == .string) .importTarget ts) >>= fun target =>
      eraseOption (accept ending (· == .asWord) target.2) >>= fun
        | none => .ok (.importing ⟨target.1.text, target.1.line⟩ none word.line, target.2)
        | some asWord =>
          erase (expect ending (fun k => k == .identifier || k == .star) .importAlias
            asWord.2) >>= fun chosen =>
          .ok (.importing ⟨target.1.text, target.1.line⟩ (some chosen.1.text) word.line,
            chosen.2) := by
  unfold importStatement
  refine erase_bind fun target => erase_bind_option rfl fun asWord => ?_
  exact erase_bind fun chosen => rfl

/-- The parameters of a function: one, and then the next one behind a comma. -/
theorem erase_parameters :
    erase (parameters ending ts) =
      erase (expect ending (· == .identifier) .parameterName ts) >>= fun name =>
      eraseOption (accept ending (· == .comma) name.2) >>= fun
        | none => .ok ([name.1.text], name.2)
        | some comma =>
          erase (parameters ending comma.2) >>= fun more =>
          .ok (name.1.text :: more.1, more.2) := by
  conv => lhs; unfold parameters
  refine erase_bind fun name => erase_bind_option rfl fun comma => ?_
  exact erase_bind fun more => rfl

/-- The parameters behind an opening bracket, where there may be none. -/
theorem erase_parameterList :
    erase (parameterList ending ts) =
      eraseOption (accept ending (· == .rightParen) ts) >>= fun
        | some close => .ok ([], close.2)
        | none =>
          erase (parameters ending ts) >>= fun names =>
          erase (expect ending (· == .rightParen) .endOfParameters names.2) >>= fun close =>
          .ok (names.1, close.2) := by
  unfold parameterList
  refine erase_bind_option ?_ fun close => rfl
  exact erase_bind fun names => erase_bind fun close => rfl

/-- The definition of a function: its name, its parameters and its body. -/
theorem erase_functionStatement (word : Token) :
    erase (functionStatement ending stmt word ts) =
      erase (expect ending (· == .identifier) .functionName ts) >>= fun name =>
      erase (expect ending (· == .leftParen) (.parameterList name.1.text) name.2) >>= fun paren =>
      erase (parameterList ending paren.2) >>= fun params =>
      erase (body ending stmt params.2) >>= fun statements =>
      .ok (.definition name.1.text params.1 statements.1 word.line, statements.2) := by
  unfold functionStatement
  exact erase_bind fun name => erase_bind fun paren => erase_bind fun params =>
    erase_bind fun statements => rfl

/-- What follows the left side of a condition: nothing, or a comparison and its right side. -/
def comparisonFrom (ending : Ending) (expr : Parser Node) (line : Int) (left : Node × List Token) :
    Except Failure (Node × List Token) :=
  eraseOption (accept ending (fun k => k == .equal || k == .unequal) left.2) >>= fun
    | none => .ok (.isPresent left.1 line, left.2)
    | some sign =>
      erase (expr sign.2) >>= fun right =>
      .ok (.binary (if sign.1.kind = .equal then .equal else .unequal) left.1 right.1 line,
        right.2)

/-- A condition: an expression, or two with a comparison between them. -/
theorem erase_condition (line : Int) :
    erase (condition ending expr line ts) =
      erase (expr ts) >>= comparisonFrom ending expr line := by
  unfold condition
  refine erase_bind fun left => erase_bind_option rfl fun sign => ?_
  exact erase_bind fun right => rfl

/-- A conditional: its condition and its body. -/
theorem erase_ifStatement (word : Token) :
    erase (ifStatement ending expr stmt word ts) =
      erase (condition ending expr word.line ts) >>= fun test =>
      erase (body ending stmt test.2) >>= fun statements =>
      .ok (.conditional test.1 statements.1 word.line, statements.2) := by
  unfold ifStatement
  exact erase_bind fun test => erase_bind fun statements => rfl

/-- A return outside of a function is refused; its value may be left out. -/
theorem erase_returnStatement (inFunction : Bool) (word : Token) :
    erase (returnStatement ending expr inFunction word ts) =
      if inFunction = false then failAt .returnOutsideFunction word.line
      else
        peek ending ts >>= fun t =>
        if endsStatement t.kind then .ok (.returning none word.line, ts)
        else erase (expr ts) >>= fun value => .ok (.returning (some value.1) word.line, value.2) := by
  unfold returnStatement
  cases inFunction with
  | false => rfl
  | true =>
    simp only [Bool.not_true, Bool.false_eq_true, if_false, Bool.true_eq_false]
    rw [erase_bind_plain]
    congr 1
    funext t
    split
    · rfl
    · exact erase_bind fun value => rfl

/-- A statement without levels left is a stack overflow. -/
theorem erase_statement_zero (inFunction : Bool) :
    erase (statement ending 0 inFunction ts) = .error (.crash .stackOverflow) := rfl

/-- The steps that a statement takes behind its first token, by the kind of that token. -/
def statementBehind (ending : Ending) (levels : Nat) (inFunction : Bool) (word : Token)
    (rest : List Token) : Except Failure (Node × List Token) :=
  match word.kind with
  | .letWord => erase (letStatement ending (expression ending levels) word rest)
  | .importWord => erase (importStatement ending word rest)
  | .fnWord => erase (functionStatement ending (statement ending levels true) word rest)
  | .ifWord =>
    erase (ifStatement ending (expression ending levels) (statement ending levels inFunction)
      word rest)
  | _ => erase (returnStatement ending (expression ending levels) inFunction word rest)

/-- A statement is told by its first token, and is an expression if that is no word of its own. -/
theorem erase_statement_succ (levels : Nat) (inFunction : Bool) :
    erase (statement ending (levels + 1) inFunction ts) =
      eraseOption (accept ending startsStatement ts) >>= fun
        | none => erase (expression ending levels ts)
        | some first => statementBehind ending levels inFunction first.1 first.2 := by
  conv => lhs; unfold statement
  refine erase_bind_option rfl fun first => ?_
  simp only [statementBehind]
  generalize first.value.kind = k
  cases k <;> exact erase_widen _

/-! ### Programs -/

/-- The statements of a program: what ends it, or a statement and what follows it. -/
theorem programStatements_eq (levels : Nat) :
    programStatements ending levels ts =
      match peek ending (skipSeparators ts) with
      | .error failure => ⟨[], some failure⟩
      | .ok t =>
        if t.kind = .endOfText then ⟨[], none⟩
        else if t.kind = .rightBrace then ⟨[], some (.fault ⟨.strayBrace, t.line⟩)⟩
        else
          match erase (ended ending (statement ending levels false) (skipSeparators ts)) with
          | .error failure => ⟨[], some failure⟩
          | .ok node =>
            let more := programStatements ending levels node.2
            ⟨node.1 :: more.statements, more.failure⟩ := by
  conv => lhs; unfold programStatements
  cases peek ending (skipSeparators ts) with
  | error failure => rfl
  | ok t =>
    simp only
    cases ended ending (statement ending levels false) (skipSeparators ts) with
    | error failure => rfl
    | ok node => rfl

/-- How a text ends behind its tokens. -/
def endingOf (tokens : List Token) (failure : Option Failure) : Ending :=
  match failure with
  | some failure => .failed failure
  | none => .endOfText ((tokens.getLast?.map Token.line).getD 0)

theorem parse_eq [Host.Limits] (source : String) :
    parse source = programStatements (endingOf (tokenize source).1 (tokenize source).2) stackLimit
      (tokenize source).1 :=
  rfl

/-- A separator in front of statements is skipped. -/
theorem skipSeparators_cons {t : Token} (ht : t.kind = .newline ∨ t.kind = .semicolon) :
    skipSeparators (t :: ts) = skipSeparators ts := by
  unfold skipSeparators
  rw [List.dropWhile_cons_of_pos (by simpa using ht)]

end ModuLang.Source
