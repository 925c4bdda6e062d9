import ModuLang.Source.Parser

/-!
# The grammar

The phrases of the language and the trees that they stand for, as one relation between the tokens
of a phrase and its tree. A rule of the grammar is a constructor, so the relation says nothing of
the order in which a parser looks at the tokens, of lookahead or of errors.

A sum and a chain of properties group to the left. A statement carries whether it stands inside a
function, since only there may it be a `return`; the body of a conditional stands where the
conditional does, and the body of a function is inside it wherever the function stands.
-/

namespace ModuLang.Source

/-- The kinds of phrases; the flag says whether a phrase stands inside a function. -/
inductive Phrase where
  | expr
  | operand
  | term
  | reference
  | args
  | items
  | pair
  | pairs
  | members
  | params
  | stmt (inFunction : Bool)
  | stmts (inFunction : Bool)
  | body (inFunction : Bool)

/-- What a phrase of a kind stands for. -/
abbrev Phrase.Tree : Phrase → Type
  | .expr | .operand | .term | .reference | .stmt _ => Node
  | .args | .items | .stmts _ | .body _ => List Node
  | .pair => String × Node
  | .pairs | .members => List (String × Node)
  | .params => List String

/-- Whether all of some tokens are ends of lines. -/
def Newlines (ts : List Token) : Prop :=
  ∀ t ∈ ts, t.kind = .newline

/-- Whether a token separates statements. -/
def Token.Separates (t : Token) : Prop :=
  t.kind = .newline ∨ t.kind = .semicolon

theorem Token.Separates.kind_ne {t : Token} (h : t.Separates) : t.kind ≠ .endOfText := by
  rcases h with h | h
  · simp [h]
  · simp [h]

/-- Whether all of some tokens separate statements. -/
def Separators (ts : List Token) : Prop :=
  ∀ t ∈ ts, t.Separates

/-- Whether a token may name a variable: an identifier or a reserved word. -/
def Token.IsName (t : Token) : Prop :=
  t.kind ∈ [.identifier, .letWord, .fnWord, .importWord, .ifWord, .returnWord, .asWord]

/-- Whether a token may name a property of an object literal. -/
def Token.IsKey (t : Token) : Prop :=
  t.kind = .string ∨ t.IsName ∨ t.kind = .boolean

/-- The name that a token gives to a property of an object literal. -/
def Token.key (t : Token) : String :=
  if t.kind = .string then unquote t.text else t.text

/-- The operator of a sign between two operands. -/
def signOperator (sign : Token) : BinaryOperator :=
  if sign.kind = .plus then .add else .subtract

/-- The operator of a comparison. -/
def comparisonOperator (sign : Token) : BinaryOperator :=
  if sign.kind = .equal then .equal else .unequal

/-- The tokens of a phrase and its tree. -/
inductive Derives : (p : Phrase) → List Token → p.Tree → Prop where
  -- expr := operand (('+' | '-') operand)*
  | exprOperand {ts n} : Derives .operand ts n → Derives .expr ts n
  | exprSum {ts us l r} {sign : Token} : Derives .expr ts l →
      sign.kind = .plus ∨ sign.kind = .minus → Derives .operand us r →
      Derives .expr (ts ++ sign :: us) (.binary (signOperator sign) l r sign.line)
  -- operand := '-'* term
  | operandTerm {ts n} : Derives .term ts n → Derives .operand ts n
  | operandMinus {ts n} {sign : Token} : sign.kind = .minus → Derives .operand ts n →
      Derives .operand (sign :: ts) (.binary .subtract (.literal .null sign.line) n sign.line)
  -- term := number | float | boolean | STRING | object | reference
  | termNumber {t : Token} : t.kind = .number →
      Derives .term [t] (.literal (.int (Number.digitsValue t.text.toList)) t.line)
  | termFloat {t : Token} : t.kind = .float →
      Derives .term [t] (.literal (.float ((Number.readFloat? t.text).getD 0)) t.line)
  | termBoolean {t : Token} : t.kind = .boolean →
      Derives .term [t] (.literal (.bool (t.text = "true")) t.line)
  | termString {t : Token} : t.kind = .string → Derives .term [t] (.text ⟨t.text, t.line⟩)
  | termObject {ts ps} {brace close : Token} : brace.kind = .leftBrace → Derives .members ts ps →
      close.kind = .rightBrace →
      Derives .term (brace :: ts ++ [close]) (.record ps brace.line)
  | termReference {ts n} : Derives .reference ts n → Derives .term ts n
  -- reference := (IDENT | IDENT args) ('.' IDENT args?)*
  | bareName {t : Token} : t.kind = .identifier →
      Derives .reference [t] (.identifier t.text t.line)
  | call {ts as} {t : Token} : t.kind = .identifier → Derives .args ts as →
      Derives .reference (t :: ts) (.call t.text as t.line)
  | property {ts n} {dot name : Token} : Derives .reference ts n → dot.kind = .dot →
      name.kind = .identifier →
      Derives .reference (ts ++ [dot, name]) (.property n name.text name.line)
  | methodCall {ts us n as} {dot name : Token} : Derives .reference ts n → dot.kind = .dot →
      name.kind = .identifier → Derives .args us as →
      Derives .reference (ts ++ dot :: name :: us) (.methodCall n name.text as name.line)
  -- args := '(' nl* ')' | '(' nl* items ')'
  | noArgs {ns} {paren close : Token} : paren.kind = .leftParen → Newlines ns →
      close.kind = .rightParen → Derives .args (paren :: ns ++ [close]) []
  | someArgs {ns ts as} {paren close : Token} : paren.kind = .leftParen → Newlines ns →
      Derives .items ts as → close.kind = .rightParen →
      Derives .args (paren :: ns ++ ts ++ [close]) as
  -- items := expr nl* (',' nl* expr nl*)*
  | lastItem {ts ns n} : Derives .expr ts n → Newlines ns → Derives .items (ts ++ ns) [n]
  | moreItems {ts ns ms us n as} {comma : Token} : Derives .expr ts n → Newlines ns →
      comma.kind = .comma → Newlines ms → Derives .items us as →
      Derives .items (ts ++ ns ++ comma :: ms ++ us) (n :: as)
  -- pair := key ':' nl* expr nl*
  | pair {ns ts ms n} {key colon : Token} : key.IsKey → colon.kind = .colon → Newlines ns →
      Derives .expr ts n → Newlines ms →
      Derives .pair (key :: colon :: ns ++ ts ++ ms) (key.key, n)
  -- pairs := pair (',' nl* pair)*
  | lastPair {ts p} : Derives .pair ts p → Derives .pairs ts [p]
  | morePairs {ts ns us p ps} {comma : Token} : Derives .pair ts p → comma.kind = .comma →
      Newlines ns → Derives .pairs us ps → Derives .pairs (ts ++ comma :: ns ++ us) (p :: ps)
  -- members := nl* (pairs (',' nl*)?)?
  | noMembers {ns} : Newlines ns → Derives .members ns []
  | someMembers {ns ts ps} : Newlines ns → Derives .pairs ts ps → Derives .members (ns ++ ts) ps
  | membersComma {ns ts ms ps} {comma : Token} : Newlines ns → Derives .pairs ts ps →
      comma.kind = .comma → Newlines ms → Derives .members (ns ++ ts ++ comma :: ms) ps
  -- params := IDENT (',' IDENT)*
  | lastParam {t : Token} : t.kind = .identifier → Derives .params [t] [t.text]
  | moreParams {ts ps} {t comma : Token} : t.kind = .identifier → comma.kind = .comma →
      Derives .params ts ps → Derives .params (t :: comma :: ts) (t.text :: ps)
  -- stmt := 'let' NAME '=' expr
  | binding {f ts n} {word name sign : Token} : word.kind = .letWord → name.IsName →
      sign.kind = .assign → Derives .expr ts n →
      Derives (.stmt f) (word :: name :: sign :: ts) (.binding name.text n word.line)
  -- stmt := 'import' STRING ('as' (IDENT | '*'))?
  | importing {f} {word target : Token} : word.kind = .importWord → target.kind = .string →
      Derives (.stmt f) [word, target] (.importing ⟨target.text, target.line⟩ none word.line)
  | importingAs {f} {word target asWord chosen : Token} : word.kind = .importWord →
      target.kind = .string → asWord.kind = .asWord →
      chosen.kind = .identifier ∨ chosen.kind = .star →
      Derives (.stmt f) [word, target, asWord, chosen]
        (.importing ⟨target.text, target.line⟩ (some chosen.text) word.line)
  -- stmt := 'fn' IDENT '(' params? ')' body
  | definition {f us body} {word name paren close : Token} : word.kind = .fnWord →
      name.kind = .identifier → paren.kind = .leftParen → close.kind = .rightParen →
      Derives (.body true) us body →
      Derives (.stmt f) (word :: name :: paren :: close :: us)
        (.definition name.text [] body word.line)
  | definitionParams {f ts us params body} {word name paren close : Token} : word.kind = .fnWord →
      name.kind = .identifier → paren.kind = .leftParen → Derives .params ts params →
      close.kind = .rightParen → Derives (.body true) us body →
      Derives (.stmt f) (word :: name :: paren :: ts ++ close :: us)
        (.definition name.text params body word.line)
  -- stmt := 'if' expr (('==' | '!=') expr)? body
  | conditional {f ts us n body} {word : Token} : word.kind = .ifWord → Derives .expr ts n →
      Derives (.body f) us body →
      Derives (.stmt f) (word :: ts ++ us) (.conditional (.isPresent n word.line) body word.line)
  | conditionalComparison {f ts us vs l r body} {word sign : Token} : word.kind = .ifWord →
      Derives .expr ts l → sign.kind = .equal ∨ sign.kind = .unequal → Derives .expr us r →
      Derives (.body f) vs body →
      Derives (.stmt f) (word :: ts ++ sign :: us ++ vs)
        (.conditional (.binary (comparisonOperator sign) l r word.line) body word.line)
  -- stmt := 'return' expr?, inside a function
  | returning {word : Token} : word.kind = .returnWord →
      Derives (.stmt true) [word] (.returning none word.line)
  | returningValue {ts n} {word : Token} : word.kind = .returnWord → Derives .expr ts n →
      Derives (.stmt true) (word :: ts) (.returning (some n) word.line)
  -- stmt := expr
  | expression {f ts n} : Derives .expr ts n → Derives (.stmt f) ts n
  -- stmts := sep* (stmt (sep+ stmt)* sep*)?
  | noStmts {f ss} : Separators ss → Derives (.stmts f) ss []
  | lastStmt {f ss ts n} : Separators ss → Derives (.stmt f) ts n →
      Derives (.stmts f) (ss ++ ts) [n]
  | moreStmts {f ss ts us n ns} {sep : Token} : Separators ss → Derives (.stmt f) ts n →
      sep.Separates → Derives (.stmts f) us ns → Derives (.stmts f) (ss ++ ts ++ sep :: us) (n :: ns)
  -- body := '{' stmts '}'
  | body {f ts ns} {brace close : Token} : brace.kind = .leftBrace → Derives (.stmts f) ts ns →
      close.kind = .rightBrace → Derives (.body f) (brace :: ts ++ [close]) ns

end ModuLang.Source
