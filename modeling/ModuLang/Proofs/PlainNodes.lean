import ModuLang.Proofs.ParserSoundness

/-!
# Literals

A literal node holds a value, and that value could be an object. In a program that was read from a
text it never is: all its literals are primitive. `Node.Plain` says so of a node and of all nodes
inside it. What more there is to say of the literals of a text comes from its tokens: a literal is a
null, a boolean or a float, or it is the integer that a token spells. `Node.Literals` is about any
condition on them.
-/

namespace ModuLang

/-- Whether a value is neither an object nor a function. -/
def Value.IsPrimitive : Value → Prop
  | .null | .bool _ | .int _ | .float _ | .str _ => True
  | _ => False

/-- Whether all literals in a node are primitive. -/
inductive Node.Plain : Node → Prop where
  | intro {n : Node} (hliteral : ∀ v line, n = .literal v line → v.IsPrimitive)
      (hchildren : ∀ c ∈ n.children, c.Plain) : Plain n

theorem Node.Plain.children {n c : Node} (h : n.Plain) (hc : c ∈ n.children) : c.Plain := by
  cases h with
  | intro _ hchildren => exact hchildren c hc

theorem Node.Plain.primitive {v : Value} {line : Int} (h : (Node.literal v line).Plain) :
    v.IsPrimitive := by
  cases h with
  | intro hliteral _ => exact hliteral v line rfl

/-- A node that is no literal is plain if the nodes inside it are. -/
theorem Node.plain_of_children {n : Node} (hn : ∀ v line, n ≠ .literal v line)
    (h : ∀ c ∈ n.children, c.Plain) : n.Plain :=
  .intro (fun v line heq => absurd heq (hn v line)) h

/-- Whether all literals in a node satisfy a condition. -/
inductive Node.Literals (L : Value → Prop) : Node → Prop where
  | intro {n : Node} (hliteral : ∀ v line, n = .literal v line → L v)
      (hchildren : ∀ c ∈ n.children, c.Literals L) : Literals L n

namespace Node

variable {L : Value → Prop} {n c : Node} {v : Value}

theorem Literals.children (h : n.Literals L) (hc : c ∈ n.children) : c.Literals L := by
  cases h with
  | intro _ hchildren => exact hchildren c hc

theorem Literals.literal {line : Int} (h : (Node.literal v line).Literals L) : L v := by
  cases h with
  | intro hliteral _ => exact hliteral v line rfl

/-- A node whose literals are primitive is plain. -/
theorem Literals.plain (h : n.Literals L) (hL : ∀ v, L v → v.IsPrimitive) : n.Plain := by
  induction h with
  | intro hliteral _ ih => exact .intro (fun v line heq => hL v (hliteral v line heq)) ih

theorem literals_literal (hv : L v) (line : Int) : (Node.literal v line).Literals L := by
  refine .intro (fun w l h => ?_) fun c hc => absurd hc List.not_mem_nil
  cases h
  exact hv

theorem literals_of_children (hn : ∀ v line, n ≠ .literal v line)
    (h : ∀ c ∈ n.children, c.Literals L) : n.Literals L :=
  .intro (fun v line heq => absurd heq (hn v line)) h

theorem literals_binary {op : BinaryOperator} {l r : Node} (hl : l.Literals L) (hr : r.Literals L)
    (line : Int) : (Node.binary op l r line).Literals L := by
  refine literals_of_children (by simp) fun c hc => ?_
  rcases List.mem_cons.mp hc with rfl | hc
  · exact hl
  · rw [List.mem_singleton.mp hc]
    exact hr

end Node

namespace Source

/-- What a phrase stands for has only nodes in it whose literals satisfy a condition. -/
def Phrase.LiteralsIn (L : Value → Prop) : (p : Phrase) → p.Tree → Prop
  | .expr, n | .operand, n | .term, n | .reference, n | .stmt _, n => Node.Literals L n
  | .args, ns | .items, ns | .stmts _, ns | .body _, ns => ∀ n ∈ ns, Node.Literals L n
  | .pair, p => p.2.Literals L
  | .pairs, ps | .members, ps => ∀ p ∈ ps, p.2.Literals L
  | .params, _ => True

/-- Whether the integers that some tokens spell satisfy a condition. -/
def NumbersIn (L : Value → Prop) (ts : List Token) : Prop :=
  ∀ t ∈ ts, t.kind = .number → L (.int (Number.digitsValue t.text.toList))

theorem NumbersIn.subset {L : Value → Prop} {ts us : List Token} (h : NumbersIn L ts)
    (hsub : us ⊆ ts) : NumbersIn L us :=
  fun t ht => h t (hsub ht)

/-- The literals in the trees of the grammar satisfy what the integers of the tokens do, and all other
values that a literal can have. -/
theorem Derives.literals {L : Value → Prop} (hnull : L .null) (hfloat : ∀ x, L (.float x))
    (hbool : ∀ b, L (.bool b)) {p : Phrase} {ts : List Token} {v : p.Tree} (h : Derives p ts v)
    (hnumbers : NumbersIn L ts) : p.LiteralsIn L v := by
  induction h with
  -- A literal comes from a token; every other node is judged by its parts.
  | exprOperand _ ih | operandTerm _ ih | termReference _ ih | expression _ ih => exact ih hnumbers
  | exprSum _ _ _ ihl ihr =>
    exact Node.literals_binary (ihl (hnumbers.subset (by grind))) (ihr (hnumbers.subset (by grind))) _
  | operandMinus _ _ ih =>
    exact Node.literals_binary (Node.literals_literal hnull _) (ih (hnumbers.subset (by grind))) _
  | termNumber ht => exact Node.literals_literal (hnumbers _ (by simp) ht) _
  | termFloat => exact Node.literals_literal (hfloat _) _
  | termBoolean => exact Node.literals_literal (hbool _) _
  | termString | bareName | importing | importingAs | returning =>
    exact Node.literals_of_children (by simp) fun c hc => absurd hc List.not_mem_nil
  | termObject _ _ _ ih =>
    refine Node.literals_of_children (by simp) fun c hc => ?_
    obtain ⟨p, hp, rfl⟩ := List.mem_map.mp hc
    exact ih (hnumbers.subset (by grind)) p hp
  | call _ _ ih => exact Node.literals_of_children (by simp) (ih (hnumbers.subset (by grind)))
  | property _ _ _ ih =>
    refine Node.literals_of_children (by simp) fun c hc => ?_
    rw [List.mem_singleton.mp hc]
    exact ih (hnumbers.subset (by grind))
  | methodCall _ _ _ _ ih iha =>
    refine Node.literals_of_children (by simp) fun c hc => ?_
    rcases List.mem_cons.mp hc with rfl | hc
    · exact ih (hnumbers.subset (by grind))
    · exact iha (hnumbers.subset (by grind)) c hc
  | noArgs | noStmts => exact fun n hn => absurd hn List.not_mem_nil
  | noMembers => exact fun n hn => absurd hn List.not_mem_nil
  | someArgs _ _ _ _ ih | someMembers _ _ ih | membersComma _ _ _ _ ih | body _ _ _ ih =>
    exact ih (hnumbers.subset (by grind))
  | lastItem _ _ ih | lastPair _ ih | lastStmt _ _ ih =>
    intro n hn
    rw [List.mem_singleton.mp hn]
    exact ih (hnumbers.subset (by grind))
  | moreItems _ _ _ _ _ ih ihmore | morePairs _ _ _ _ ih ihmore | moreStmts _ _ _ _ ih ihmore =>
    intro n hn
    rcases List.mem_cons.mp hn with rfl | hn
    · exact ih (hnumbers.subset (by grind))
    · exact ihmore (hnumbers.subset (by grind)) n hn
  | pair _ _ _ _ _ ih => exact ih (hnumbers.subset (by grind))
  | lastParam | moreParams => trivial
  | binding _ _ _ _ ih | returningValue _ _ ih =>
    refine Node.literals_of_children (by simp) fun c hc => ?_
    rw [List.mem_singleton.mp hc]
    exact ih (hnumbers.subset (by grind))
  | definition _ _ _ _ _ ih | definitionParams _ _ _ _ _ _ _ ih =>
    exact Node.literals_of_children (by simp) (ih (hnumbers.subset (by grind)))
  | conditional _ _ _ ih ihb =>
    refine Node.literals_of_children (by simp) fun c hc => ?_
    rcases List.mem_cons.mp hc with rfl | hc
    · refine Node.literals_of_children (by simp) fun c hc => ?_
      rw [List.mem_singleton.mp hc]
      exact ih (hnumbers.subset (by grind))
    · exact ihb (hnumbers.subset (by grind)) c hc
  | conditionalComparison _ _ _ _ _ ihl ihr ihb =>
    refine Node.literals_of_children (by simp) fun c hc => ?_
    rcases List.mem_cons.mp hc with rfl | hc
    · exact Node.literals_binary (ihl (hnumbers.subset (by grind))) (ihr (hnumbers.subset (by grind))) _
    · exact ihb (hnumbers.subset (by grind)) c hc

variable [Host.Limits]

/-- The literals in the statements that are read from a text satisfy what the integers of its tokens
do. -/
theorem parse_literals {L : Value → Prop} (hnull : L .null) (hfloat : ∀ x, L (.float x))
    (hbool : ∀ b, L (.bool b)) {source : String} (hnumbers : NumbersIn L (tokenize source).1) :
    ∀ n ∈ (parse source).statements, n.Literals L := by
  intro n hn
  obtain ⟨used, hused, hsub⟩ := programStatements_forall stackLimit _ n hn
  exact hused.literals hnull hfloat hbool (hnumbers.subset hsub)

/-- The statements that are read from a text are plain. -/
theorem parse_plain (source : String) : ∀ n ∈ (parse source).statements, n.Plain := by
  have hnumbers : NumbersIn Value.IsPrimitive (tokenize source).1 := fun _ _ _ => trivial
  intro n hn
  exact (parse_literals trivial (fun _ => trivial) (fun _ => trivial) hnumbers n hn).plain fun _ hv => hv

end Source

end ModuLang
