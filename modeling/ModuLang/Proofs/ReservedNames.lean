import ModuLang.Proofs.FileImports
import ModuLang.Proofs.VisitedMachines

/-!
# Reserved names

A `let` refuses the names that the language reserves, and the word `null` stands for nothing because
nothing is bound to it. But a definition, the parameters of a function and the name of an import are
not checked. `reserved_names_unbound_iff` says that these are the only ways: on all machines that a
run gets to, no reserved name is bound exactly if none of its nodes binds one in such a way, and
then `null` is null wherever it is evaluated.

Left to right each way shows on a machine of the run. Right to left, the absence of reserved names
is a condition on names, which clones and `*` imports keep, and so does what a package has.
-/

namespace ModuLang

open Eval

variable {ev : Evaluator} {config : Config} {m m' : Machine} {name : String}

/-- Whether no reserved name is bound on a machine. -/
def Machine.KeepsReserved (m : Machine) : Prop :=
  ∀ name, isReservedName name = true → m.env.get? name = none

/-- Whether a node of a run binds a reserved name. -/
def RunBindsReserved [Host.Limits] (config : Config) (source : String) (m : Machine) : Prop :=
  ∃ levels p name, Evaluates config source m (levels + 1) p ∧
    BindsName (evaluate levels) p.config p.machine p.node name ∧ isReservedName name = true

/-! ### Names that are bound -/

theorem isSome_get?_bindParameters {e : Environment} {names : List String} {values : List Value}
    (h : name ∈ names) : ((bindParameters e names values).get? name).isSome := by
  obtain ⟨i, hi, hstays⟩ := exists_staysBound h
  rw [get?_bindParameters hi hstays]
  rfl

/-- A parameter is bound where the body of a call starts. -/
theorem isSome_get?_of_enterCall {fname : String} {params : List String} {args : List Node}
    {values : List Value} {body : Environment}
    (h : (enterCall ev config fname params args).outcome m = (.ok (values, body), m'))
    (hname : name ∈ params) : (body.get? name).isSome := by
  obtain ⟨_, m₁, -, h⟩ := outcome_bind_eq_ok h
  obtain ⟨e, m₂, -, h⟩ := outcome_bind_eq_ok h
  obtain ⟨callEnv, m₃, -, h⟩ := outcome_bind_eq_ok h
  obtain ⟨vs, m₄, -, h⟩ := outcome_bind_eq_ok h
  obtain ⟨bodyEnv, m₅, hbound, h⟩ := outcome_bind_eq_ok h
  cases h
  rcases bindArguments_cases hbound with ⟨-, rfl, -⟩ | ⟨hvariadic, rfl, -⟩
  · exact isSome_get?_bindParameters hname
  · rw [Environment.get?_define]
    split
    · rfl
    · next hne =>
      -- Only the last parameter is not among the named ones, and that is the rest.
      refine isSome_get?_bindParameters ?_
      have hlast : params.getLast? = some restParameter := by simpa [isVariadic] using hvariadic
      rw [← List.dropLast_append_getLast? restParameter hlast] at hname
      exact (List.mem_append.mp hname).resolve_right fun h => hne (List.mem_singleton.mp h)

/-- What a node binds is bound on a machine that the run gets to. -/
theorem BindsName.exists_visits [Host.Limits] {source : String} {start : Machine} {levels : Nat}
    {p : Point} (hp : Evaluates config source start (levels + 1) p)
    (h : BindsName (evaluate levels) p.config p.machine p.node name) :
    ∃ m, Visits config source start m ∧ (m.env.get? name).isSome := by
  obtain ⟨pconfig, node, machine⟩ := p
  -- Where the node ends well, its own machine has the name.
  have hafter : ∀ (m' : Machine) {e : Environment} {v : Value}, m'.env = e.define name v →
      (evaluateNode (evaluate levels) pconfig node).outcome machine = (.ok .null, m') →
      ∃ m, Visits config source start m ∧ (m.env.get? name).isSome := by
    intro m' e v henv hout
    have hanswer : (evaluate (levels + 1)).answer ⟨pconfig, node, machine⟩ = (.ok .null, m') :=
      outcome_atLine_ok _ hout
    refine ⟨_, .after hp, ?_⟩
    rw [hanswer, henv, Environment.get?_define, if_pos rfl]
    rfl
  cases h with
  | @binding _ value line v m₁ hreserved hvalue =>
    refine hafter { m₁ with env := m₁.env.define name v } rfl ?_
    change (evaluateBinding (evaluate levels) pconfig name value >>= fun _ =>
      pure Value.null).outcome machine = _
    rw [evaluateBinding_eq, hreserved, outcome_bind, if_neg Bool.false_ne_true, outcome_bind, hvalue]
    rfl
  | @definition _ params body line =>
    exact hafter { machine with env := machine.env.define name _ } rfl rfl
  | parameter hcall hstart hname =>
    exact ⟨_, .body hp hcall hstart, isSome_get?_of_enterCall hstart hname⟩
  | @importing target asName line members m₁ hmembers hasName =>
    have hbindings :
        importBindings asName (importedName (Source.unquote target.raw)) members m₁.heap =
          [(chosenName asName (Source.unquote target.raw), .object m₁.heap.size)] :=
      if_neg fun hstar => hasName (beq_iff_eq.mp hstar)
    refine hafter { m₁ with
      env := m₁.env.define (chosenName asName (Source.unquote target.raw)) (.object m₁.heap.size)
      heap := importHeap asName members m₁.heap } rfl ?_
    change (importTarget (evaluate levels) pconfig target asName >>= fun _ =>
      pure Value.null).outcome machine = _
    rw [importTarget_eq, outcome_bind, outcome_bind, hmembers]
    simp only [outcome_bindImport, hbindings]
    rfl

/-! ### Names that are not bound -/

/-- The members of a package have no reserved names. -/
theorem not_reserved_importable {package : String} {members : List (String × Value)}
    (h : importable? config package = some members) :
    ∀ member ∈ members, isReservedName member.1 = false := by
  unfold importable? at h
  split at h
  · cases h
  · unfold packageMembers? at h
    split at h <;> cases h <;> decide

/-- The condition that no reserved name is bound. -/
def Condition.unreserved : Condition :=
  .ofNodes (N := Node.Plain) (X := fun x => isReservedName x = false) (fun _ h => h)
    (fun _ _ h hc => h.children hc) fun _ _ _ => not_reserved_importable

theorem unreserved_newSession (config : Config) (world : Host.World) :
    Condition.unreserved.Holds (Session.new config world).machine := by
  refine Condition.ofNodes_newSession _ _ _ config world fun builtin hbuiltin => ?_
  obtain ⟨f, hf, rfl⟩ := List.mem_map.mp hbuiltin
  simp only [List.mem_cons, List.not_mem_nil, or_false] at hf
  rcases hf with rfl | rfl | rfl | rfl | rfl | rfl <;> rfl

theorem Condition.Holds.keepsReserved (h : Condition.unreserved.Holds m) : m.KeepsReserved := by
  intro name hreserved
  cases hname : m.env.get? name with
  | none => rfl
  | some v =>
    have hfree : isReservedName name = false := (h.env.get? hname).1
    rw [hreserved] at hfree
    cases hfree

/-- On all machines that a run gets to no reserved name is bound, exactly if no node of the run
binds one: a definition, a parameter of a call, or the name of an import. And then `null` is null
wherever it is evaluated. -/
theorem reserved_names_unbound_iff [Host.Limits] (config : Config) (world : Host.World)
    (source : String) :
    ((∀ m, Visits config source (Session.new config world).machine m → m.KeepsReserved) ↔
      ¬RunBindsReserved config source (Session.new config world).machine) ∧
    (¬RunBindsReserved config source (Session.new config world).machine →
      ∀ levels p line, Evaluates config source (Session.new config world).machine (levels + 1) p →
        p.node = .identifier "null" line →
          (evaluate (levels + 1)).answer p = (.ok .null, p.machine)) := by
  have hkeeps : ¬RunBindsReserved config source (Session.new config world).machine →
      ∀ m, Visits config source (Session.new config world).machine m → m.KeepsReserved := by
    intro hnever m hvisits
    -- The names that the nodes of the run bind are not reserved, and all others are copies of them.
    have hrun : Condition.unreserved.RunSuits config source (Session.new config world).machine :=
      { statements := Source.parse_plain source
        points := fun levels p hp _ => by
          refine Condition.suits_ofNodes _ _ _ (fun x hx => ?_) fun _ text _ =>
            Source.parse_plain text
          exact Bool.eq_false_iff.mpr fun hreserved => hnever ⟨levels, p, x, hp, hx, hreserved⟩ }
    obtain ⟨bad, hbad⟩ : ∃ v, ¬Condition.unreserved.value v := Condition.exists_not_ofNodes _ _ _
    exact (Condition.holds_of_visits trivial hbad hrun trivial (unreserved_newSession config world)
      hvisits).keepsReserved
  refine ⟨⟨fun hall hbinds => ?_, hkeeps⟩, fun hnever levels p line hp hnode => ?_⟩
  · obtain ⟨levels, p, name, hp, hname, hreserved⟩ := hbinds
    obtain ⟨m, hvisits, hbound⟩ := hname.exists_visits hp
    rw [hall m hvisits name hreserved] at hbound
    cases hbound
  · have hnull : p.machine.env.get? "null" = none := hkeeps hnever _ (.before hp) "null" rfl
    -- A name that is not bound stands for nothing.
    obtain ⟨pconfig, node, machine⟩ := p
    subst hnode
    have hlookup : machine.env.lookup "null" = .null := by
      unfold Environment.lookup
      rw [hnull]
      rfl
    refine outcome_atLine_ok line ?_
    rw [← hlookup]
    rfl

/-! ### A definition that binds a reserved name -/

/-- A program that defines a function with the name `null`. -/
def nullDefinition : String := "fn null() \x7b\x7d"

theorem parse_nullDefinition :
    Source.parse nullDefinition = ⟨[] ++ .definition "null" [] [] 1 :: [], none⟩ := by
  have htokens : Source.tokenize nullDefinition =
      ([⟨.fnWord, "fn", 1⟩, ⟨.identifier, "null", 1⟩, ⟨.leftParen, "(", 1⟩, ⟨.rightParen, ")", 1⟩,
        ⟨.leftBrace, "\x7b", 1⟩, ⟨.rightBrace, "\x7d", 1⟩, ⟨.newline, "\n", 1⟩], none) := by
    decide +kernel
  unfold Source.parse
  rw [htokens]
  cbv

/-- Reserved names do not stay unbound in every run: a definition binds any name. -/
theorem null_can_be_bound :
    ¬∀ (config : Config) (world : Host.World) (source : String) (m : Machine),
      Visits config source (Session.new config world).machine m → m.KeepsReserved := by
  intro hclaim
  have hpoint : Evaluates {} nullDefinition (Session.new {} {}).machine stackLimit
      ⟨{}, .definition "null" [] [] 1, (Session.new {} {}).machine⟩ :=
    evaluates_statement parse_nullDefinition rfl
  have hnone := hclaim {} {} _ _ (.after hpoint) "null" rfl
  cases hnone

end ModuLang
