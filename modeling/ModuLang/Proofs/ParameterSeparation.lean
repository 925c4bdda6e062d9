import Mathlib
import ModuLang.Proofs.EvaluatedPoints
import ModuLang.Proofs.TableLookup

/-!
# What the parameters of a call share

The arguments of a call are all evaluated in one clone of the caller's environment, and a parameter
holds the value of its argument itself, not a copy of it. So a parameter never shares an object with
a binding that is no parameter, but two parameters share an object if their arguments do: in `f(x, x)`
both hold the same object.

This is exact. Where the body of a call starts, the parameters and the collected elements are
separate from each other if and only if the arguments that they got are.
-/

namespace ModuLang

open Eval

variable {config : Config} {m : Machine} {params : List String} {values : List Value}

/-! ### What a parameter holds -/

/-- Whether the argument at a position stays bound: no later parameter has the name of its own. An
argument without a parameter of its own is collected, and stays. -/
def StaysBound (params : List String) (i : Nat) : Prop :=
  ∀ x, params[i]? = some x → ∀ j, i < j → params[j]? ≠ some x

theorem staysBound_zero {name : String} {names : List String} :
    StaysBound (name :: names) 0 ↔ name ∉ names := by
  unfold StaysBound
  constructor
  · intro h hmem
    obtain ⟨j, hj⟩ := List.mem_iff_getElem?.mp hmem
    exact h name rfl (j + 1) (Nat.succ_pos j) hj
  · intro h x hx j hlt hj
    obtain rfl : name = x := by simpa using hx
    obtain ⟨j, rfl⟩ := Nat.exists_eq_add_of_lt hlt
    rw [show 0 + j + 1 = j + 1 by omega, List.getElem?_cons_succ] at hj
    exact h (List.mem_of_getElem? hj)

theorem staysBound_succ {name : String} {names : List String} {i : Nat} :
    StaysBound (name :: names) (i + 1) ↔ StaysBound names i := by
  unfold StaysBound
  constructor
  · intro h x hx j hlt
    exact h x hx (j + 1) (Nat.succ_lt_succ hlt)
  · intro h x hx j hlt
    obtain ⟨j, rfl⟩ := Nat.exists_eq_add_of_lt hlt
    exact h x hx (i + 1 + j) (by omega)

theorem staysBound_of_length_le {i : Nat} (h : params.length ≤ i + 1) : StaysBound params i := by
  intro x _ j hlt hj
  have hnone : params[j]? = none := List.getElem?_eq_none (by omega)
  rw [hnone] at hj
  cases hj

/-- Of the positions with a name the last one stays bound. -/
theorem exists_staysBound {names : List String} {x : String} (hx : x ∈ names) :
    ∃ i, names[i]? = some x ∧ StaysBound names i := by
  induction names with
  | nil => exact absurd hx List.not_mem_nil
  | cons name names ih =>
    -- A later parameter of the same name takes the name over.
    by_cases hlater : x ∈ names
    · obtain ⟨i, hi, hstays⟩ := ih hlater
      exact ⟨i + 1, hi, staysBound_succ.mpr hstays⟩
    · obtain rfl : x = name := (List.mem_cons.mp hx).resolve_right hlater
      exact ⟨0, rfl, staysBound_zero.mpr hlater⟩

theorem bindParameters_cons (e : Environment) (name : String) (names : List String)
    (values : List Value) :
    bindParameters e (name :: names) values =
      bindParameters (e.define name (values.headD .null)) names values.tail := by
  cases values with
  | nil => rfl
  | cons value values => rfl

/-- What is no parameter is bound as before. -/
theorem get?_bindParameters_of_not_mem {e : Environment} {names : List String} {x : String}
    (hx : x ∉ names) : (bindParameters e names values).get? x = e.get? x := by
  induction names generalizing e values with
  | nil => rw [bindParameters]
  | cons name names ih =>
    have hne : x ≠ name := fun heq => hx (heq ▸ List.mem_cons_self)
    have hnames : x ∉ names := fun hmem => hx (List.mem_cons_of_mem _ hmem)
    rw [bindParameters_cons, ih hnames, Environment.get?_define, if_neg hne]

/-- A parameter holds the value of its argument. -/
theorem get?_bindParameters {e : Environment} {names : List String} {i : Nat} {x : String}
    (hx : names[i]? = some x) (hstays : StaysBound names i) :
    (bindParameters e names values).get? x = some (values[i]?.getD .null) := by
  induction names generalizing e values i with
  | nil => simp at hx
  | cons name names ih =>
    rw [bindParameters_cons]
    cases i with
    | zero =>
      obtain rfl : name = x := by simpa using hx
      rw [get?_bindParameters_of_not_mem (staysBound_zero.mp hstays), Environment.get?_define,
        if_pos rfl]
      cases values <;> rfl
    | succ i =>
      rw [ih hx (staysBound_succ.mp hstays)]
      cases values <;> simp

/-! ### Where the body of a call starts -/

/-- A call up to the start of its body: the values of its arguments, and the environment of the
body. -/
def enterCall (ev : Evaluator) (config : Config) (name : String) (params : List String)
    (args : List Node) : Eval (List Value × Environment) := do
  checkArity name params args.length
  let callEnv ← clone (← env)
  bindCall ev config params args callEnv

/-- A call runs its body where `enterCall` leads to. -/
theorem callFunction_eq_enterCall (ev : Evaluator) (passesOver : Bool) (name : String)
    (params : List String) (body args : List Node) :
    callFunction ev config passesOver name params body args =
      (do
        let bound ← enterCall ev config name params args
        inside bound.2 (inFrame config name true (runBody ev config passesOver body))) := by
  rw [callFunction_eq]
  unfold enterCall callInside
  simp only [bind_assoc]

/-- What is known where the body of a call starts: of the arguments, which are on this side of the
first `n` objects, of the environment `outer` that they are bound in, which is on the other side,
and of what is bound. -/
structure BodyStart (params : List String) (values : List Value) (outer body : Environment) (n : Nat)
    (h : Heap) : Prop where
  heap : HeapKnown (.below n) h
  arguments : ∀ v ∈ values, Known (.below n) h.size v
  outside : ∀ x a c, outer.get? x = some (.object a) → h.Reaches a c → c < n
  arity : isVariadic params = false → values.length = params.length
  parameter : ∀ i x, params[i]? = some x → StaysBound params i →
    (isVariadic params = true → x ≠ restParameter) → body.get? x = some (values[i]?.getD .null)
  other : ∀ x, x ∉ params → body.get? x = outer.get? x
  rest : isVariadic params = true → ∃ a, body.get? restParameter = some (.object a) ∧
    h.get a = Object.ofElements (values.drop (params.length - 1)) ∧
    Known (.below n) h.size (.object a) ∧
    ∀ b, .object b ∈ values → ¬h.Reaches b a

theorem checkArity_eq_ok {name : String} {count : Nat} {m' : Machine}
    (h : (checkArity name params count).outcome m = (.ok (), m')) :
    accepts params count = true ∧ m' = m := by
  unfold checkArity at h
  split at h
  · next haccepts =>
    cases h
    exact ⟨haccepts, rfl⟩
  · cases h

theorem length_evaluateAll {ev : Evaluator} {nodes : List Node} {m' : Machine}
    (h : (evaluateAll ev config nodes).outcome m = (.ok values, m')) :
    values.length = nodes.length := by
  induction nodes generalizing m values with
  | nil =>
    cases h
    rfl
  | cons node rest ih =>
    rw [evaluateAll] at h
    obtain ⟨value, m₁, -, h⟩ := outcome_bind_eq_ok h
    obtain ⟨more, m₂, hmore, h⟩ := outcome_bind_eq_ok h
    cases h
    rw [List.length_cons, List.length_cons, ih hmore]

/-- What the binding of arguments does: without further arguments it leaves the machine as it is,
and else it makes one array. -/
theorem bindArguments_cases {e body : Environment} {m' : Machine}
    (h : (bindArguments e params values).outcome m = (.ok body, m')) :
    isVariadic params = false ∧ body = bindParameters e params values ∧ m' = m ∨
      isVariadic params = true ∧
        body = (bindParameters e params.dropLast values).define restParameter (.object m.heap.size) ∧
        m'.heap = (m.heap.alloc (Object.ofElements (values.drop params.dropLast.length))).2 := by
  unfold bindArguments at h
  split at h
  · next hvariadic =>
    obtain ⟨rest, m₁, halloc, h⟩ := outcome_bind_eq_ok h
    cases halloc
    cases h
    exact .inr ⟨hvariadic, rfl, rfl⟩
  · next hvariadic =>
    cases h
    exact .inl ⟨by simpa using hvariadic, rfl, rfl⟩

/-- Arguments are evaluated on this side of the objects that are there before. -/
theorem argumentValues_behind [Host.Limits] {levels : Nat} {callEnv : Environment}
    {args : List Node} {m' : Machine} (hheap : HeapKnown .clear m.heap)
    (hcall : (knownEnv .clear).holds m.heap.size callEnv) (hargs : ∀ a ∈ args, a.Plain)
    (h : (argumentValues (evaluate levels) config callEnv args).outcome m = (.ok values, m')) :
    Grows (.below m.heap.size) m m' ∧ HeapKnown (.below m.heap.size) m'.heap ∧
      (∀ v ∈ values, Known (.below m.heap.size) m'.heap.size v) ∧ values.length = args.length := by
  have hvs : ∀ v ∈ callEnv.vars.entries.map Prod.snd, Known .clear m.heap.size v := by
    intro v hv
    obtain ⟨binding, hbinding, rfl⟩ := List.mem_map.mp hv
    exact hcall binding hbinding
  -- The arguments are evaluated in a copy of the environment, which is made of new objects.
  have hkeeps : Keeps (.below m.heap.size) (sameEnv m.env) m
      (argumentValues (evaluate levels) config callEnv args)
      (argumentValues (evaluate levels) config callEnv args)
      fun n vs => ∀ v ∈ vs, Known (.below m.heap.size) n v := by
    refine (keeps_clone_below (hheap.copied hvs trivial) hcall).bind fun argEnv m₁ _ hargEnv => ?_
    refine keeps_inside hargEnv (keeps_evaluateAll (complies_evaluate _ levels) fun node hnode => ?_)
    exact fit_of_plain fun _ => hargs node hnode
  obtain ⟨-, hkept⟩ := hkeeps (heapKnown_below m.heap) rfl
  rw [h] at hkept
  refine ⟨hkept.grows, hkept.heap, hkept.ends, ?_⟩
  obtain ⟨argEnv, m₁, -, h⟩ := outcome_bind_eq_ok h
  have hinside : (inside argEnv (evaluateAll (evaluate levels) config args)).outcome m₁ =
      (((evaluateAll (evaluate levels) config args).outcome { m₁ with env := argEnv }).1,
        { ((evaluateAll (evaluate levels) config args).outcome { m₁ with env := argEnv }).2 with
          env := m₁.env }) :=
    rfl
  rw [hinside] at h
  exact length_evaluateAll (Prod.ext (Prod.mk.inj h).1 rfl)

theorem eq_of_isVariadic (h : isVariadic params = true) :
    params = params.dropLast ++ [restParameter] := by
  unfold isVariadic at h
  obtain ⟨names, hnames⟩ := List.getLast?_eq_some_iff.mp (beq_iff_eq.mp h)
  rw [hnames, List.dropLast_concat]

theorem StaysBound.of_append {names : List String} {y : String} {i : Nat}
    (h : StaysBound (names ++ [y]) i) (hlt : i < names.length) : StaysBound names i := by
  intro x hx j hij hj
  have hj' : j < names.length := (List.getElem?_eq_some_iff.mp hj).1
  refine h x ?_ j hij ?_
  · rw [List.getElem?_append_left hlt]
    exact hx
  · rw [List.getElem?_append_left hj']
    exact hj

/-- A parameter of a variadic function holds the value of its argument. -/
theorem get?_variadic {outer : Environment} {i : Nat} {x : String} {v : Value}
    (hvariadic : isVariadic params = true) (hx : params[i]? = some x) (hstays : StaysBound params i)
    (hne : x ≠ restParameter) :
    ((bindParameters outer params.dropLast values).define restParameter v).get? x =
      some (values[i]?.getD .null) := by
  rw [eq_of_isVariadic hvariadic] at hx hstays
  have hlt : i < params.dropLast.length := by
    refine Nat.lt_of_not_le fun hle => hne ?_
    rw [List.getElem?_append_right hle] at hx
    exact List.mem_singleton.mp (List.mem_of_getElem? hx)
  rw [List.getElem?_append_left hlt] at hx
  rw [Environment.get?_define, if_neg hne]
  exact get?_bindParameters hx (hstays.of_append hlt)

/-- What is no parameter of a variadic function is bound as before. -/
theorem get?_variadic_of_not_mem {outer : Environment} {x : String} {v : Value}
    (hvariadic : isVariadic params = true) (hx : x ∉ params) :
    ((bindParameters outer params.dropLast values).define restParameter v).get? x =
      outer.get? x := by
  have hlast : restParameter ∈ params := by
    rw [eq_of_isVariadic hvariadic]
    exact List.mem_append_right _ (List.mem_singleton.mpr rfl)
  have hne : x ≠ restParameter := fun heq => hx (heq ▸ hlast)
  rw [Environment.get?_define, if_neg hne]
  exact get?_bindParameters_of_not_mem fun hmem => hx (List.dropLast_subset _ hmem)

/-- What a binding of arguments leads to, if they stand on this side of the first `n` objects and
the environment on the other side. -/
theorem bodyStart_of_bindArguments {outer body : Environment} {n : Nat} {m' : Machine}
    (hheap : HeapKnown (.below n) m.heap) (hvalues : ∀ v ∈ values, Known (.below n) m.heap.size v)
    (houter : ∀ x a c, outer.get? x = some (.object a) → m.heap.Reaches a c → c < n)
    (hn : n ≤ m.heap.size) (harity : isVariadic params = false → values.length = params.length)
    (h : (bindArguments outer params values).outcome m = (.ok body, m')) :
    BodyStart params values outer body n m'.heap := by
  rcases bindArguments_cases h with ⟨hfixed, rfl, rfl⟩ | ⟨hvariadic, rfl, hheap'⟩
  · refine ⟨hheap, hvalues, houter, harity, fun i x hx hstays _ => get?_bindParameters hx hstays,
      fun x hx => get?_bindParameters_of_not_mem hx, fun hvariadic => ?_⟩
    rw [hfixed] at hvariadic
    cases hvariadic
  · have hrest : ObjectKnown (.below n) m.heap.size
        (Object.ofElements (values.drop params.dropLast.length)) :=
      objectKnown_ofElements fun v hv => hvalues v (List.mem_of_mem_drop hv)
    have hkept := hheap.alloc hrest
    rw [← hheap'] at hkept
    have hold : ∀ a, a < m.heap.size → m'.heap.get? a = m.heap.get? a := by
      intro a ha
      rw [hheap']
      exact Heap.get?_alloc_of_lt _ ha
    refine ⟨hkept.known, fun v hv => (hvalues v hv).mono hkept.size, ?_, harity,
      fun i x hx hstays hne => get?_variadic hvariadic hx hstays (hne hvariadic),
      fun x hx => get?_variadic_of_not_mem hvariadic hx, ?_⟩
    · intro x a c hx hac
      refine Heap.lt_of_reaches (fun d hd => ?_) (fun d had => houter x a d hx had) hac
      exact hold d (Nat.lt_of_lt_of_le hd hn)
    · intro _
      refine ⟨m.heap.size, ?_, ?_, ?_, ?_⟩
      · rw [Environment.get?_define, if_pos rfl]
      · rw [hheap', Heap.get_alloc_self, List.length_dropLast]
      · rw [hheap', Heap.size_alloc]
        exact hheap.known_next
      · -- What an argument reaches was there before the array, so the array is not among it.
        intro b hb hreaches
        refine Nat.lt_irrefl _ (Heap.lt_of_reaches hold (fun d hbd => ?_) hreaches)
        exact (hheap.reaches (hvalues _ hb) hbd trivial).1

/-- Where the body of a call starts, if everything that the call can meet is there. -/
theorem bodyStart_of_enterCall [Host.Limits] {levels : Nat} {name : String} {args : List Node}
    {body : Environment} {start : Machine} (hheap : HeapKnown .clear m.heap)
    (henv : (knownEnv .clear).holds m.heap.size m.env) (hargs : ∀ a ∈ args, a.Plain)
    (h : (enterCall (evaluate levels) config name params args).outcome m =
      (.ok (values, body), start)) :
    ∃ outer n, BodyStart params values outer body n start.heap := by
  unfold enterCall bindCall at h
  -- The call goes through the check, the clone, the arguments and their binding, one after another.
  obtain ⟨_, m₀, hchecked, hcloning⟩ := outcome_bind_eq_ok h
  obtain ⟨haccepts, hsame⟩ := checkArity_eq_ok hchecked
  subst hsame
  rw [outcome_env_bind] at hcloning
  obtain ⟨callEnv, m₁, hclone, hevaluating⟩ := outcome_bind_eq_ok hcloning
  obtain ⟨-, hcloned⟩ := keeps_clone (E := sameEnv m₀.env) henv hheap rfl
  rw [hclone] at hcloned
  have hcall : (knownEnv .clear).holds m₁.heap.size callEnv := hcloned.ends
  obtain ⟨values', m₂, hvalues, hbinding⟩ := outcome_bind_eq_ok hevaluating
  obtain ⟨hgrows, hheap₂, hknown, hlength⟩ :=
    argumentValues_behind hcloned.heap hcall hargs hvalues
  obtain ⟨body', m₃, hbind, hbound⟩ := outcome_bind_eq_ok hbinding
  cases hbound
  refine ⟨callEnv, m₁.heap.size, bodyStart_of_bindArguments hheap₂ hknown ?_ hgrows.size ?_ hbind⟩
  · -- The arguments have not changed what the environment of the call reaches.
    intro x a c hx hac
    refine Heap.lt_of_reaches (hgrows.hidden trivial) (fun d had => ?_) hac
    exact (hcloned.heap.reaches (knownEnv_get? hcall hx) had trivial).1
  · intro hfixed
    unfold accepts at haccepts
    rw [hfixed, Bool.false_or] at haccepts
    rw [hlength]
    exact beq_iff_eq.mp haccepts

/-! ### Separation -/

/-- Whether the parameters are separate from each other and from all other bindings, and the
elements that are collected are separate from each other. -/
structure ParametersSeparate (h : Heap) (params : List String) (env : Environment) : Prop where
  bindings : ∀ x ∈ params, ∀ y, y ≠ x → ∀ v w, env.get? x = some v → env.get? y = some w →
    Separate h v w
  elements : isVariadic params = true → ∀ a, env.get? restParameter = some (.object a) →
    ∀ i j : Nat, i ≠ j → ∀ v w, (h.get a).get? (Object.indexKey i) = some v →
      (h.get a).get? (Object.indexKey j) = some w → Separate h v w

/-- Whether the arguments that stay bound are separate from each other. -/
def ArgumentsSeparate (h : Heap) (params : List String) (values : List Value) : Prop :=
  ∀ i j, i < j → StaysBound params i → StaysBound params j → ∀ v w, values[i]? = some v →
    values[j]? = some w → Separate h v w

theorem ArgumentsSeparate.of_ne {h : Heap} (hargs : ArgumentsSeparate h params values) {i j : Nat}
    (hij : i ≠ j) (hi : StaysBound params i) (hj : StaysBound params j) {v w : Value}
    (hv : values[i]? = some v) (hw : values[j]? = some w) : Separate h v w := by
  rcases Nat.lt_or_gt_of_ne hij with hlt | hgt
  · exact hargs i j hlt hi hj v w hv hw
  · exact (hargs j i hgt hj hi w v hw hv).symm

namespace BodyStart

variable {outer body : Environment} {n : Nat} {h : Heap} {x : String} {v : Value}

/-- What a name is bound to where a body starts: an argument, the array of those that are collected,
or what it was bound to before. -/
theorem binding_cases (hs : BodyStart params values outer body n h) (hv : body.get? x = some v) :
    (∃ i, params[i]? = some x ∧ StaysBound params i ∧ v = values[i]?.getD .null ∧
        (isVariadic params = true → x ≠ restParameter)) ∨
      (isVariadic params = true ∧ x = restParameter) ∨
      (x ∉ params ∧ outer.get? x = some v) := by
  by_cases hrest : isVariadic params = true ∧ x = restParameter
  · exact .inr (.inl hrest)
  · by_cases hx : x ∈ params
    · obtain ⟨i, hi, hstays⟩ := exists_staysBound hx
      have hne : isVariadic params = true → x ≠ restParameter := fun hvariadic heq =>
        hrest ⟨hvariadic, heq⟩
      have hbound := hs.parameter i x hi hstays hne
      rw [hv] at hbound
      exact .inl ⟨i, hi, hstays, Option.some.inj hbound, hne⟩
    · rw [hs.other x hx] at hv
      exact .inr (.inr ⟨hx, hv⟩)

/-- An object that a parameter holds is an argument. -/
theorem argument_of_object {i : Nat} {a : Address} (hv : Value.object a = values[i]?.getD .null) :
    values[i]? = some (.object a) := by
  cases hi : values[i]? with
  | none =>
    rw [hi] at hv
    cases hv
  | some w =>
    rw [hi] at hv
    rw [hv]
    rfl

/-- What is reached from the collected arguments: their array, and what they reach. -/
theorem reaches_rest {a c : Address}
    (ha : h.get a = Object.ofElements (values.drop (params.length - 1))) (hac : h.Reaches a c) :
    c = a ∨ ∃ i b, params.length - 1 ≤ i ∧ values[i]? = some (.object b) ∧ h.Reaches b c := by
  rcases Relation.ReflTransGen.cases_head hac with rfl | ⟨b, hab, hbc⟩
  · exact .inl rfl
  · obtain ⟨entry, hentry, hvalue⟩ := Object.mem_references.mp hab
    rw [ha] at hentry
    rcases List.mem_cons.mp (Table.mem_ofList hentry) with rfl | hentry
    · cases hvalue
    · obtain ⟨j, hj, -⟩ := Object.exists_of_mem_indexEntries hentry
      rw [List.getElem?_drop, hvalue] at hj
      exact .inr ⟨params.length - 1 + j, b, Nat.le_add_right _ _, hj, hbc⟩

/-- Everything that a collected argument reaches is reached from the array. -/
theorem rest_reaches {a b c : Address} {i : Nat}
    (ha : h.get a = Object.ofElements (values.drop (params.length - 1)))
    (hi : params.length - 1 ≤ i) (hb : values[i]? = some (.object b)) (hbc : h.Reaches b c) :
    h.Reaches a c := by
  have hitem : (values.drop (params.length - 1))[i - (params.length - 1)]? = some (.object b) := by
    rw [List.getElem?_drop, Nat.add_sub_cancel' hi]
    exact hb
  have hentry := Table.mem_of_get? (Object.get?_ofElements hitem)
  have hab : h.RefersTo a b := by
    unfold Heap.RefersTo
    rw [ha]
    exact Object.mem_references.mpr ⟨_, hentry, rfl⟩
  exact .head hab hbc

/-- What a parameter reaches stands on this side of the first objects. -/
theorem le_of_parameter (hs : BodyStart params values outer body n h) {a c : Address}
    (hx : x ∈ params) (hv : body.get? x = some (.object a)) (hac : h.Reaches a c) : n ≤ c := by
  have hknown : Known (.below n) h.size (.object a) := by
    rcases hs.binding_cases hv with ⟨i, -, -, hvalue, -⟩ | ⟨hvariadic, rfl⟩ | ⟨hnot, -⟩
    · exact hs.arguments _ (List.mem_of_getElem? (argument_of_object hvalue))
    · obtain ⟨a', ha', -, hknown, -⟩ := hs.rest hvariadic
      obtain rfl : a = a' := Value.object.inj (Option.some.inj (hv.symm.trans ha'))
      exact hknown
    · exact absurd hx hnot
  exact Nat.le_of_not_lt (hs.heap.reaches hknown hac trivial).2

/-- A parameter is separate from a binding that is no parameter. -/
theorem separate_of_not_mem (hs : BodyStart params values outer body n h) {y : String} {w : Value}
    (hx : x ∈ params) (hy : y ∉ params) (hv : body.get? x = some v) (hw : body.get? y = some w) :
    Separate h v w := by
  rintro a b c rfl rfl hac hbc
  have hinside : n ≤ c := hs.le_of_parameter hx hv hac
  rw [hs.other y hy] at hw
  have houtside : c < n := hs.outside y b c hw hbc
  exact Nat.not_lt.mpr hinside houtside

theorem getElem?_last (hvariadic : isVariadic params = true) :
    params[params.length - 1]? = some restParameter := by
  rw [← List.getLast?_eq_getElem?]
  exact beq_iff_eq.mp hvariadic

/-- A parameter with another name than the array stands before it. -/
theorem lt_last {i : Nat} (hvariadic : isVariadic params = true) (hi : params[i]? = some x)
    (hx : x ≠ restParameter) : i < params.length - 1 := by
  have hlt : i < params.length := (List.getElem?_eq_some_iff.mp hi).1
  have hne : i ≠ params.length - 1 := by
    rintro rfl
    rw [getElem?_last hvariadic] at hi
    exact hx (Option.some.inj hi).symm
  omega

/-- An argument that stays bound and is not collected is held by a parameter. -/
theorem parameter_of_lt (hs : BodyStart params values outer body n h) {i : Nat}
    (hstays : StaysBound params i) (hlt : i < params.length)
    (hlast : isVariadic params = true → i < params.length - 1) (hv : values[i]? = some v) :
    ∃ x, params[i]? = some x ∧ (isVariadic params = true → x ≠ restParameter) ∧
      body.get? x = some v := by
  obtain ⟨x, hx⟩ : ∃ x, params[i]? = some x := ⟨params[i], List.getElem?_eq_getElem hlt⟩
  have hne : isVariadic params = true → x ≠ restParameter := by
    rintro hvariadic rfl
    exact hstays _ hx _ (hlast hvariadic) (getElem?_last hvariadic)
  have hbound := hs.parameter i x hx hstays hne
  rw [hv] at hbound
  exact ⟨x, hx, hne, hbound⟩

/-- A parameter is separate from the array of the collected arguments, if the arguments are. -/
theorem separate_rest (hs : BodyStart params values outer body n h)
    (hargs : ArgumentsSeparate h params values) (hvariadic : isVariadic params = true) {i : Nat}
    {w : Value} (hi : params[i]? = some x) (hstays : StaysBound params i) (hx : x ≠ restParameter)
    (hv : v = values[i]?.getD .null) (hw : body.get? restParameter = some w) : Separate h v w := by
  rintro b a c rfl rfl hbc hac
  have hb : values[i]? = some (.object b) := argument_of_object hv
  obtain ⟨a', ha', helements, -, hfresh⟩ := hs.rest hvariadic
  obtain rfl : a = a' := Value.object.inj (Option.some.inj (hw.symm.trans ha'))
  -- The array is new, and the arguments in it come behind those of the parameters.
  rcases reaches_rest helements hac with rfl | ⟨j, d, hj, hd, hdc⟩
  · exact hfresh b (List.mem_of_getElem? hb) hbc
  · have hij : i < j := Nat.lt_of_lt_of_le (lt_last hvariadic hi hx) hj
    have hlast : StaysBound params j := staysBound_of_length_le (by omega)
    exact hargs i j hij hstays hlast _ _ hb hd b d c rfl rfl hbc hdc

/-- The parameters are separate if the arguments are. -/
theorem parametersSeparate (hs : BodyStart params values outer body n h)
    (hargs : ArgumentsSeparate h params values) : ParametersSeparate h params body where
  bindings := by
    intro x hx y hyx v w hv hw
    -- Each of the two names is a parameter with an argument, the array, or no parameter.
    rcases hs.binding_cases hv with ⟨i, hi, hstays, hvalue, hne⟩ | ⟨hvariadic, rfl⟩ | ⟨hnot, -⟩
    · rcases hs.binding_cases hw with ⟨j, hj, hstays', hvalue', -⟩ | ⟨hvariadic, rfl⟩ | ⟨hy, -⟩
      · rintro a b c rfl rfl
        have hij : i ≠ j := by
          rintro rfl
          exact hyx (Option.some.inj (hj.symm.trans hi))
        exact hargs.of_ne hij hstays hstays' (argument_of_object hvalue)
          (argument_of_object hvalue') a b c rfl rfl
      · exact hs.separate_rest hargs hvariadic hi hstays (hne hvariadic) hvalue hw
      · exact hs.separate_of_not_mem hx hy hv hw
    · rcases hs.binding_cases hw with ⟨j, hj, hstays', hvalue', -⟩ | ⟨-, rfl⟩ | ⟨hy, -⟩
      · exact (hs.separate_rest hargs hvariadic hj hstays' hyx hvalue' hv).symm
      · exact absurd rfl hyx
      · exact hs.separate_of_not_mem hx hy hv hw
    · exact absurd hx hnot
  elements := by
    intro hvariadic a ha i j hij v w hv hw
    obtain ⟨a', ha', helements, -, -⟩ := hs.rest hvariadic
    obtain rfl : a = a' := Value.object.inj (Option.some.inj (ha.symm.trans ha'))
    rw [helements] at hv hw
    have hv' := Object.getElem?_of_get?_ofElements hv
    have hw' := Object.getElem?_of_get?_ofElements hw
    rw [List.getElem?_drop] at hv' hw'
    have hne : params.length - 1 + i ≠ params.length - 1 + j := by omega
    exact hargs.of_ne hne (staysBound_of_length_le (by omega)) (staysBound_of_length_le (by omega))
      hv' hw'

/-- The arguments are separate if the parameters are. -/
theorem argumentsSeparate (hs : BodyStart params values outer body n h)
    (hparams : ParametersSeparate h params body) : ArgumentsSeparate h params values := by
  intro i j hij hi hj v w hv hw
  have hjlt : j < values.length := (List.getElem?_eq_some_iff.mp hw).1
  -- Two arguments are held by two parameters, by one parameter and the list of the rest, or both in
  -- that list. The later argument decides first: a parameter in front of its own holds the earlier.
  by_cases hlast : isVariadic params = true → j < params.length - 1
  · -- Both are held by parameters.
    have hlt : j < params.length := by
      cases hvariadic : isVariadic params with
      | true =>
        have := hlast hvariadic
        omega
      | false =>
        rw [← hs.arity hvariadic]
        exact hjlt
    obtain ⟨x, hx, -, hboundx⟩ := hs.parameter_of_lt hi (by omega)
      (fun hvariadic => Nat.lt_trans hij (hlast hvariadic)) hv
    obtain ⟨y, hy, -, hboundy⟩ := hs.parameter_of_lt hj hlt hlast hw
    have hne : y ≠ x := by
      rintro rfl
      exact hi y hx j hij hy
    exact hparams.bindings x (List.mem_of_getElem? hx) y hne v w hboundx hboundy
  · have hvariadic : isVariadic params = true := by
      cases hvariadic : isVariadic params with
      | true => rfl
      | false => exact absurd (fun htrue => by rw [hvariadic] at htrue; cases htrue) hlast
    have hcollected : params.length - 1 ≤ j := Nat.le_of_not_lt fun hlt => hlast fun _ => hlt
    obtain ⟨a, ha, helements, -, -⟩ := hs.rest hvariadic
    by_cases hfirst : i < params.length - 1
    · -- One is held by a parameter, and the other one is collected.
      obtain ⟨x, hx, hne, hboundx⟩ := hs.parameter_of_lt hi (by omega) (fun _ => hfirst) hv
      have hsep := hparams.bindings x (List.mem_of_getElem? hx) restParameter
        (fun heq => hne hvariadic heq.symm) v (.object a) hboundx ha
      rintro b d c rfl rfl hbc hdc
      exact hsep b a c rfl rfl hbc (rest_reaches helements hcollected hw hdc)
    · -- Both are collected.
      have hitem : ∀ k u, params.length - 1 ≤ k → values[k]? = some u →
          (h.get a).get? (Object.indexKey ((k - (params.length - 1) : Nat) : Int)) = some u := by
        intro k u hk hu
        rw [helements]
        apply Object.get?_ofElements
        rw [List.getElem?_drop, Nat.add_sub_cancel' hk]
        exact hu
      have hicollected : params.length - 1 ≤ i := Nat.le_of_not_lt hfirst
      exact hparams.elements hvariadic a ha (i - (params.length - 1)) (j - (params.length - 1))
        (by omega) v w (hitem i v hicollected hv) (hitem j w hcollected hw)

end BodyStart

/-! ### The calls of a run -/

/-- The machine of a call at a known point is known, and so are its arguments. -/
theorem Point.Known.of_calls [Host.Limits] {levels : Nat} {p : Point} {call : UserCall}
    (hp : p.Known) (hcall : Calls (evaluate levels) p.config p.machine p.node call m) :
    HeapKnown .clear m.heap ∧ (knownEnv .clear).holds m.heap.size m.env ∧
      ∀ a ∈ call.args, a.Plain := by
  obtain ⟨config, node, machine⟩ := p
  cases hcall with
  | named _ =>
    exact ⟨hp.heap, hp.env, fun a ha => (hp.fit.plain (by simp) trivial).children ha⟩
  | @property object callee _ _ _ _ _ _ _ hmember =>
    have hobject : Fit .clear machine.heap.size object :=
      hp.fit.child (by simp) (by simp [Node.children])
    obtain ⟨-, hkept⟩ := keeps_memberOf (complies_evaluate _ levels) callee hobject hp.heap hp.env
    rw [hmember] at hkept
    refine ⟨hkept.heap, hkept.env, fun a ha => ?_⟩
    exact (hp.fit.plain (by simp) trivial).children (List.mem_cons_of_mem _ ha)

/-- Wherever the body of a function starts in a run from the builtins alone, no parameter shares an
object with a binding that is no parameter; and the parameters are separate from each other, as are
the elements that are collected, exactly if the arguments are. -/
theorem parameters_separate_iff [Host.Limits] {world : Host.World} {source : String} {levels : Nat}
    {p : Point} {call : UserCall} {body : Environment} {start : Machine}
    (hpoint : Evaluates config source (Session.new config world).machine (levels + 1) p)
    (hcall : Calls (evaluate levels) p.config p.machine p.node call m)
    (hstart : (enterCall (evaluate levels) p.config call.name call.params call.args).outcome m =
      (.ok (values, body), start)) :
    (∀ x ∈ call.params, ∀ y, y ∉ call.params → ∀ v w, body.get? x = some v →
        body.get? y = some w → Separate start.heap v w) ∧
      (ParametersSeparate start.heap call.params body ↔
        ArgumentsSeparate start.heap call.params values) := by
  obtain ⟨hheap, henv, hargs⟩ := hpoint.known.of_calls hcall
  obtain ⟨outer, n, hs⟩ := bodyStart_of_enterCall hheap henv hargs hstart
  constructor
  · intro x hx y hy v w hv hw
    exact hs.separate_of_not_mem hx hy hv hw
  · exact ⟨hs.argumentsSeparate, hs.parametersSeparate⟩

/-! ### A call with new objects, and one with the same object twice -/

/-- A program that calls a function with two new objects, and then with one object twice. -/
def sharingProgram : String := "fn f(a, b) {}\nf({}, {})\nlet x = {}\nf(x, x)"

theorem parse_sharingProgram : Source.parse sharingProgram =
    ⟨[.definition "f" ["a", "b"] [] 1, .call "f" [.record [] 2, .record [] 2] 2,
      .binding "x" (.record [] 3) 3, .call "f" [.identifier "x" 4, .identifier "x" 4] 4], none⟩ := by
  have htokens : Source.tokenize sharingProgram =
      ([⟨.fnWord, "fn", 1⟩, ⟨.identifier, "f", 1⟩, ⟨.leftParen, "(", 1⟩, ⟨.identifier, "a", 1⟩,
        ⟨.comma, ",", 1⟩, ⟨.identifier, "b", 1⟩, ⟨.rightParen, ")", 1⟩, ⟨.leftBrace, "\x7b", 1⟩,
        ⟨.rightBrace, "\x7d", 1⟩, ⟨.newline, "\n", 1⟩,
        ⟨.identifier, "f", 2⟩, ⟨.leftParen, "(", 2⟩, ⟨.leftBrace, "\x7b", 2⟩,
        ⟨.rightBrace, "\x7d", 2⟩, ⟨.comma, ",", 2⟩, ⟨.leftBrace, "\x7b", 2⟩,
        ⟨.rightBrace, "\x7d", 2⟩, ⟨.rightParen, ")", 2⟩, ⟨.newline, "\n", 2⟩,
        ⟨.letWord, "let", 3⟩, ⟨.identifier, "x", 3⟩, ⟨.assign, "=", 3⟩, ⟨.leftBrace, "\x7b", 3⟩,
        ⟨.rightBrace, "\x7d", 3⟩, ⟨.newline, "\n", 3⟩,
        ⟨.identifier, "f", 4⟩, ⟨.leftParen, "(", 4⟩, ⟨.identifier, "x", 4⟩, ⟨.comma, ",", 4⟩,
        ⟨.identifier, "x", 4⟩, ⟨.rightParen, ")", 4⟩, ⟨.newline, "\n", 4⟩], none) := by
    decide +kernel
  unfold Source.parse
  rw [htokens]
  cbv

/-- The statements before the call with two new objects. -/
def beforeNewObjects : List Node :=
  [.definition "f" ["a", "b"] [] 1]

/-- The statements before the call with one object twice. -/
def beforeOneObject : List Node :=
  [.definition "f" ["a", "b"] [] 1, .call "f" [.record [] 2, .record [] 2] 2,
    .binding "x" (.record [] 3) 3]

/-- A statement of the program is evaluated where the ones before it end well. -/
theorem evaluates_machineAfter {before rest : List Node} {statement : Node}
    (hparse : Source.parse sharingProgram = ⟨before ++ statement :: rest, none⟩)
    (hends : ((runTopLevel (evaluate stackLimit) {} none 0 before).outcome
      (Session.new {} {}).machine).1 = .ok ()) :
    Evaluates {} sharingProgram (Session.new {} {}).machine stackLimit
      ⟨{}, statement, machineAfter before⟩ :=
  evaluates_statement hparse (Prod.ext hends rfl)

theorem evaluates_newObjects :
    Evaluates {} sharingProgram (Session.new {} {}).machine (899 + 1)
      ⟨{}, .call "f" [.record [] 2, .record [] 2] 2, machineAfter beforeNewObjects⟩ := by
  refine evaluates_machineAfter parse_sharingProgram ?_
  cbv

theorem evaluates_oneObject :
    Evaluates {} sharingProgram (Session.new {} {}).machine (899 + 1)
      ⟨{}, .call "f" [.identifier "x" 4, .identifier "x" 4] 4, machineAfter beforeOneObject⟩ := by
  refine evaluates_machineAfter parse_sharingProgram ?_
  cbv

/-- The parameters of the call with two new objects are separate. -/
theorem new_objects_separate :
    ∃ m values body start,
      Evaluates {} sharingProgram (Session.new {} {}).machine (899 + 1)
        ⟨{}, .call "f" [.record [] 2, .record [] 2] 2, m⟩ ∧
      (enterCall (evaluate 899) {} "f" ["a", "b"] [.record [] 2, .record [] 2]).outcome m =
        (.ok (values, body), start) ∧
      ParametersSeparate start.heap ["a", "b"] body := by
  have hpoint := evaluates_newObjects
  generalize hm : machineAfter beforeNewObjects = m at hpoint
  have hfunction : m.env.get? "f" = some (.function "f" ["a", "b"] []) := by
    rw [← hm]
    cbv
  have hcall : Calls (evaluate 899) {} m (.call "f" [.record [] 2, .record [] 2] 2)
      ⟨false, "f", ["a", "b"], [], [.record [] 2, .record [] 2]⟩ m :=
    .named hfunction
  have hvalues : ((enterCall (evaluate 899) {} "f" ["a", "b"]
      [.record [] 2, .record [] 2]).outcome m).1.map Prod.fst = .ok [.object 0, .object 1] := by
    rw [← hm]
    cbv
  have hempty : ((((enterCall (evaluate 899) {} "f" ["a", "b"]
      [.record [] 2, .record [] 2]).outcome m).2.heap.get 0).references,
      (((enterCall (evaluate 899) {} "f" ["a", "b"]
      [.record [] 2, .record [] 2]).outcome m).2.heap.get 1).references) = ([], []) := by
    rw [← hm]
    cbv
  generalize hstart : (enterCall (evaluate 899) {} "f" ["a", "b"]
    [.record [] 2, .record [] 2]).outcome m = out at hvalues hempty
  obtain ⟨result, start⟩ := out
  cases result with
  | error i => cases hvalues
  | ok bound =>
    obtain ⟨values, body⟩ := bound
    obtain rfl : values = [.object 0, .object 1] := Except.ok.inj hvalues
    refine ⟨m, _, body, start, hpoint, hstart, ?_⟩
    refine (parameters_separate_iff hpoint hcall hstart).2.mpr ?_
    -- The only two arguments are the new objects, and neither of them holds another object.
    intro i j hij _ _ v w hv hw
    have hj : j < 2 := (List.getElem?_eq_some_iff.mp hw).1
    obtain ⟨rfl, rfl⟩ : i = 0 ∧ j = 1 := by omega
    rintro a b c rfl rfl hac hbc
    cases hv
    cases hw
    have hfirst : c = 0 := Heap.eq_of_reaches (Prod.mk.inj hempty).1 hac
    have hsecond : c = 1 := Heap.eq_of_reaches (Prod.mk.inj hempty).2 hbc
    rw [hfirst] at hsecond
    cases hsecond

/-- The parameters of a call may share an object: those of the call with one object twice do. -/
theorem parameters_may_share :
    ¬∀ (config : Config) (world : Host.World) (source : String) (levels : Nat) (p : Point)
      (call : UserCall) (m : Machine) (values : List Value) (body : Environment) (start : Machine),
      Evaluates config source (Session.new config world).machine (levels + 1) p →
      Calls (evaluate levels) p.config p.machine p.node call m →
      (enterCall (evaluate levels) p.config call.name call.params call.args).outcome m =
        (.ok (values, body), start) →
      ParametersSeparate start.heap call.params body := by
  intro hclaim
  have hpoint := evaluates_oneObject
  generalize hm : machineAfter beforeOneObject = m at hpoint
  have hfunction : m.env.get? "f" = some (.function "f" ["a", "b"] []) := by
    rw [← hm]
    cbv
  have hcall : Calls (evaluate 899) {} m (.call "f" [.identifier "x" 4, .identifier "x" 4] 4)
      ⟨false, "f", ["a", "b"], [], [.identifier "x" 4, .identifier "x" 4]⟩ m :=
    .named hfunction
  have hbound : ((enterCall (evaluate 899) {} "f" ["a", "b"]
      [.identifier "x" 4, .identifier "x" 4]).outcome m).1.map
        (fun bound => (bound.2.get? "a", bound.2.get? "b")) =
      .ok (some (.object 5), some (.object 5)) := by
    rw [← hm]
    cbv
  generalize hstart : (enterCall (evaluate 899) {} "f" ["a", "b"]
    [.identifier "x" 4, .identifier "x" 4]).outcome m = out at hbound
  obtain ⟨result, start⟩ := out
  cases result with
  | error i => cases hbound
  | ok bound =>
    obtain ⟨values, body⟩ := bound
    -- Both parameters hold the one copy of the object `x`.
    obtain ⟨ha, hb⟩ := Prod.mk.inj (Except.ok.inj hbound)
    have hseparate := (hclaim _ _ _ _ _ _ _ _ _ _ hpoint hcall hstart).bindings "a" (by simp) "b"
      (by decide) _ _ ha hb
    exact hseparate 5 5 5 rfl rfl .refl .refl

end ModuLang
