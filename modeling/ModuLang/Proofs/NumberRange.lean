import ModuLang.Proofs.FileImports
import ModuLang.Proofs.HeldConditions
import ModuLang.Proofs.JsonValues
import ModuLang.Proofs.ParameterSeparation
import ModuLang.Proofs.ProgramGrammar
import ModuLang.Proofs.TokenLines

/-!
# The range of numbers

The integers of the language's arithmetic have 64 bits. Literals that are larger are refused when a text
is read, and operators and the functions for arithmetic check what they compute. Some other functions
make integers without a check: `int` reads any number of digits, a document may have such numerals in
it, an array that was said to have the greatest length can grow, and the clock tells whatever it tells.

All other integers are within the range. So the numbers of a run stay in range exactly if it never
applies one of these functions to something beyond the range.
-/

namespace ModuLang

open Eval Library

namespace Number

theorem inRange_natCast {n : Nat} (h : (n : Int) ≤ intMax) : inRange n = true := by
  have hmin : intMin ≤ 0 := by decide
  exact inRange_iff.mpr ⟨Int.le_trans hmin (Int.natCast_nonneg n), h⟩

end Number

/-- Whether a value is no integer out of range. -/
def Value.InRange : Value → Prop
  | .int n => Number.inRange n = true
  | _ => True

/-! ### The numbers of a text -/

namespace Source

/-- The integers that the tokens of a line spell are in range. -/
theorem lexLine_numbers (line : Int) (cs : List Char) :
    NumbersIn Value.InRange (lineTokens line (lexLine line cs).1) := by
  intro t ht hnumber
  rcases List.mem_append.mp ht with ht | ht
  · obtain ⟨spelled, hmem, rfl⟩ := List.mem_map.mp ht
    obtain ⟨_, kind, text, _, _, _, -, rfl, hdefect⟩ := exists_scan_of_mem_lexLine hmem
    refine Number.inRange_natCast ?_
    rw [String.toList_ofList]
    exact (integerDefect?_eq_none_iff.mp (hdefect hnumber)).2
  · rw [List.mem_singleton.mp ht] at hnumber
    cases hnumber

theorem tokenizeLines_numbers (line : Int) (since : Option Int) (ls : List (List Char)) :
    NumbersIn Value.InRange (tokenizeLines line since ls).1 := by
  intro t ht
  obtain ⟨l, visible, -, -, hmem⟩ := exists_line_of_mem_tokenizeLines ht
  exact lexLine_numbers l visible t hmem

/-- Whether a value may stand in a literal of a text. -/
def IsLiteral (v : Value) : Prop :=
  v.IsPrimitive ∧ v.InRange

theorem parse_numbers [Host.Limits] (source : String) :
    ∀ n ∈ (parse source).statements, n.Literals IsLiteral := by
  have hnumbers := tokenizeLines_numbers 1 none (Text.lines source.toList)
  exact parse_literals ⟨trivial, trivial⟩ (fun _ => ⟨trivial, trivial⟩) (fun _ => ⟨trivial, trivial⟩)
    fun t ht hnumber => ⟨trivial, hnumbers t ht hnumber⟩

end Source

/-! ### Values in range -/

/-- Whether a value is no integer out of range, and has no such literal in it. -/
def Value.KeepsRange : Value → Prop
  | .function _ _ body => ∀ n ∈ body, n.Literals Source.IsLiteral
  | v => v.InRange

theorem Value.KeepsRange.inRange {v : Value} (h : v.KeepsRange) : v.InRange := by
  cases v with
  | function => trivial
  | _ => exact h

theorem keepsRange_importable {config : Config} {name : String} {members : List (String × Value)}
    (h : importable? config name = some members) : ∀ member ∈ members, member.2.KeepsRange := by
  intro member hmember
  rcases importable_cases h member hmember with ⟨f, hf⟩ | ⟨x, hx⟩
  · rw [hf]
    trivial
  · rw [hx]
    trivial

/-- The condition that all integers are in range. -/
def Condition.inRange : Condition where
  value := Value.KeepsRange
  name _ := True
  node := Node.Literals Source.IsLiteral
  config _ := True
  exits := True
  computable := by
    refine ⟨fun v hv hne => ?_, fun n hn => hn⟩
    cases v with
    | int n => exact absurd rfl (hne n)
    | function => exact hv.elim
    | _ => trivial
  object _ := trivial
  method := trivial
  function _ _ _ := Iff.rfl
  literal v _ h := by
    obtain ⟨hprimitive, hrange⟩ := h.literal
    cases v with
    | function => exact hprimitive.elim
    | _ => exact hrange
  child _ _ h hc := h.children hc
  withScript _ _ h := h
  importable _ _ _ _ hmembers member hmember := ⟨trivial, keepsRange_importable hmembers member hmember⟩

instance [Host.Limits] : Condition.inRange.Open where
  name _ := trivial
  parsed := Source.parse_numbers

/-- Whether all integers that a machine holds are in range. -/
structure Machine.InRange (m : Machine) : Prop where
  env : m.env.All Value.InRange
  heap : m.heap.All Value.InRange

/-- Whether all integers of an answer are in range: those that the machine holds, and the value that a
node gives or returns. -/
structure AnswerInRange (out : Outcome Value) : Prop where
  machine : out.2.InRange
  value : ∀ v, out.1 = .ok v → v.InRange
  returned : ∀ v, out.1 = .error (.returned v) → v.InRange

theorem Condition.Holds.inRange {m : Machine} (h : Condition.inRange.Holds m) : m.InRange :=
  ⟨fun binding hbinding => (h.env binding hbinding).2.inRange,
    fun a entry hentry => (h.heap a entry hentry).inRange⟩

theorem Condition.Answers.inRange {out : Outcome Value} (h : Condition.inRange.Answers out) :
    AnswerInRange out := by
  obtain ⟨hmachine, hends⟩ := h
  refine ⟨hmachine.inRange, fun v hv => ?_, fun v hv => ?_⟩
  · rw [hv] at hends
    exact Value.KeepsRange.inRange hends
  · rw [hv] at hends
    exact Value.KeepsRange.inRange hends

/-! ### Lengths -/

namespace Object

variable {P : Value → Prop} {o : Object} {n : Int}

theorem All.length (ho : o.All P) (h : o.length = .ok n) : P (.int n) := by
  unfold Object.length at h
  split at h
  · next hget =>
    cases h
    exact ho.get? hget
  · cases h

theorem All.of_set {key : String} {v : Value} (h : (o.set key v).All P) : P v :=
  h.get? (by rw [get?_set, if_pos rfl])

end Object

theorem Heap.lt_size_of_length {h : Heap} {a : Address} {n : Int} (hlength : (h.get a).length = .ok n) :
    a < h.size := by
  rw [← Nat.not_le]
  intro ha
  rw [Heap.get_of_size_le ha] at hlength
  cases hlength

/-! ### Applications beyond the range -/

/-- Whether the application of a native function makes an integer out of range: `int` of a value that
stands for one, a document with such a number in it, an element more for an array that has the greatest
length, or the time of a clock beyond the range. -/
inductive Native.Oversteps [Host.Limits] (m : Machine) : Native → List Value → Prop where
  | int {v : Value} {n : Int} : toInt v = .ok (.int n) → Number.inRange n = false →
      Oversteps m (.builtin .int) [v]
  | parse {text : String} {j : Json} {n : Int} : Json.parse text = .ok j → ¬j.IsScalar →
      j.Numbers n → Number.inRange n = false → Oversteps m (.json .parse) [.str text]
  | push {a : Address} {item : Value} :
      ((m.heap.copyValue item).2.get a).length = .ok Number.intMax →
      Oversteps m (.array .push) [.object a, item]
  | unshift {a : Address} {item : Value} {items : List Value} :
      ((m.heap.copyValue item).2.get a).elements = .ok items → (items.length : Int) = Number.intMax →
      Oversteps m (.array .unshift) [.object a, item]
  | now {vs : List Value} : Number.inRange m.world.clock = false → Oversteps m (.time .now) vs

/-- What a native function makes without a check is in range, unless it oversteps. -/
theorem Native.Makes.inRange [Host.Limits] {m : Machine} {f : Native} {vs : List Value} {n : Int}
    (h : f.Makes m vs n) (hm : Condition.inRange.Holds m) (hvs : ∀ v ∈ vs, v.KeepsRange)
    (hsteps : ¬f.Oversteps m vs) : Number.inRange n = true := by
  have hcopied : ∀ {item}, item ∈ vs → (m.heap.copyValue item).2.All Value.KeepsRange := fun hitem =>
    (hm.heap.copyValue Condition.inRange.rename (hvs _ hitem)).2
  have hmin : Number.intMin ≤ 0 := by decide
  cases h with
  | int hv => exact Bool.not_eq_false _ |>.mp fun hn => hsteps (.int hv hn)
  | now => exact Bool.not_eq_false _ |>.mp fun hn => hsteps (.now hn)
  | @push a item k hk =>
    -- The length is held, so it is in range, and it is not the greatest integer.
    have hrange := Number.inRange_iff.mp ((hcopied (by simp) a).length hk)
    have hne : k ≠ Number.intMax := by
      rintro rfl
      exact hsteps (.push hk)
    exact Number.inRange_iff.mpr (by omega)
  | @pop a k hk hpos =>
    have hrange := Number.inRange_iff.mp ((hm.heap a).length hk)
    exact Number.inRange_iff.mpr (by omega)
  | @shift a first rest hrest =>
    -- One element fewer is left than the length says.
    obtain ⟨k, hk, hlength⟩ := Object.exists_length_of_elements hrest
    have hrange := Number.inRange_iff.mp ((hm.heap a).length hk)
    rw [List.length_cons] at hlength
    exact Number.inRange_natCast (by omega)
  | @unshift a item items hitems =>
    obtain ⟨k, hk, hlength⟩ := Object.exists_length_of_elements hitems
    have hrange := Number.inRange_iff.mp ((hcopied (by simp) a).length hk)
    have hne : (items.length : Int) ≠ Number.intMax := fun heq => hsteps (.unshift hitems heq)
    have hmax : 0 ≤ Number.intMax := by decide
    exact Number.inRange_iff.mpr (by omega)
  | parse hparse hroot hn =>
    exact Bool.not_eq_false _ |>.mp fun hout => hsteps (.parse hparse hroot hn hout)

/-! ### What is beyond the range is held -/

section Held

variable {P : Value → Prop} {h h' : Heap}

theorem Heap.Grows.all (hgrows : h.Grows h') (hall : h'.All P) : h.All P := by
  intro a
  by_cases ha : a < h.size
  · rw [← hgrows.get ha]
    exact hall a
  · rw [Heap.get_of_size_le (Nat.le_of_not_lt ha)]
    exact Object.all_empty

theorem Heap.All.of_alloc {o : Object} (hall : (h.alloc o).2.All P) : h.All P ∧ o.All P := by
  refine ⟨(h.grows_alloc o).all hall, ?_⟩
  have hnew := hall h.size
  rwa [Heap.get_alloc_self] at hnew

namespace Json

/-- The value of an item is made in some heap on the way to the one that is left. -/
theorem exists_build_of_mem_items {items : List Json} (hitems : ∀ j ∈ items, j.Decodes) (h : Heap) :
    ∀ j ∈ items, ∃ h₀, (j.build h₀).1 ∈ (buildItems h items).1 ∧
      (j.build h₀).2.Grows (buildItems h items).2 := by
  induction items generalizing h with
  | nil => exact fun j hj => absurd hj List.not_mem_nil
  | cons item rest ih =>
    have hrest : ∀ j ∈ rest, j.Decodes := fun j hj => hitems j (List.mem_cons_of_mem _ hj)
    intro j hj
    rcases List.mem_cons.mp hj with rfl | hj
    · exact ⟨h, List.mem_cons_self, (decoded_buildItems hrest _).1⟩
    · obtain ⟨h₀, hmem, hgrows⟩ := ih hrest (item.build h).2 j hj
      exact ⟨h₀, List.mem_cons_of_mem _ hmem, hgrows⟩

theorem exists_build_of_mem_members {members : List (String × Json)}
    (hmembers : ∀ member ∈ members, member.2.Decodes) (h : Heap) :
    ∀ name j, (name, j) ∈ members → ∃ h₀, (name, (j.build h₀).1) ∈ (buildMembers h members).1 ∧
      (j.build h₀).2.Grows (buildMembers h members).2 := by
  induction members generalizing h with
  | nil => exact fun name j hj => absurd hj List.not_mem_nil
  | cons member rest ih =>
    have hrest : ∀ member ∈ rest, member.2.Decodes := fun member hmember =>
      hmembers member (List.mem_cons_of_mem _ hmember)
    intro name j hj
    rcases List.mem_cons.mp hj with rfl | hj
    · exact ⟨h, List.mem_cons_self, (decoded_buildMembers hrest _).1⟩
    · obtain ⟨h₀, hmem, hgrows⟩ := ih hrest (member.2.build h).2 name j hj
      exact ⟨h₀, List.mem_cons_of_mem _ hmem, hgrows⟩

/-- All numbers of a document are held: what is true of its value and of all that the heap holds is true
of them. -/
theorem numbers_held {Q : Json → Prop} {levels : Nat} {j : Json} (hobject : ∀ a, P (.object a))
    (hj : j.Composed Q levels) (h : Heap) (hvalue : P (j.build h).1) (hheap : (j.build h).2.All P) :
    ∀ n, j.Numbers n → P (.int n) := by
  induction hj generalizing h with
  | scalar levels hscalar _ =>
    intro n hn
    cases hn with
    | int => exact hvalue
    | _ => exact hscalar.elim
  | @array levels items each ih =>
    have hdecodes : ∀ j ∈ items, j.Decodes := fun j hj => decodes_of_composed (each j hj)
    rw [build] at hheap
    -- The array is allocated on top of the heap that all its items are made in.
    obtain ⟨hheap, harray⟩ := hheap.of_alloc
    have hshape := Object.arrayShaped_ofElements (buildItems h items).1
    intro n hn
    cases hn with
    | length =>
      have hlength := (decoded_buildItems hdecodes h).2.length_eq
      rw [hlength]
      exact harray.length hshape.length_eq
    | item hmem hn =>
      obtain ⟨h₀, hv, hgrows⟩ := exists_build_of_mem_items hdecodes h _ hmem
      have hvalue := harray.elements (Object.elements_ofElements _) _ hv
      exact ih _ hmem h₀ hvalue (hgrows.all hheap) n hn
  | @object levels members different each ih =>
    have hdecodes : ∀ member ∈ members, member.2.Decodes := fun member hmember =>
      decodes_of_composed (each member hmember)
    rw [build] at hheap
    obtain ⟨hheap, hrecord⟩ := hheap.of_alloc
    intro n hn
    cases hn with
    | @member _ name j _ hmem hset hn =>
      obtain ⟨h₀, hentry, hgrows⟩ := exists_build_of_mem_members hdecodes h name j hmem
      refine ih _ hmem h₀ ?_ (hgrows.all hheap) n hn
      by_cases hname : name = "set"
      · -- What the method replaces has numbers in it only if it is an array or an object.
        cases hn with
        | int => exact absurd rfl (hset hname _)
        | length => exact hobject _
        | item => exact hobject _
        | member => exact hobject _
      · have hnames := map_fst_eq_of_forall₂ (decoded_buildMembers hdecodes h).2
        have hplain : (name, (j.build h₀).1) ∈ (record (buildMembers h members).1).plainEntries := by
          rw [plainEntries_record (hnames ▸ different)]
          exact List.mem_filter.mpr ⟨hentry, by simpa using hname⟩
        exact hrecord _ (List.mem_filter.mp hplain).1

end Json

end Held

/-- An application that oversteps gives an integer out of range or leaves one in the heap. -/
theorem Native.Oversteps.outcome [Host.Limits] {m : Machine} {f : Native} {vs : List Value}
    (h : f.Oversteps m vs) :
    ∃ v m', (f.apply vs).outcome m = (.ok v, m') ∧ (v.InRange → ¬m'.heap.All Value.InRange) := by
  have hgrown : Number.inRange (Number.intMax + 1) = false := by decide
  -- Out of range is the value itself, a number inside it, or the length that an array is left with.
  cases h with
  | @int v n hv hn =>
    refine ⟨.int n, m, ?_, fun hrange => absurd hrange (by simp [Value.InRange, hn])⟩
    change (ofExcept (toInt v)).outcome m = _
    rw [hv]
    rfl
  | now hn => exact ⟨_, m, rfl, fun hrange => absurd hrange (by simp [Value.InRange, hn])⟩
  | @parse text j n hparse hroot hn hout =>
    refine ⟨_, _, Json.outcome_parse hparse hroot m, fun hvalue hheap => ?_⟩
    have hrange : (Value.int n).InRange :=
      Json.numbers_held (fun _ => trivial) (Json.composed_of_parse hparse) m.heap hvalue hheap n hn
    exact absurd hrange (by simp [Value.InRange, hout])
  | @push a item hlength =>
    have hpush : ((m.heap.copyValue item).2.get a).push (m.heap.copyValue item).1 =
        .ok ((((m.heap.copyValue item).2.get a).set (Object.indexKey Number.intMax)
          (m.heap.copyValue item).1).set Object.lengthKey (.int (Number.intMax + 1))) := by
      rw [Object.push, hlength]
      rfl
    have houtcome := outcome_arrayAdd "push" Object.push a item m
    simp only [hpush] at houtcome
    refine ⟨.null, _, houtcome, fun _ hheap => ?_⟩
    have hchanged := hheap a
    rw [Heap.get_set_self _ (Heap.lt_size_of_length hlength)] at hchanged
    exact absurd hchanged.of_set (by simp [Value.InRange, hgrown])
  | @unshift a item items hitems hcount =>
    obtain ⟨k, hlength, -⟩ := Object.exists_length_of_elements hitems
    have hunshift : ((m.heap.copyValue item).2.get a).unshift (m.heap.copyValue item).1 =
        .ok (((m.heap.copyValue item).2.get a).reindex items.length
          ((m.heap.copyValue item).1 :: items)) := by
      rw [Object.unshift, hitems]
      rfl
    have houtcome := outcome_arrayAdd "unshift" Object.unshift a item m
    simp only [hunshift] at houtcome
    refine ⟨.null, _, houtcome, fun _ hheap => ?_⟩
    have hchanged := hheap a
    rw [Heap.get_set_self _ (Heap.lt_size_of_length hlength)] at hchanged
    have hrange : Number.inRange ((items.length : Int) + 1) = true := hchanged.of_set
    rw [hcount, hgrown] at hrange
    cases hrange

/-! ### Runs -/

/-- Whether the numbers of a run stay in range: at every point, and in the answer there. -/
def RunInRange [Host.Limits] (config : Config) (source : String) (m : Machine) : Prop :=
  ∀ levels p, Evaluates config source m levels p →
    p.machine.InRange ∧ AnswerInRange ((evaluate levels).answer p)

/-- Whether a run applies a native function that oversteps. -/
def RunOversteps [Host.Limits] (config : Config) (source : String) (m : Machine) : Prop :=
  ∃ levels p f vs m', Evaluates config source m (levels + 1) p ∧
    Applies (evaluate levels) p.config p.machine p.node f vs m' ∧ f.Oversteps m' vs

theorem inRange_newSession (config : Config) (world : Host.World) :
    Condition.inRange.Holds (Session.new config world).machine := by
  refine ⟨Environment.allBindings_empty.update fun binding hbinding => ⟨trivial, ?_⟩, Heap.all_empty⟩
  obtain ⟨f, -, rfl⟩ := List.mem_map.mp hbinding
  exact trivial

/-- The numbers of a run stay in range exactly if it never applies a native function that oversteps,
provided that no call has more arguments than there are integers in range to count them. -/
theorem numbers_stay_in_range_iff [Host.Limits] {config : Config} {world : Host.World}
    {source : String}
    (hargs : ∀ levels p, Evaluates config source (Session.new config world).machine levels p →
      (p.node.arguments.length : Int) ≤ Number.intMax) :
    RunInRange config source (Session.new config world).machine ↔
      ¬RunOversteps config source (Session.new config world).machine := by
  constructor
  · -- The node that applies the function gives what the function gives.
    rintro hrange ⟨levels, p, f, vs, m', hp, happlies, hover⟩
    obtain ⟨v, m₁, hout, hfails⟩ := hover.outcome
    have hanswer : (evaluate (levels + 1)).answer p = (.ok v, m₁) :=
      outcome_atLine_ok p.node.line (happlies.outcome_evaluateNode.trans hout)
    have hends := (hrange (levels + 1) p hp).2
    rw [hanswer] at hends
    exact hfails (hends.value v rfl) hends.machine.heap
  · -- At every point that is in range so far, no function makes an integer that is not.
    intro hsteps
    have hrun : Condition.inRange.RunStays config source (Session.new config world).machine := by
      intro levels p hp _
      have hcount := hargs (levels + 1) p hp
      refine ⟨fun n hn => Number.inRange_natCast (by omega), fun f vs m' happlies _ hvs hm' => ?_⟩
      refine Condition.stays_native f hvs (fun n hmakes => ?_) (fun _ _ => trivial) hm'
      exact hmakes.inRange hm' hvs fun hover =>
        hsteps ⟨levels, p, f, vs, m', hp, happlies, hover⟩
    have hbad : ¬Condition.inRange.value (.int (Number.intMax + 1)) := by
      change ¬Number.inRange (Number.intMax + 1) = true
      decide
    intro levels p hp
    obtain ⟨hmeets, hanswers⟩ := Condition.meets_of_evaluates trivial hbad hrun trivial
      (inRange_newSession config world) hp
    exact ⟨hmeets.holds.inRange, hanswers.inRange⟩

/-! ### The integer of a text -/

/-- The call of `int` with a literal. -/
def intOfLiteral (raw : String) : Node := .call "int" [.text ⟨raw, 1⟩] 1

theorem get?_int : (Session.new {} {}).machine.env.get? "int" = some (.native (.builtin .int)) := by
  cbv

/-- A call of the function does what the function does with the values of its arguments. -/
theorem outcome_intOfLiteral {m : Machine} (hname : m.env.get? "int" = some (.native (.builtin .int)))
    (ev : Evaluator) (raw : String) :
    (evaluateNode ev {} (intOfLiteral raw)).outcome m =
      (nativeArguments ev {} (.builtin .int) [.text ⟨raw, 1⟩] >>=
        Native.apply (.builtin .int)).outcome m := by
  change (callNamed ev {} "int" [.text ⟨raw, 1⟩]).outcome m = _
  rw [callNamed, outcome_env_bind, hname]
  exact outcome_callNative ev {} _ _ _

/-- The run of a program with the literal gets to its statement, to the call in it, and to the argument
of the call. -/
theorem points_of_intOfLiteral {source raw : String} {levels : Nat} {p : Point}
    (hparse : Source.parse source = ⟨[] ++ .binding "n" (intOfLiteral raw) 1 :: [], none⟩)
    (hp : Evaluates {} source (Session.new {} {}).machine levels p) :
    p = ⟨{}, .binding "n" (intOfLiteral raw) 1, (Session.new {} {}).machine⟩ ∨
      p = ⟨{}, intOfLiteral raw, (Session.new {} {}).machine⟩ ∨
      p = ⟨{}, .text ⟨raw, 1⟩, (Session.new {} {}).machine⟩ := by
  induction hp with
  | statement hasks =>
    unfold runBy at hasks
    rw [hparse] at hasks
    rcases hasks.runTopLevel_cases with h | ⟨v, m', -, hasks⟩
    · exact .inl h
    · exact absurd hasks (not_asks_of_outcome fun _ => rfl)
  | inner _ hasks ih =>
    rcases ih with rfl | rfl | rfl
    · exact .inr (.inl hasks.of_binding)
    · -- The call asks for its argument.
      obtain ⟨ev', hagree, hdiffers⟩ := hasks
      simp only [outcome_intOfLiteral get?_int] at hdiffers
      have hasks : Asks (fun ev => nativeArguments ev {} (.builtin .int) [.text ⟨raw, 1⟩] >>=
          Native.apply (.builtin .int)) _ _ _ := ⟨ev', hagree, hdiffers⟩
      have hargument : Asks (fun ev => ev {} (.text ⟨raw, 1⟩) >>= fun value => pure [value]) _ _ _ :=
        hasks.of_bind
      exact .inr (.inr hargument.of_bind.eq_of_ask)
    · exact absurd hasks (not_asks_of_outcome fun _ => rfl)

/-- The statement binds the integer that its literal spells. -/
theorem answer_intOfLiteral {m : Machine} (hname : m.env.get? "int" = some (.native (.builtin .int)))
    {raw : String} {n : Int} (hread : toInt (.str (Source.unquote raw)) = .ok (.int n)) (levels : Nat) :
    (evaluate (levels + 3)).answer ⟨{}, .binding "n" (intOfLiteral raw) 1, m⟩ =
      (.ok .null, { m with env := m.env.define "n" (.int n) }) := by
  have hargs : (nativeArguments (evaluate (levels + 1)) {} (.builtin .int) [.text ⟨raw, 1⟩]).outcome m =
      (.ok [.str (Source.unquote raw)], m) := rfl
  have happly : ((Native.builtin .int).apply [.str (Source.unquote raw)]).outcome m =
      (.ok (.int n), m) := by
    change (ofExcept (toInt (.str (Source.unquote raw)))).outcome m = _
    rw [hread]
    rfl
  have hcall : (evaluate (levels + 2) {} (intOfLiteral raw)).outcome m = (.ok (.int n), m) := by
    refine outcome_atLine_ok 1 ?_
    rw [outcome_intOfLiteral hname, outcome_bind, hargs]
    exact happly
  have hbinding : evaluateBinding (evaluate (levels + 2)) {} "n" (intOfLiteral raw) =
      (evaluate (levels + 2) {} (intOfLiteral raw) >>= fun value => copyValue value >>= define "n") :=
    if_neg (by decide)
  refine outcome_atLine_ok 1 ?_
  change (evaluateBinding (evaluate (levels + 2)) {} "n" (intOfLiteral raw) >>= fun _ =>
    pure Value.null).outcome m = _
  rw [hbinding, outcome_bind, outcome_bind, hcall]
  rfl

/-- A program that binds the greatest integer in range. -/
def greatestIntProgram : String := "let n = int(\"9223372036854775807\")"

/-- A program that binds the integer behind it. -/
def largeIntProgram : String := "let n = int(\"9223372036854775808\")"

/-- The tokens of a statement that binds the integer of a literal. -/
def intTokens (raw : String) : List Source.Token :=
  [⟨.letWord, "let", 1⟩, ⟨.identifier, "n", 1⟩, ⟨.assign, "=", 1⟩, ⟨.identifier, "int", 1⟩,
    ⟨.leftParen, "(", 1⟩, ⟨.string, raw, 1⟩, ⟨.rightParen, ")", 1⟩]

theorem derives_intTokens (raw : String) :
    Source.Derives (.stmt false) (intTokens raw) (.binding "n" (intOfLiteral raw) 1) := by
  have hnone : Source.Newlines [] := fun _ h => absurd h List.not_mem_nil
  have hitems : Source.Derives .items ([⟨.string, raw, 1⟩] ++ []) [.text ⟨raw, 1⟩] :=
    .lastItem (.exprOperand (.operandTerm (.termString rfl))) hnone
  have hargs : Source.Derives .args
      (⟨.leftParen, "(", 1⟩ :: [] ++ ([⟨.string, raw, 1⟩] ++ []) ++ [⟨.rightParen, ")", 1⟩])
      [.text ⟨raw, 1⟩] :=
    .someArgs rfl hnone hitems rfl
  have hcall : Source.Derives .reference (⟨.identifier, "int", 1⟩ :: _) (intOfLiteral raw) :=
    .call rfl hargs
  exact .binding rfl List.mem_cons_self rfl (.exprOperand (.operandTerm (.termReference hcall)))

theorem parse_of_intTokens {source raw : String}
    (h : Source.tokenize source = (intTokens raw ++ [⟨.newline, "\n", 1⟩], none)) :
    Source.parse source = ⟨[] ++ .binding "n" (intOfLiteral raw) 1 :: [], none⟩ := by
  rcases Source.statement_complete (fun _ hs => absurd hs List.not_mem_nil) (derives_intTokens raw)
    stackLimit with hread | ⟨hfew, -⟩
  · exact Source.parse_of_readsAs h hread
  · have hlevels : 7 + 1 < stackLimit := by decide
    exact absurd hfew (Nat.not_le_of_lt hlevels)

theorem parse_greatestIntProgram : Source.parse greatestIntProgram =
    ⟨[] ++ .binding "n" (intOfLiteral "\"9223372036854775807\"") 1 :: [], none⟩ :=
  parse_of_intTokens (by decide +kernel)

theorem parse_largeIntProgram : Source.parse largeIntProgram =
    ⟨[] ++ .binding "n" (intOfLiteral "\"9223372036854775808\"") 1 :: [], none⟩ :=
  parse_of_intTokens (by decide +kernel)

/-- The integer of a text is the one that it is read as. -/
theorem toInt_of_readInteger {s : String} {n : Int} (h : Number.readInteger s = .number n) :
    toInt (.str s) = .ok (.int n) := by
  have hread : readNumber s "int" = .ok (.inl n) := by
    rw [readNumber, h]
  change (readNumber s "int" >>= fun read => _) = _
  rw [hread]
  rfl

theorem toInt_greatest :
    toInt (.str (Source.unquote "\"9223372036854775807\"")) = .ok (.int Number.intMax) :=
  toInt_of_readInteger (by decide +kernel)

theorem toInt_large :
    toInt (.str (Source.unquote "\"9223372036854775808\"")) = .ok (.int (Number.intMax + 1)) :=
  toInt_of_readInteger (by decide +kernel)

theorem not_runOversteps_greatestIntProgram :
    ¬RunOversteps {} greatestIntProgram (Session.new {} {}).machine := by
  rintro ⟨levels, p, f, vs, m', hp, happlies, hover⟩
  rcases points_of_intOfLiteral parse_greatestIntProgram hp with rfl | rfl | rfl
  · cases happlies
  · cases happlies with
    | named hname harguments =>
      rw [get?_int] at hname
      cases hname
      -- Without a level left the argument is not evaluated; else it is the text.
      cases levels with
      | zero => cases harguments
      | succ levels =>
        cases harguments
        cases hover with
        | int hread hrange =>
          cases toInt_greatest.symm.trans hread
          cases hrange
  · cases happlies

/-- The program with the greatest integer keeps its numbers in range. -/
theorem greatest_int_in_range :
    ¬RunOversteps {} greatestIntProgram (Session.new {} {}).machine ∧
      RunInRange {} greatestIntProgram (Session.new {} {}).machine := by
  refine ⟨not_runOversteps_greatestIntProgram, (numbers_stay_in_range_iff fun levels p hp => ?_).mpr
    not_runOversteps_greatestIntProgram⟩
  rcases points_of_intOfLiteral parse_greatestIntProgram hp with rfl | rfl | rfl <;> decide

/-- Numbers do not stay in range in every run: the integer of a text may have any size. -/
theorem int_can_leave_range :
    ¬∀ (config : Config) (world : Host.World) (source : String),
      RunInRange config source (Session.new config world).machine := by
  intro hclaim
  have hpoint : Evaluates {} largeIntProgram (Session.new {} {}).machine stackLimit
      ⟨{}, .binding "n" (intOfLiteral "\"9223372036854775808\"") 1, (Session.new {} {}).machine⟩ :=
    evaluates_statement parse_largeIntProgram rfl
  have hrange := (hclaim {} {} _ _ _ hpoint).2.machine.env
  rw [show stackLimit = 897 + 3 from rfl, answer_intOfLiteral get?_int toInt_large] at hrange
  have hbound : (Value.int (Number.intMax + 1)).InRange :=
    hrange.get? (by rw [Environment.get?_define, if_pos rfl])
  cases hbound

end ModuLang
